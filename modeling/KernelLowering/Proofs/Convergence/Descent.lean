import KernelLowering.Lowering.Pipeline
import KernelLowering.Proofs.Convergence.Fixpoints
import KernelLowering.Proofs.Convergence.NormalForms
import KernelLowering.Proofs.Convergence.Staging
import Mathlib.Logic.Relation

namespace KernelLowering

def Node.StandsAt (kind : KernelKind) (stage : Stage) (h : Node) : Prop :=
  h.kind = .kernel kind ∧ h.marker = some stage

structure Arrives (kind : KernelKind) (stage : Stage) (hs : List Node) : Prop where
  exists_kernel : ∃ h ∈ hs, h.StandsAt kind stage
  cases : ∀ h ∈ hs, h.StandsAt kind stage ∨ h.kind.kernel? = none ∧ h.marker = none

theorem Arrives.append {kind : KernelKind} {stage : Stage} {hs hs' : List Node}
    (h : Arrives kind stage hs) (h' : Arrives kind stage hs') : Arrives kind stage (hs ++ hs') where
  exists_kernel := by
    obtain ⟨n, hn, hstands⟩ := h.exists_kernel
    exact ⟨n, List.mem_append_left _ hn, hstands⟩
  cases := List.forall_mem_append.2 ⟨h.cases, h'.cases⟩

section Emission

variable {f g : Function} {k : Spine} {b x z : Code} {hd : Node}

theorem TilePlan.Covers.ne_nil {extents : List Int} {split : List Nat} {ns : List Nest}
    (h : Covers extents split ns) (hpos : ∀ extent ∈ extents, 0 < extent) : ns ≠ [] := by
  rintro rfl
  have hin : extents.map (fun _ => 0) ∈ box extents := by
    rw [mem_box, List.forall₂_map_left_iff, List.forall₂_same]
    exact fun extent he => ⟨Int.le_refl 0, hpos extent he⟩
  exact absurd (h.perm.mem_iff.2 hin) (by simp)

namespace Tiling

variable {t : Tiling} {plan : TilePlan} {operands : List ValueId} {nest : Nest} {ns : List Nest}
  {y : Code}

theorem NestOf.arrives (h : NestOf t plan operands nest y) : Arrives t.kind t.guard.next y.heads := by
  cases h with
  | @intro loops vars y tiled op hloops htiled _ =>
    rw [Code.heads_within, Code.heads_append]
    refine ⟨⟨.effect op (.kernel t.kind) tiled (some t.guard.next), by simp [Code.heads], rfl, rfl⟩, ?_⟩
    simp only [List.forall_mem_append]
    refine ⟨fun h hh => .inr ?_, fun h hh => .inr ?_, List.forall_mem_singleton.2 (.inl ⟨rfl, rfl⟩)⟩
    · obtain ⟨op, kind, vars, hkind, rfl⟩ := hloops.isLoopNode h hh
      cases kind <;> first | exact ⟨rfl, rfl⟩ | cases hkind
    · rcases htiled.eq_value h hh with ⟨op, terms, v, rfl⟩ | ⟨op, w, terms, v, t, rfl⟩ <;>
        exact ⟨rfl, rfl⟩

theorem NestsOf.arrives (h : NestsOf t plan operands ns y) (hns : ns ≠ []) :
    Arrives t.kind t.guard.next y.heads := by
  induction h with
  | nil => exact (hns rfl).elim
  | @cons nest ns y y' hfirst hrest ih =>
    rw [Code.heads_append]
    cases hrest with
    | nil => simpa [Code.heads] using hfirst.arrives
    | cons => exact hfirst.arrives.append (ih (List.cons_ne_nil _ _))

theorem emits_of_answers (hr : f.Represents (k.plug (b ++ .node hd x z)))
    (h : ((Rule.tiling t).apply f hd.op).Answers g) :
    ∃ y, Splice f g k b y z ∧ y.Tidy hd.operands ∧ Arrives t.kind t.guard.next y.heads := by
  rw [Rule.apply, Inspect.answers_bind] at h
  obtain ⟨⟨⟩, hcheck, hperform⟩ := h
  obtain ⟨-, -, plan, hplan⟩ := (check_answers (Function.op_eq_ok.1 hr.record_at)).1 hcheck
  have hmake := ((plan_answers ⟨_, _, Function.op_eq_ok.1 hr.record_at⟩).1 hplan).2
  have hsound := TilePlan.sound_of_make hmake
  rw [Inspect.answers_lift] at hperform
  obtain ⟨r, hrun, rfl⟩ := Fault.map_eq_ok.1 hperform
  obtain ⟨ns, y, hns, hnests, hsplice⟩ := (yields_perform hr hplan).of_ok hrun
  obtain ⟨ns', hns', hcovers⟩ := hsound.exists_nests
  obtain rfl : ns = ns' := Except.ok.inj (hns.symm.trans hns')
  exact ⟨y, hsplice, hnests.tidy fun v hv => hv, hnests.arrives (hcovers.ne_nil hsound.positive)⟩

end Tiling

namespace Promotion

variable {p : Promotion} {operands : List ValueId} {tiles : List (Nat × BufferType)} {y : Code}

theorem TilesOf.unmarked {buffers promoted : List ValueId}
    (h : TilesOf p tiles operands y buffers promoted) :
    ∀ h ∈ y.heads, h.kind.kernel? = none ∧ h.marker = none := by
  induction h with
  | nil => simp [Code.heads]
  | cons hfirst _ ih =>
    rw [Code.heads_append, List.forall_mem_append]
    refine ⟨?_, ih⟩
    cases hfirst <;> simp [Code.heads, Node.value, OpKind.kernel?]

theorem PromotedOf.arrives {positions : List Nat} (h : PromotedOf p operands positions tiles y) :
    Arrives p.kind p.guard.next y.heads := by
  cases h with
  | @intro y y' buffers promoted htiles hactions =>
    rw [Code.heads_append]
    refine ⟨?_, List.forall_mem_append.2 ⟨fun h hh => .inr (htiles.unmarked h hh), fun h hh => ?_⟩⟩
    · obtain ⟨op, hop⟩ := hactions.mem_heads (a := (.kernel p.kind, promoted, some p.guard.next))
        (by simp [actions])
      exact ⟨_, List.mem_append_right _ hop, rfl, rfl⟩
    · obtain ⟨op, a, ha, rfl⟩ := hactions.exists_action h hh
      rcases cases_of_mem_actions ha with ⟨hkind, hmarker⟩ | rfl
      · refine .inr ⟨?_, hmarker⟩
        rcases hkind with hkind | hkind <;> simp [Node.effect, hkind, OpKind.kernel?]
      · exact .inl ⟨rfl, rfl⟩

theorem emits_of_answers (hr : f.Represents (k.plug (b ++ .node hd x z)))
    (h : ((Rule.promotion p).apply f hd.op).Answers g) :
    ∃ y, Splice f g k b y z ∧ y.Tidy hd.operands ∧ Arrives p.kind p.guard.next y.heads := by
  rw [Rule.apply, Inspect.answers_bind] at h
  obtain ⟨⟨⟩, hcheck, hperform⟩ := h
  rw [Inspect.answers_lift] at hperform
  obtain ⟨r, hrun, rfl⟩ := Fault.map_eq_ok.1 hperform
  obtain ⟨types, y, -, hpromoted, hsplice⟩ :=
    (yields_perform hr (reads_of_check hr hcheck) fun _ _ _ _ _ => trivial).of_ok hrun
  exact ⟨y, hsplice, hpromoted.tidy fun v hv => hv, hpromoted.arrives⟩

end Promotion

end Emission

/-- A kernel that has gone over a step, and what stands in its place. -/
structure Advance where
  step : Step
  kernel : Node
  new : List Node

namespace Pipeline

theorem foldl_min_spec (m : Stage) (ms : List Stage) :
    ms.foldl min m ∈ m :: ms ∧ ∀ s ∈ m :: ms, ms.foldl min m ≤ s := by
  induction ms generalizing m with
  | nil => exact ⟨List.mem_singleton_self m, List.forall_mem_singleton.2 (Nat.le_refl _)⟩
  | cons s ms ih =>
    obtain ⟨hmem, hle⟩ := ih (min m s)
    rw [List.forall_mem_cons] at hle
    have hmin : (min m s = m ∨ min m s = s) ∧ min m s ≤ m ∧ min m s ≤ s := by
      show ((if m ≤ s then m else s) = m ∨ (if m ≤ s then m else s) = s) ∧
        (if m ≤ s then m else s) ≤ m ∧ (if m ≤ s then m else s) ≤ s
      split
      · exact ⟨.inl rfl, Nat.le_refl _, by assumption⟩
      · exact ⟨.inr rfl, Nat.le_of_not_le (by assumption), Nat.le_refl _⟩
    rw [List.foldl_cons, List.forall_mem_cons, List.forall_mem_cons]
    refine ⟨?_, Nat.le_trans hle.1 hmin.2.1, Nat.le_trans hle.1 hmin.2.2, hle.2⟩
    rcases List.mem_cons.1 hmem with hmem | hmem
    · rw [hmem]
      exact hmin.1.elim (fun h => by simp [h]) fun h => by simp [h]
    · exact List.mem_cons_of_mem _ (List.mem_cons_of_mem _ hmem)

theorem least_rel {ms ms' : List Stage} (hstays : ∀ s ∈ ms, ∃ s', s' ∈ ms')
    (habove : ∀ s' ∈ ms', ∃ s ∈ ms, s ≤ s') : Option.Rel (· ≤ ·) (least ms) (least ms') := by
  cases ms with
  | nil =>
    cases ms' with
    | nil => exact .none
    | cons m' ms' =>
      obtain ⟨s, hs, -⟩ := habove m' List.mem_cons_self
      cases hs
  | cons m ms =>
    cases ms' with
    | nil =>
      obtain ⟨s', hs'⟩ := hstays m List.mem_cons_self
      cases hs'
    | cons m' ms' =>
      obtain ⟨s, hs, hle⟩ := habove _ (foldl_min_spec m' ms').1
      exact .some (Nat.le_trans ((foldl_min_spec m ms).2 s hs) hle)

theorem mem_markers {f : Function} (hf : f.WellFormed) {kind : KernelKind} {stage : Stage} :
    stage ∈ markers f kind ↔ ∃ h ∈ f.code.heads, h.StandsAt kind stage := by
  simp only [markers, Function.collect, List.mem_filterMap, List.mem_filter, hf.walk_eq,
    Code.ops_eq_map_heads, List.mem_map]
  constructor
  · rintro ⟨_, ⟨⟨h, hh, rfl⟩, hkind⟩, hmarker⟩
    obtain ⟨parent, region, hop⟩ := Function.Represents.exists_record hf hh
    rw [hop] at hkind hmarker
    exact ⟨h, hh, by simpa [Node.record] using hkind, hmarker⟩
  · rintro ⟨h, hh, hkind, hmarker⟩
    obtain ⟨parent, region, hop⟩ := Function.Represents.exists_record hf hh
    exact ⟨h.op, ⟨⟨h, hh, rfl⟩, by simp [hop, Node.record, hkind]⟩, by rw [hop]; exact hmarker⟩

end Pipeline

namespace KernelPlan

variable {plan : KernelPlan} {f g g' : Function} {step : Step} {a : Advance} {passed : List Function}
  {log : List Advance} {h h' : Node}

theorem emits_of_answers {k : Spine} {b x z : Code} {hd : Node}
    (hr : f.Represents (k.plug (b ++ .node hd x z)))
    (h : ((plan.rule step).apply f hd.op).Answers g) :
    ∃ y, Splice f g k b y z ∧ y.Tidy hd.operands ∧ Arrives plan.kind step.target y.heads := by
  cases htransition : step.transition <;> simp only [rule, htransition] at h
  · exact Tiling.emits_of_answers hr h
  · exact Promotion.emits_of_answers hr h
  · exact Tiling.emits_of_answers hr h
  · exact Promotion.emits_of_answers hr h

structure Advances (plan : KernelPlan) (f g : Function) (a : Advance) : Prop where
  wellFormed : g.WellFormed
  step : a.step ∈ plan.steps
  leaves : a.kernel.StandsAt plan.kind a.step.source
  arrives : Arrives plan.kind a.step.target a.new
  fresh : ∀ h ∈ a.new, f.ops.size ≤ h.op.index
  heads : ∃ before behind, f.code.heads = before ++ a.kernel :: behind ∧
    g.code.heads = before ++ (a.new ++ behind)

structure Drops (f g : Function) : Prop where
  wellFormed : g.WellFormed
  heads : ∃ before h behind, f.code.heads = before ++ h :: behind ∧ h.kind.isPure = true ∧
    g.code.heads = before ++ behind

/-- Kernels that advance one after the other, and all functions on the way. In between, operations may go
for which nothing asks. -/
inductive History (plan : KernelPlan) (f : Function) : List Function → List Advance → Function → Prop
  | start : History plan f [f] [] f
  | advance {passed : List Function} {log : List Advance} {g g' : Function} {a : Advance}
      (before : History plan f passed log g) (hadvances : plan.Advances g g' a) :
      History plan f (passed ++ [g']) (log ++ [a]) g'
  | drop {passed : List Function} {log : List Advance} {g g' : Function}
      (before : History plan f passed log g) (hdrops : Drops g g') :
      History plan f (passed ++ [g']) log g'

/-- One kernel has taken the place of another in the log, by a step of the plan. -/
def Descends (plan : KernelPlan) (log : List Advance) (h h' : Node) : Prop :=
  ∃ a ∈ log, a.step ∈ plan.steps ∧ a.kernel = h ∧ h.StandsAt plan.kind a.step.source ∧
    h' ∈ a.new ∧ h'.StandsAt plan.kind a.step.target

/-- A kernel that the plan is not about: of the other kind, or without a marker. -/
def spares (plan : KernelPlan) (h : Node) : Bool :=
  h.kind.kernel?.any fun kind => kind ≠ plan.kind ∨ h.marker = none

def least (plan : KernelPlan) (f : Function) : Option Stage :=
  Pipeline.least (Pipeline.markers f plan.kind)

/-- Marked kernels of the plan's kind stay marked, and the least stage of one does not fall. -/
def Climbs (plan : KernelPlan) (f g : Function) : Prop :=
  Option.Rel (· ≤ ·) (plan.least f) (plan.least g)

theorem Climbs.refl (f : Function) : plan.Climbs f f := by
  unfold Climbs
  cases plan.least f with
  | none => exact .none
  | some s => exact .some (Nat.le_refl _)

theorem Climbs.trans {f' : Function} (h : plan.Climbs f f') (h' : plan.Climbs f' g) :
    plan.Climbs f g := by
  unfold Climbs at *
  generalize plan.least f = m, plan.least f' = m', plan.least g = m'' at *
  cases h with
  | none =>
    cases h'
    exact .none
  | some hle =>
    cases h' with
    | some hle' => exact .some (Nat.le_trans hle hle')

theorem climbs_of_heads (hf : f.WellFormed) (hg : g.WellFormed)
    (hstays : ∀ h ∈ f.code.heads, ∀ s, h.StandsAt plan.kind s →
      ∃ h' ∈ g.code.heads, ∃ s', h'.StandsAt plan.kind s')
    (habove : ∀ h' ∈ g.code.heads, ∀ s', h'.StandsAt plan.kind s' →
      ∃ h ∈ f.code.heads, ∃ s, h.StandsAt plan.kind s ∧ s ≤ s') : plan.Climbs f g := by
  refine Pipeline.least_rel (fun s hs => ?_) fun s' hs' => ?_
  · obtain ⟨h, hh, hstands⟩ := (Pipeline.mem_markers hf).1 hs
    obtain ⟨h', hh', s', hstands'⟩ := hstays h hh s hstands
    exact ⟨s', (Pipeline.mem_markers hg).2 ⟨h', hh', hstands'⟩⟩
  · obtain ⟨h', hh', hstands'⟩ := (Pipeline.mem_markers hg).1 hs'
    obtain ⟨h, hh, s, hstands, hle⟩ := habove h' hh' s' hstands'
    exact ⟨s, (Pipeline.mem_markers hf).2 ⟨h, hh, hstands⟩, hle⟩

namespace Advances

variable (ha : plan.Advances f g a)

include ha

theorem climbs (hf : f.WellFormed) : plan.Climbs f g := by
  obtain ⟨before, behind, hheads, hheads'⟩ := ha.heads
  refine climbs_of_heads hf ha.wellFormed (fun _ _ _ _ => ?_) fun h hh s hstands => ?_
  · obtain ⟨h, hh, hstands⟩ := ha.arrives.exists_kernel
    exact ⟨h, by simp [hheads', hh], _, hstands⟩
  · rw [hheads', List.mem_append, List.mem_append] at hh
    rcases hh with hh | hh | hh
    · exact ⟨h, by simp [hheads, hh], s, hstands, Nat.le_refl _⟩
    · refine ⟨a.kernel, by simp [hheads], _, ha.leaves, ?_⟩
      rcases ha.arrives.cases h hh with hat | ⟨hnone, -⟩
      · obtain rfl : s = a.step.target := Option.some.inj (hstands.2.symm.trans hat.2)
        exact Nat.le_of_lt a.step.ascends
      · simp [hstands.1, OpKind.kernel?] at hnone
    · exact ⟨h, by simp [hheads, hh], s, hstands, Nat.le_refl _⟩

theorem spared : g.code.heads.filter plan.spares = f.code.heads.filter plan.spares := by
  obtain ⟨before, behind, hheads, hheads'⟩ := ha.heads
  have hkernel : plan.spares a.kernel = false := by
    simp [spares, ha.leaves.1, ha.leaves.2, OpKind.kernel?]
  have hnew : a.new.filter plan.spares = [] := by
    refine List.filter_eq_nil_iff.2 fun h hh => ?_
    rcases ha.arrives.cases h hh with ⟨hkind, hmarker⟩ | ⟨hnone, -⟩
    · simp [spares, hkind, hmarker, OpKind.kernel?]
    · simp [spares, hnone]
  simp [hheads, hheads', hkernel, hnew]

end Advances

namespace Drops

variable (hd : Drops f g)

include hd

theorem mem_heads_iff {kind : KernelKind} (hkind : h.kind = .kernel kind) :
    h ∈ g.code.heads ↔ h ∈ f.code.heads := by
  obtain ⟨before, dead, behind, hheads, hpure, hheads'⟩ := hd.heads
  have hne : h ≠ dead := by
    rintro rfl
    simp [hkind, OpKind.isPure] at hpure
  simp [hheads, hheads', hne]

theorem climbs (hf : f.WellFormed) : plan.Climbs f g :=
  climbs_of_heads hf hd.wellFormed
    (fun h hh s hstands => ⟨h, (hd.mem_heads_iff hstands.1).2 hh, s, hstands⟩)
    fun h hh s hstands => ⟨h, (hd.mem_heads_iff hstands.1).1 hh, s, hstands, Nat.le_refl _⟩

theorem spared : g.code.heads.filter plan.spares = f.code.heads.filter plan.spares := by
  obtain ⟨before, dead, behind, hheads, hpure, hheads'⟩ := hd.heads
  have hdead : plan.spares dead = false := by
    cases hkind : dead.kind <;> simp_all [spares, OpKind.isPure, OpKind.kernel?]
  simp [hheads, hheads', hdead]

end Drops

theorem descends_mono {log' : List Advance} (hsub : log ⊆ log') :
    plan.Descends log ≤ plan.Descends log' := fun _ _ ⟨a, ha, hrest⟩ => ⟨a, hsub ha, hrest⟩

namespace History

variable (hh : plan.History f passed log g)

include hh

theorem wellFormed (hf : f.WellFormed) : g.WellFormed := by
  cases hh with
  | start => exact hf
  | advance _ hadvances => exact hadvances.wellFormed
  | drop _ hdrops => exact hdrops.wellFormed

theorem climbs (hf : f.WellFormed) : passed.Pairwise plan.Climbs ∧ ∀ f' ∈ passed, plan.Climbs f' g := by
  have hsnoc : ∀ {passed g g'}, (passed.Pairwise plan.Climbs ∧ ∀ f' ∈ passed, plan.Climbs f' g) →
      plan.Climbs g g' → (passed ++ [g']).Pairwise plan.Climbs ∧
        ∀ f' ∈ passed ++ [g'], plan.Climbs f' g' := by
    rintro passed g g' ⟨hpairs, hlast⟩ hstep
    have hall : ∀ f' ∈ passed, plan.Climbs f' g' := fun f' hf' => (hlast f' hf').trans hstep
    refine ⟨List.pairwise_append.2 ⟨hpairs, List.pairwise_singleton _ _, fun f' hf' => ?_⟩,
      List.forall_mem_append.2 ⟨hall, List.forall_mem_singleton.2 (.refl g')⟩⟩
    exact List.forall_mem_singleton.2 (hall f' hf')
  induction hh with
  | start => exact ⟨List.pairwise_singleton _ _, List.forall_mem_singleton.2 (.refl f)⟩
  | advance before hadvances ih => exact hsnoc ih (hadvances.climbs (before.wellFormed hf))
  | drop before hdrops ih => exact hsnoc ih (hdrops.climbs (before.wellFormed hf))

theorem spared : g.code.heads.filter plan.spares = f.code.heads.filter plan.spares := by
  induction hh with
  | start => rfl
  | advance _ hadvances ih => exact hadvances.spared.trans ih
  | drop _ hdrops ih => exact hdrops.spared.trans ih

theorem exists_ancestor {kind : KernelKind} (hin : h ∈ g.code.heads) (hkind : h.kind = .kernel kind) :
    ∃ h₀ ∈ f.code.heads, Relation.ReflTransGen (plan.Descends log) h₀ h := by
  induction hh generalizing h kind with
  | start => exact ⟨h, hin, .refl⟩
  | @advance passed log g g' a before hadvances ih =>
    have hmono : ∀ {h₀ h}, Relation.ReflTransGen (plan.Descends log) h₀ h →
        Relation.ReflTransGen (plan.Descends (log ++ [a])) h₀ h :=
      Relation.ReflTransGen.mono (descends_mono (List.subset_append_left _ _)) _ _
    obtain ⟨front, behind, hheads, hheads'⟩ := hadvances.heads
    rw [hheads', List.mem_append, List.mem_append] at hin
    rcases hin with hin | hin | hin
    · obtain ⟨h₀, hh₀, hpath⟩ := ih (by simp [hheads, hin]) hkind
      exact ⟨h₀, hh₀, hmono hpath⟩
    · obtain ⟨h₀, hh₀, hpath⟩ := ih (h := a.kernel) (by simp [hheads]) hadvances.leaves.1
      have hstands : h.StandsAt plan.kind a.step.target :=
        (hadvances.arrives.cases h hin).resolve_right fun hnone => by
          simp [hkind, OpKind.kernel?] at hnone
      exact ⟨h₀, hh₀, (hmono hpath).tail
        ⟨a, by simp, hadvances.step, rfl, hadvances.leaves, hin, hstands⟩⟩
    · obtain ⟨h₀, hh₀, hpath⟩ := ih (by simp [hheads, hin]) hkind
      exact ⟨h₀, hh₀, hmono hpath⟩
  | drop _ hdrops ih => exact ih ((hdrops.mem_heads_iff hkind).1 hin) hkind

end History

section Run

variable {k : Spine} {b x z : Code} {hd : Node} {has : Prop} {n : Nat}

theorem advances_of_answers (hnested : (k.plug (b ++ .node hd x z)).Nested) (hstep : step ∈ plan.steps)
    (hr : f.Represents (k.plug (b ++ .node hd x z)))
    (h : ((plan.rule step).apply f hd.op).Answers g) :
    ∃ y, Splice f g k b y z ∧ y.Tidy hd.operands ∧ plan.Advances f g ⟨step, hd, y.heads⟩ := by
  obtain ⟨y, hsplice, htidy, harrives⟩ := emits_of_answers hr h
  have hcheck : ((plan.rule step).check f hd.op).Answers () := by
    rw [Rule.apply, Inspect.answers_bind] at h
    exact h.choose_spec.1
  obtain ⟨hkind, hmarker⟩ := of_check (hr.exists_record (Spine.mem_heads_at k b x z hd)) hcheck
  obtain rfl : x = .nil := Spine.body_eq_nil hnested (by rw [hkind]; rfl)
  have hreplaces : f.Replaces g k b .nil z id y.heads := hsplice.replaces_id
  obtain ⟨kept, hkept, hheads⟩ := hreplaces.heads
  obtain rfl : kept = [] := hkept.elim id id
  refine ⟨y, hsplice, htidy, hreplaces.wellFormed, hstep, ⟨hkind, hmarker⟩, harrives, hreplaces.ops,
    k.before b, k.behind z, ?_, ?_⟩
  · rw [hr.code_eq, Spine.heads_at]
    rfl
  · simpa using hheads

theorem Drops.of_sheds (hnested : f.code.Nested) (hs : f.Sheds g k b x z hd) : Drops f g := by
  obtain rfl : x = .nil := hs.body_eq_nil hnested
  obtain ⟨kept, hkept, hheads⟩ := hs.replaces.heads
  obtain rfl : kept = [] := hkept.elim id id
  refine ⟨hs.after.wellFormed, k.before b, hd, k.behind z, ?_, hs.pure, by simpa using hheads⟩
  rw [hs.before.code_eq, Spine.heads_at]
  rfl

structure Reaches (plan : KernelPlan) (f : Function) (has : Prop) (n : Nat) (g : Function) : Prop where
  wellFormed : g.WellFormed
  nested : g.code.Nested
  operands : has → ∀ h ∈ g.code.heads, ∀ v ∈ h.operands, g.Has v
  history : ∃ passed log, plan.History f passed log g ∧ log.length = n

theorem Reaches.sheds (hg : plan.Reaches f has n g) (hs : g.Sheds g' k b x z hd) :
    plan.Reaches f has n g' where
  wellFormed := hs.after.wellFormed
  nested := hs.nested hg.nested
  operands h h' hh' v hv := by
    rw [hs.after.code_eq] at hh'
    have hin : h' ∈ g.code.heads := hs.before.code_eq ▸ Spine.mem_heads_around hh' hd x
    exact hs.same.grows.has (hg.operands h h' hin v hv)
  history := by
    obtain ⟨passed, log, hhistory, hlog⟩ := hg.history
    exact ⟨_, log, hhistory.drop (.of_sheds hg.nested hs), hlog⟩

theorem Reaches.rule (hg : plan.Reaches f has n g) (hstep : step ∈ plan.steps)
    (hr : g.Represents (k.plug (b ++ .node hd x z))) :
    ((plan.rule step).apply g hd.op).EndsWith (fun fault => has → fault = .overflow) fun g' =>
      plan.Reaches f has (n + 1) g' ∧ g.ops.size ≤ g'.ops.size := by
  have hnested : (k.plug (b ++ .node hd x z)).Nested := hr.code_eq ▸ hg.nested
  have hhas : has → ∀ h ∈ (k.plug (b ++ .node hd x z)).heads, ∀ v ∈ h.operands, g.Has v :=
    hr.code_eq ▸ hg.operands
  have hat := Spine.mem_heads_at k b x z hd
  refine Inspect.endsWith_of_gives
    (fun h => (gives_advances hstep (hhas h hd hat) hr).mono fun _ _ _ => trivial) fun g' hg' => ?_
  obtain ⟨y, hsplice, htidy, hadvances⟩ := advances_of_answers hnested hstep hr hg'
  refine ⟨⟨hadvances.wellFormed, ?_, fun h h' hh' v hv => ?_, ?_⟩, hsplice.grows.ops⟩
  · rw [hsplice.represents.code_eq]
    simpa using (Spine.nested_splice hnested).2 id y htidy.nested
  · rcases hsplice.replaces_id.cases hh' with hnew | ⟨h₁, hh₁, rfl⟩
    · exact hsplice.has_operand htidy (hhas h hd hat) hnew hv
    · rw [Node.rename_id] at hv
      exact hsplice.grows.has (hhas h h₁ (Spine.mem_heads_iff.2 (hh₁.imp_right .inr)) v hv)
  · obtain ⟨passed, log, hhistory, hlog⟩ := hg.history
    exact ⟨_, _, hhistory.advance hadvances, by simp [hlog]⟩

theorem counts_reaches (plan : KernelPlan) (f : Function) (has : Prop) :
    Greedy.Counts (fun fault => has → fault = .overflow) (plan.Reaches f has) plan.stageRules where
  wellFormed _ _ hg := hg.wellFormed
  sheds _ _ _ _ _ _ _ _ hg hs := hg.sheds hs
  rule hg hr _ hrule := by
    obtain ⟨step, hstep, rfl⟩ := List.mem_map.1 hrule
    exact hg.rule hstep hr

theorem run_descends (hf : f.WellFormed) (hnested : f.code.Nested) (plan : KernelPlan) (maxSweeps : Nat) :
    Ends (fun fault => (∀ h ∈ f.code.heads, ∀ v ∈ h.operands, f.Has v) → fault = .overflow)
      (Greedy.run plan.stageRules maxSweeps f).outcome fun r =>
        ∃ passed log, plan.History f passed log r.1 ∧ log.length = r.2.changes ∧
          (∀ h ∈ r.1.code.heads, h.kind.kernel?.isSome = true → ∃ h₀ ∈ f.code.heads,
            Relation.ReflTransGen (plan.Descends log) h₀ h) ∧
          r.1.code.heads.filter plan.spares = f.code.heads.filter plan.spares ∧
          passed.Pairwise plan.Climbs := by
  refine ((counts_reaches plan f _).run maxSweeps ⟨hf, hnested, id, _, _, .start, rfl⟩).mono ?_
  rintro ⟨g, outcome⟩ - hg
  obtain ⟨passed, log, hhistory, hlog⟩ := hg.history
  refine ⟨passed, log, hhistory, hlog, fun h hh hkind => ?_, hhistory.spared, (hhistory.climbs hf).1⟩
  obtain ⟨kind, hkind⟩ := Option.isSome_iff_exists.1 hkind
  exact hhistory.exists_ancestor hh (OpKind.kernel?_eq_some.1 hkind)

def someKernels : Function where
  name := "kernels"
  ops := #[⟨.kernel .matmul, [⟨0⟩, ⟨1⟩, ⟨2⟩], none, some .selected, [], [], none, true⟩,
    ⟨.kernel .conv2d, [⟨0⟩, ⟨1⟩, ⟨2⟩], none, some .selected, [], [], none, true⟩,
    ⟨.kernel .matmul, [⟨0⟩, ⟨1⟩, ⟨2⟩], none, none, [], [], none, true⟩]
  values := #[⟨.buffer (.rowMajor [3, 2] .float32 .global), .argument 0⟩,
    ⟨.buffer (.rowMajor [2, 2] .float32 .global), .argument 1⟩,
    ⟨.buffer (.rowMajor [3, 2] .float32 .global), .argument 2⟩]
  arity := 3
  body := [⟨0⟩, ⟨1⟩, ⟨2⟩]

def twoRows : KernelPlan where
  kind := .matmul
  promoteMid := false
  tileMid := ⟨[2], [], .sequential⟩
  promotionMid := ⟨none, some .l2⟩
  tileLocal := ⟨[1], [], .parallel⟩
  promotionLocal := ⟨none, none⟩

theorem run_descends_someKernels : someKernels.WellFormed ∧ someKernels.code.Nested ∧
    ∃ g outcome passed log, (Greedy.run twoRows.stageRules 5 someKernels).outcome = .ok (g, outcome) ∧
      twoRows.History someKernels passed log g ∧ log.length = 5 ∧
        Pipeline.markers g .matmul = [.promotedLocal, .promotedLocal] ∧
          (∀ h ∈ g.code.heads, h.kind.kernel?.isSome = true → ∃ h₀ ∈ someKernels.code.heads,
            Relation.ReflTransGen (twoRows.Descends log) h₀ h) ∧
          g.code.heads.filter twoRows.spares = someKernels.code.heads.filter twoRows.spares ∧
          passed.Pairwise twoRows.Climbs := by
  have hwf : someKernels.WellFormed := by decide +kernel
  have hnested : someKernels.code.Nested := by decide +kernel
  have hok : (Greedy.run twoRows.stageRules 5 someKernels).outcome.toOption.map (fun r =>
      (r.2.changes, Pipeline.markers r.1 .matmul)) = some (5, [.promotedLocal, .promotedLocal]) := by
    decide +kernel
  generalize someKernels = f at *
  obtain ⟨⟨g, outcome⟩, hrun, hout⟩ := Fault.toOption_map_eq_some.1 hok
  obtain ⟨hchanges, hmarkers⟩ := Prod.mk.inj hout
  obtain ⟨passed, log, hhistory, hlog, hrest⟩ := (run_descends hwf hnested twoRows 5).of_ok hrun
  exact ⟨hwf, hnested, g, outcome, passed, log, hrun, hhistory, hlog.trans hchanges, hmarkers, hrest⟩

end Run

end KernelPlan

end KernelLowering
