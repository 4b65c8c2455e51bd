import KernelLowering.Lowering.Plan
import KernelLowering.Proofs.Convergence.Checks
import KernelLowering.Proofs.Convergence.Steps
import KernelLowering.Proofs.Convergence.Sweeps
import KernelLowering.Proofs.Scope.Runs

namespace KernelLowering

namespace Step

theorem pairwise_table (kind : KernelKind) (promoteMid : Bool) :
    (table kind promoteMid).Pairwise fun step next => step.source < next.source := by
  cases kind <;> cases promoteMid <;> decide

theorem length_table_le (kind : KernelKind) (promoteMid : Bool) :
    (table kind promoteMid).length ≤ 4 := by
  cases kind <;> cases promoteMid <;> decide

theorem length_table_pos (kind : KernelKind) (promoteMid : Bool) :
    0 < (table kind promoteMid).length := by
  cases kind <;> cases promoteMid <;> decide

theorem depth_le_of_mem {kind : KernelKind} {promoteMid : Bool} {step : Step}
    (h : step ∈ table kind promoteMid) :
    step.source.depth ≤ step.target.depth ∧ 0 < step.target.depth ∧
      (step.transition = .tileMid ∨ step.transition = .tileLocal →
        step.source.depth < step.target.depth) := by
  revert step
  cases kind <;> cases promoteMid <;> decide

theorem source_ne_target {steps : List Step} {n : Nat} {step early : Step}
    (hsteps : steps.Pairwise fun step next => step.source < next.source) (hmem : step ∈ steps)
    (hlate : step ∉ steps.take n) (hearly : early ∈ steps.take (n + 1)) :
    early.source ≠ step.target := by
  have hle : early.source ≤ step.source := by
    have hdrop : step ∈ steps.drop n :=
      (List.mem_append.1 ((List.take_append_drop n steps).symm ▸ hmem)).resolve_left hlate
    rw [← List.take_append_drop n steps, List.pairwise_append] at hsteps
    obtain ⟨-, hbehind, hacross⟩ := hsteps
    rw [List.take_add_one, List.mem_append, Option.mem_toList] at hearly
    rcases hearly with hearly | hearly
    · exact Nat.le_of_lt (hacross early hearly step hdrop)
    · obtain ⟨hlt, rfl⟩ := List.getElem?_eq_some_iff.1 hearly
      rw [List.drop_eq_getElem_cons hlt] at hdrop hbehind
      rcases List.mem_cons.1 hdrop with rfl | hdrop
      · exact Nat.le_refl _
      · exact Nat.le_of_lt ((List.pairwise_cons.1 hbehind).1 step hdrop)
  intro he
  exact Nat.not_lt.2 (he ▸ hle) step.ascends

end Step

namespace KernelPlan

variable {plan : KernelPlan} {step : Step} {f g : Function} {k : Spine} {b x z : Code} {hd : Node}
  {n : Nat}

theorem cleansViews_rule (plan : KernelPlan) (step : Step) : (plan.rule step).cleansViews = false := by
  cases h : step.transition <;> simp [rule, h, Rule.cleansViews]

theorem rule_ne_reallocation (plan : KernelPlan) (step : Step) (space : MemorySpace) :
    plan.rule step ≠ .reallocation space := fun h => by
  have hviews := plan.cleansViews_rule step
  rw [h] at hviews
  cases hviews

theorem of_check (hop : ∃ parent region, f.op? hd.op = some (hd.record parent region))
    (h : ((plan.rule step).check f hd.op).Answers ()) :
    hd.kind = .kernel plan.kind ∧ hd.marker = some step.source := by
  obtain ⟨parent, region, hop⟩ := hop
  have hguard : (StageGuard.checkKernel (.ofStep step) plan.kind (hd.record parent region)).Answers () := by
    cases htransition : step.transition <;>
      simp only [rule, htransition, Rule.check, Tiling.check, Promotion.check, Inspect.answers_bind,
        Inspect.answers_lift, Function.op_eq_ok.2 hop, Except.ok.injEq, exists_eq_left'] at h <;>
      exact h.choose_spec.1
  rw [StageGuard.checkKernel, StageGuard.check] at hguard
  by_cases hkind : hd.kind = .kernel plan.kind
  · by_cases hmarker : hd.marker = some step.source
    · exact ⟨hkind, hmarker⟩
    · simp [Node.record, hkind, StageGuard.ofStep, hmarker] at hguard
  · simp [Node.record, hkind] at hguard

theorem gives_advances (hstep : step ∈ plan.steps) (hops : ∀ v ∈ hd.operands, f.Has v)
    (hr : f.Represents (k.plug (b ++ .node hd x z))) :
    ((plan.rule step).apply f hd.op).Gives True fun g => ∃ y, Splice f g k b y z ∧
      ∀ h ∈ y.heads, h.Advances step.source step.target hd.operands y.heads := by
  obtain ⟨-, hpos, hlt⟩ := Step.depth_le_of_mem hstep
  have htiling : ∀ options, step.transition = .tileMid ∨ step.transition = .tileLocal →
      ((Rule.tiling ⟨plan.kind, options, .ofStep step⟩).apply f hd.op).Gives True fun g =>
        ∃ y, Splice f g k b y z ∧
          ∀ h ∈ y.heads, h.Advances step.source step.target hd.operands y.heads := by
    intro options htransition
    refine (Tiling.gives_splice hops hr).mono ?_
    rintro g - ⟨tiles, ns, y, -, hnests, hsplice⟩
    exact ⟨y, hsplice, hnests.advances (hlt htransition)⟩
  have hpromotion : ∀ options, ((Rule.promotion ⟨plan.kind, options, .ofStep step⟩).apply f hd.op).Gives
      True fun g => ∃ y, Splice f g k b y z ∧
        ∀ h ∈ y.heads, h.Advances step.source step.target hd.operands y.heads := by
    intro options
    refine (Promotion.gives_splice hops hr).mono ?_
    rintro g - ⟨types, y, -, hpromoted, hsplice⟩
    exact ⟨y, hsplice, hpromoted.advances hpos⟩
  cases htransition : step.transition <;> simp only [rule, htransition]
  · exact htiling _ (.inl htransition)
  · exact hpromotion _
  · exact htiling _ (.inr htransition)
  · exact hpromotion _

structure Staged (plan : KernelPlan) (n : Nat) (f : Function) : Prop where
  orderly : f.Orderly
  past : ∀ h ∈ f.code.heads, ∀ step ∈ plan.steps.take n, (plan.rule step).Declines f h.op

namespace Staged

theorem declines (h : plan.Staged n f) (hr : f.Represents (k.plug (b ++ .node hd .nil z)))
    {new : List Node} (hg : f.Replaces g k b .nil z id new) {h' : Node}
    (hh : h' ∈ k.before b ∨ h' ∈ k.behind z) (hunused : ∀ v ∈ h'.operands, v ∉ hd.defined)
    (hdeclines : (plan.rule step).Declines f h'.op) : (plan.rule step).Declines g h'.op := by
  have hin : h' ∈ (k.plug (b ++ .node hd .nil z)).heads :=
    Spine.mem_heads_iff.2 (hh.imp_right fun hh => .inr (.inr hh))
  exact hg.declines hr hh (fun v hv => ⟨h.orderly.has hr h' hin v hv, rfl, hunused v hv, by simp⟩)
    (plan.cleansViews_rule step) hdeclines

theorem shed (h : plan.Staged n f) (hs : f.Sheds g k b x z hd) : plan.Staged n g where
  orderly := h.orderly.shed hs
  past h' hh step hstep := by
    obtain rfl := h.orderly.body_eq_nil hs
    exact hs.declines h.orderly.has_operand hh (plan.cleansViews_rule step)
      fun h' hh => h.past h' hh step hstep

theorem change (h : plan.Staged n f) (hr : f.Represents (k.plug (b ++ .node hd x z)))
    (hstep : step ∈ plan.steps) :
    ((plan.rule step).apply f hd.op).Gives True fun g => x = .nil ∧ hd.defined = [] ∧
      ∃ new, f.Replaces g k b x z id new ∧ g.Orderly ∧ ∀ h ∈ new,
        ∀ early ∈ plan.steps.take (n + 1), (plan.rule early).Declines g h.op := by
  have hhd := Spine.mem_heads_at k b x z hd
  have hhas := h.orderly.has hr
  refine (gives_advances hstep (hhas hd hhd) hr).mono ?_
  rintro g hg ⟨y, hsplice, hnew⟩
  have hcheck : ((plan.rule step).check f hd.op).Answers () := by
    rw [Rule.apply, Inspect.answers_bind] at hg
    exact hg.choose_spec.1
  obtain ⟨hkind, hmarker⟩ := of_check (hr.exists_record hhd) hcheck
  have hnil : x = .nil := h.orderly.tidy.body_eq_nil hr (by rw [hkind]; rfl)
  have hdefined : hd.defined = [] := by
    rw [Node.defined, h.orderly.tidy.plain_at hr (by rw [hkind]; rfl),
      List.length_eq_zero_iff.1 ((hr.vars hhd).trans (by rw [hkind]; rfl))]
    rfl
  have hreplaces : f.Replaces g k b x z id y.heads := hsplice.replaces_id
  obtain ⟨htidy, -⟩ := Rule.tidy (plan.rule_ne_reallocation step) h.orderly.tidy hr hg
  have hsorted : g.Sorted := (Rule.gives_sorted_of_tidy (plan.rule_ne_reallocation step)
    h.orderly.tidy h.orderly.sorted hr).of_answers hg
  have hlayered : Layered g.code.heads := hreplaces.layered_of_advances hr
    (hr.code_eq ▸ h.orderly.layered) hhas (by rw [hkind]; rfl) hmarker hnil
    (Step.depth_le_of_mem hstep).1 hnew
  refine ⟨hnil, hdefined, _, hreplaces, ⟨htidy, hsorted, hlayered⟩, fun h' hh' early hearly hanswers => ?_⟩
  have hlate : step ∉ plan.steps.take n := fun hin => h.past hd (hr.code_eq ▸ hhd) step hin hcheck
  obtain ⟨hkind', hmarker'⟩ := of_check
    (Function.Represents.exists_record hreplaces.wellFormed (hreplaces.mem_new hh')) hanswers
  obtain ⟨htarget, -⟩ := (hnew h' hh').kernel (by rw [hkind']; rfl)
  rw [hmarker', Option.some.injEq] at htarget
  exact Step.source_ne_target (Step.pairwise_table _ _) hstep hlate hearly htarget

theorem settles : Greedy.Settles (· = .overflow) plan.stageRules fun f done => plan.Staged n f ∧
    ∀ h ∈ done, ∀ step ∈ plan.steps.take (n + 1), (plan.rule step).Declines f h.op where
  wellFormed h := h.1.orderly.tidy.wellFormed
  change := by
    rintro f k b hd x z hr ⟨hs, hdone⟩ _ hrule
    obtain ⟨step, hstep, rfl⟩ := List.mem_map.1 hrule
    refine (hs.change hr hstep).endsWith.mono ?_
    rintro g - ⟨rfl, hdefined, new, hg, horderly, hnew⟩
    refine ⟨id, new, hg, ⟨horderly, fun h hh early hearly => ?_⟩,
      List.forall_mem_append.2 ⟨fun h hh early hearly => ?_, hnew⟩⟩
    · rcases hg.cases hh with hh | ⟨h₁, hh₁, rfl⟩
      · exact hnew h hh early (List.take_subset_take_left _ (Nat.le_succ n) hearly)
      · refine hs.declines hr hg (by simpa [Code.heads] using hh₁) (by simp [hdefined]) ?_
        exact hs.past h₁ (hr.code_eq ▸ Spine.mem_heads_iff.2 (hh₁.imp_right .inr)) early hearly
    · obtain ⟨h₁, hh₁, rfl⟩ := List.mem_map.1 hh
      exact hs.declines hr hg (by simpa using Or.inl hh₁) (by simp [hdefined])
        (by simpa using hdone h₁ hh₁ early hearly)
  skip := by
    rintro f k b hd x z hr ⟨hs, hdone⟩ hdeclines
    refine ⟨hs, List.forall_mem_append.2 ⟨hdone, List.forall_mem_singleton.2 fun step hstep => ?_⟩⟩
    exact hdeclines _ (List.mem_map_of_mem (List.mem_of_mem_take hstep))

theorem converges (plan : KernelPlan) :
    Greedy.Converges (· = .overflow) plan.stageRules plan.steps.length plan.Staged where
  sweep n f _ h := settles.sweep ⟨h, by simp⟩
    (fun g hg => ⟨hg.1.orderly, hg.2⟩) (fun _ h => h.orderly.tidy.wellFormed)
    fun _ _ _ _ _ _ _ h hs => h.shed hs
  wellFormed _ h := h.orderly.tidy.wellFormed
  settled f h := .of_declines h.orderly.tidy.wellFormed
    (fun hr rule hrule => by
      obtain ⟨step, -, rfl⟩ := List.mem_map.1 hrule
      exact (Rule.gives_sorted_of_tidy (plan.rule_ne_reallocation step) h.orderly.tidy
        h.orderly.sorted hr).endsWith.mono fun _ _ _ => trivial)
    fun hd hh rule hrule => by
      obtain ⟨step, hstep, rfl⟩ := List.mem_map.1 hrule
      exact h.past hd hh step (by rwa [List.take_length])

end Staged

end KernelPlan

end KernelLowering
