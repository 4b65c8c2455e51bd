import KernelLowering.Proofs.Arena.Check
import KernelLowering.Proofs.Execution.Outlining
import KernelLowering.Proofs.Greedy
import KernelLowering.Proofs.Integrity.Moves
import Mathlib.Logic.Relation

namespace KernelLowering

namespace Function

/-- What can happen to a function at a time. -/
inductive Step : Function → Function → Prop
  | insert {f g : Function} {point : InsertionPoint} {kind : OpKind} {operands : List ValueId}
      {type : Option ValueType} {marker : Option KernelLowering.Stage} {op : OpId} (hpoint : f.Open point)
      (h : (Build.insert kind operands type marker).runOn f point = .ok (op, g)) : Step f g
  | move {f g : Function} {point : InsertionPoint} {op : OpId} (hlive : f.isLive op = .ok true)
      (hpoint : f.Open point) (hout : ∀ anchor ∈ point.anchor?, anchor ∉ f.subtree op)
      (h : (Build.place op).runOn f point = .ok ((), g)) : Step f g
  | replaceUses (f : Function) (old new : ValueId) : Step f (f.replaceUses old new)
  | replaceOp {f g : Function} {op : OpId} {new : Option ValueId} (h : f.replaceOp op new = .ok g) :
      Step f g
  | erase {f g : Function} {op : OpId} (h : f.erase op = .ok g) : Step f g
  | eraseDead {f g : Function} {count : Nat} (h : f.eraseDead = .ok (g, count)) : Step f g
  | rule {f g : Function} {rule : Rule} {op : OpId} (h : (rule.apply f op).Answers g) : Step f g
  | greedy {f g : Function} {rules : List Rule} {maxSweeps : Nat} {outcome : Greedy.Outcome}
      (h : (Greedy.run rules maxSweeps f).outcome = .ok (g, outcome)) : Step f g
  | outline {f g : Function} {p q : Program} {caller hint : String} {op : OpId}
      {marker : Option Stage} {outlined : Outlined} (hf : p.find? caller = some f)
      (h : (p.outline caller op hint marker).outcome = .ok (.ok (q, outlined)))
      (hg : q.find? caller = some g) : Step f g

/-- What a function can be: it was empty, came about by steps, or has been outlined of another. -/
inductive Reached : Function → Prop
  | empty (name : String) (arguments : List ValueType) : Reached (Function.empty name arguments)
  | step {f g : Function} (hf : Reached f) (h : Step f g) : Reached g
  | callee {f g : Function} {p q : Program} {caller hint : String} {op : OpId}
      {marker : Option Stage} {outlined : Outlined} (hreached : Reached f)
      (hf : p.find? caller = some f)
      (h : (p.outline caller op hint marker).outcome = .ok (.ok (q, outlined)))
      (hg : q.find? outlined.callee = some g) : Reached g

def held (f : Function) : List OpId := f.body ++ f.ops.toList.flatMap (·.region)

variable {f g : Function} {c : Code} {op : OpId}

theorem Intact.empty (name : String) (arguments : List ValueType) :
    (Function.empty name arguments).Intact :=
  ⟨(empty_represents name arguments).wellFormed, sealed_empty name arguments⟩

end Function

namespace Greedy

theorem keeps_intact (f : Function) (rules : List Rule) :
    Keeps (fun _ => True) (fun g => g.Intact ∧ f.Buries g) rules where
  wellFormed _ h := h.1.wellFormed
  sheds _ _ _ _ _ _ _ h hs := (Build.editing_intact f).erase h hs.erased
  rule rule _ g _ _ _ _ _ h hr := Ends.of_eq_ok fun r hrun g' hg => by
    subst hg
    have hstep := Rule.intact_of_answers h.1 hrun
    exact ⟨⟨hstep.1, h.2.trans hstep.2⟩, hstep.2.size⟩

end Greedy

namespace Outline

variable {f g : Function} {o : Operation} {op inner call : OpId} {name : String}
  {marker : Option KernelLowering.Stage}

theorem intact_callee (h : callee f o name marker = .ok (inner, g)) : g.Intact := by
  obtain ⟨types, -, h⟩ := Fault.bind_eq_ok.1 h
  have hedit := Build.editing_intact (Function.empty name types)
  have hbuild : Build.Keeps (fun g => g.Intact ∧ (Function.empty name types).Buries g) (do
      let op ← Build.insert o.kind (Function.empty name types).arguments none (marker <|> o.marker)
      discard Build.ret
      return op) :=
    hedit.keeps_insert.bind fun _ => (Build.Keeps.discard hedit.keeps_insert).bind fun _ => .pure _
  obtain ⟨⟨op, s⟩, hrun, h⟩ := Fault.bind_eq_ok.1 h
  cases h
  exact ((hbuild _ ⟨.empty name types, .refl _⟩ fun p hp => by cases hp).of_ok hrun).1.1

theorem intact_replaceByCall (hf : f.Intact) (h : replaceByCall f op o name = .ok (call, g)) :
    g.Intact ∧ f.Buries g := by
  have hedit := Build.editing_intact f
  have hbuild : Build.Ensures (fun g => g.Intact ∧ f.Buries g) (do
      let call ← Build.call name o.operands
      Build.erase op
      return call) :=
    hedit.keeps_insert.then fun call s hI hs => by
      rw [Build.ends_bind]
      exact (hedit.ensures_erase op s hI hs).mono fun _ _ h => h
  obtain ⟨⟨call', s⟩, hrun, h⟩ := Fault.bind_eq_ok.1 h
  cases h
  exact (hbuild _ ⟨hf, .refl f⟩ (Builder.sound_before f op)).of_ok hrun

end Outline

namespace Function

variable {f g : Function} {c : Code} {op : OpId}

theorem runOn_eq_ok {α : Type} {x : Build α} {point : InsertionPoint} {a : α}
    (h : x.runOn f point = .ok (a, g)) : ∃ point', x.run ⟨f, point⟩ = .ok (a, ⟨g, point'⟩) := by
  obtain ⟨⟨a', s⟩, hrun, h⟩ := Fault.bind_eq_ok.1 h
  cases h
  exact ⟨s.point, hrun⟩

theorem Intact.step (h : f.Intact) (hs : Step f g) : g.Intact ∧ f.Buries g := by
  have hedit := Build.editing_intact f
  have hfirst : f.Intact ∧ f.Buries f := ⟨h, .refl f⟩
  cases hs with
  | insert hpoint hrun =>
    obtain ⟨point', hrun⟩ := runOn_eq_ok hrun
    exact (hedit.insert (s := ⟨f, _⟩) hfirst hpoint.sound).of_ok hrun
  | move hlive hpoint hout hrun =>
    obtain ⟨point', hrun⟩ := runOn_eq_ok hrun
    rw [Build.run_place, Fault.map_eq_ok] at hrun
    obtain ⟨g', hg, he⟩ := hrun
    cases he
    exact ⟨h.placeAt hlive hpoint hout hg,
      (rewires_placeAt hg hpoint.sound : f.Rewires True _).buries⟩
  | replaceUses old new => exact hedit.replaceUses old new hfirst
  | replaceOp hrun => exact hedit.replaceOp hfirst hrun
  | erase hrun => exact hedit.erase hfirst hrun
  | eraseDead hrun =>
    obtain ⟨g', n, hg, hI⟩ := eraseDead_preserves
      (P := fun g => g.Intact ∧ f.Buries g) (fun _ h => h.1.wellFormed)
      (fun _ _ _ _ _ _ _ h hs => hedit.erase h hs.erased) hfirst
    rw [hrun, Except.ok.injEq, Prod.mk.injEq] at hg
    exact hg.1 ▸ hI
  | rule hrun => exact Rule.intact_of_answers h hrun
  | greedy hrun => exact ((Greedy.keeps_intact f _).run _ hfirst).of_ok hrun
  | outline hf hrun hg =>
    obtain ⟨o, inner, g', callee, -, -, -, -, hreplace, hfound, -⟩ :=
      Program.outline_eq_ok hf h.wellFormed hrun
    rw [hg, Option.some.injEq] at hfound
    exact hfound ▸ Outline.intact_replaceByCall h hreplace

theorem Reached.intact (h : f.Reached) : f.Intact := by
  induction h with
  | empty name arguments => exact .empty name arguments
  | step _ hs ih => exact (ih.step hs).1
  | callee _ hf hrun hg ih =>
    obtain ⟨o, inner, g', callee, -, -, -, hcallee, -, -, hfound⟩ :=
      Program.outline_eq_ok hf ih.wellFormed hrun
    rw [hg, Option.some.injEq] at hfound
    exact hfound ▸ Outline.intact_callee hcallee

theorem Intact.steps (h : f.Intact) (hs : Relation.ReflTransGen Step f g) :
    g.Intact ∧ f.Buries g := by
  induction hs with
  | refl => exact ⟨h, .refl f⟩
  | tail _ hs ih =>
    obtain ⟨hintact, hburies⟩ := ih.1.step hs
    exact ⟨hintact, ih.2.trans hburies⟩

theorem Places.count_held {parent : Option OpId} {x : Code} (h : f.Places parent x) (op : OpId) :
    x.roots.count op + (x.ops.flatMap f.regionOf).count op = x.ops.count op := by
  induction x generalizing parent with
  | nil => rfl
  | node hd body rest ihb ihr =>
    have hbody := ihb h.2.1
    have hrest := ihr h.2.2
    simp only [Code.roots, Code.ops, List.flatMap_cons, List.flatMap_append, List.count_append,
      List.count_cons, h.regionOf]
    omega

theorem Intact.perm_regions (h : f.Intact) :
    (f.ops.toList.flatMap (·.region)).Perm (f.code.ops.flatMap f.regionOf) := by
  have hr : f.Represents f.code := h.wellFormed
  have hall : f.ops.toList.flatMap (·.region) =
      ((List.range f.ops.size).map OpId.mk).flatMap f.regionOf := by
    rw [List.flatMap_def, List.flatMap_def, List.map_map]
    refine congrArg List.flatten (List.ext_getElem (by simp) fun i hi hi' => ?_)
    simp only [List.length_map, Array.length_toList] at hi
    simp [regionOf, op?, hi]
  have hsplit := List.filter_append_perm (· ∈ f.code.ops) ((List.range f.ops.size).map OpId.mk)
  have hlive : (((List.range f.ops.size).map OpId.mk).filter (· ∈ f.code.ops)).Perm f.code.ops := by
    refine (List.perm_ext_iff_of_nodup ?_ hr.nodup).2 fun op => ?_
    · exact (List.nodup_range.map fun a b he => by cases he; rfl).filter _
    · simp only [List.mem_filter, List.mem_map, List.mem_range, decide_eq_true_eq, and_iff_right_iff_imp]
      intro hop
      obtain ⟨o, ho⟩ := hr.places.exists_op hop
      exact ⟨op.index, (Array.getElem?_eq_some_iff.1 ho).1, rfl⟩
  have hdead : (((List.range f.ops.size).map OpId.mk).filter (fun op => !decide (op ∈ f.code.ops))).flatMap
      f.regionOf = [] := by
    refine List.flatMap_eq_nil_iff.2 fun op hop => ?_
    simp only [List.mem_filter, Bool.not_eq_true', decide_eq_false_iff_not] at hop
    cases ho : f.op? op with
    | none => simp [regionOf, ho]
    | some o =>
      have hclear := h.sealed.clear op o ho (Bool.eq_false_iff.2 fun hl => hop.2 (hr.live ho hl))
      simp [regionOf, ho, hclear]
  rw [hall]
  refine (hsplit.symm.flatMap_right _).trans ?_
  rw [List.flatMap_append, hdead, List.append_nil]
  exact hlive.flatMap_right _

theorem Intact.count_held (h : f.Intact) (op : OpId) : f.held.count op = f.code.ops.count op := by
  have hr : f.Represents f.code := h.wellFormed
  rw [held, List.count_append, h.perm_regions.count_eq, hr.body]
  exact hr.places.count_held op

/-- What the arenas record of nesting, of liveness and of definitions tells one story. -/
structure Coherent (f : Function) : Prop where
  walk : ∀ op, f.isLive op = .ok true ↔ op ∈ f.walk
  once : ∀ op, f.isLive op = .ok true → f.held.count op = 1
  held : ∀ op o, f.op? op = some o → o.live = true → ∃ ops, f.region o.parent = .ok ops ∧ op ∈ ops
  parent : ∀ op o p, f.op? op = some o → o.live = true → o.parent = some p → f.isLive p = .ok true
  erased : ∀ op o, f.op? op = some o → o.live = false → o.region = [] ∧ f.held.count op = 0
  result : ∀ v op, (∃ t, f.value? v = some ⟨t, .result op⟩) ↔
    ∃ o, f.op? op = some o ∧ o.result = some v
  var : ∀ v op i, (∃ t, f.value? v = some ⟨t, .inductionVar op i⟩) ↔
    ∃ o, f.op? op = some o ∧ o.inductionVars[i]? = some v

theorem WellFormed.isLive_iff_mem_walk (h : f.WellFormed) : f.isLive op = .ok true ↔ op ∈ f.walk := by
  have hr : f.Represents f.code := h
  rw [hr.walk_eq]
  refine ⟨fun hlive => ?_, hr.isLive_of_mem⟩
  obtain ⟨o, ho, hl⟩ := isLive_eq_ok.1 hlive
  exact hr.live ho hl

theorem WellFormed.held_by_parent (h : f.WellFormed) {o : Operation} (ho : f.op? op = some o)
    (hlive : o.live = true) : (∃ ops, f.region o.parent = .ok ops ∧ op ∈ ops) ∧
      ∀ p, o.parent = some p → f.isLive p = .ok true := by
  obtain ⟨k, b, hd, x, z, rfl, hc⟩ := h.exists_at (isLive_eq_ok.2 ⟨o, ho, hlive⟩)
  have hr : f.Represents (k.plug (b ++ .node hd x z)) := hc ▸ h
  rw [op_eq_ok.1 hr.record_at, Option.some.injEq] at ho
  subst ho
  exact ⟨⟨_, hr.holds.1.region, by simp [Code.roots]⟩,
    fun p hp => hr.isLive_of_mem (Spine.mem_ops_plug.2 (.inr (Spine.parent_mem_ops hp)))⟩

theorem Intact.records_agree (h : f.Intact) : f.Coherent := by
  have hr : f.Represents f.code := h.wellFormed
  have hwalk : ∀ op, f.isLive op = .ok true ↔ op ∈ f.walk := fun op =>
    h.wellFormed.isLive_iff_mem_walk
  refine ⟨hwalk, fun op hlive => ?_, fun op o ho hlive => (h.wellFormed.held_by_parent ho hlive).1,
    fun op o p ho hlive => (h.wellFormed.held_by_parent ho hlive).2 p, fun op o ho hdead => ?_,
    h.sealed.result, h.sealed.var⟩
  · rw [h.count_held]
    exact List.count_eq_one_of_mem hr.nodup (hr.walk_eq ▸ (hwalk op).1 hlive)
  · refine ⟨h.sealed.clear op o ho hdead, ?_⟩
    rw [h.count_held, List.count_eq_zero, ← hr.walk_eq, ← hwalk, isLive_eq_ok]
    rintro ⟨o', ho', hlive⟩
    rw [ho, Option.some.injEq] at ho'
    rw [← ho', hdead] at hlive
    cases hlive

theorem Reached.coherent (h : f.Reached) : f.Coherent ∧
    ∀ op, f.isLive op = .ok false → ∀ g, Relation.ReflTransGen Step f g → g.isLive op = .ok false :=
  ⟨h.intact.records_agree, fun op hdead _ hs => (h.intact.steps hs).2.dead op hdead⟩

section Example

def allocation : Function where
  name := "spill"
  ops := #[⟨.alloc, [], some ⟨0⟩, none, [], [], none, true⟩]
  values := #[⟨.buffer (.rowMajor [4] .float32 .l1), .result ⟨0⟩⟩]
  arity := 0
  body := [⟨0⟩]

def loopBeside : Function where
  name := "spill"
  ops := #[⟨.alloc, [], some ⟨0⟩, none, [], [], none, true⟩,
    ⟨.forLoop ⟨0, 4, 1, Int.one_pos⟩, [], none, none, [], [⟨1⟩], none, true⟩]
  values := #[⟨.buffer (.rowMajor [4] .float32 .l1), .result ⟨0⟩⟩, ⟨.index, .inductionVar ⟨1⟩ 0⟩]
  arity := 0
  body := [⟨1⟩, ⟨0⟩]

def loopAround : Function :=
  { loopBeside with
    ops := #[⟨.alloc, [], some ⟨0⟩, none, [], [], some ⟨1⟩, true⟩,
      ⟨.forLoop ⟨0, 4, 1, Int.one_pos⟩, [], none, none, [⟨0⟩], [⟨1⟩], none, true⟩]
    body := [⟨1⟩] }

theorem loopAround_reached : loopAround.Reached := by
  have hend : (Function.empty "spill" []).Open (.atEnd none) := by
    rintro _ ⟨⟩
  have hbefore : allocation.Open (.before ⟨0⟩) := by
    rintro _ ⟨⟩
    rfl
  have hinside : loopBeside.Open (.atEnd (some ⟨1⟩)) := by
    rintro _ ⟨⟩
    rfl
  have halloc : (Build.insert .alloc [] (some (.buffer (.rowMajor [4] .float32 .l1))) none).runOn
      (Function.empty "spill" []) (.atEnd none) = .ok (⟨0⟩, allocation) := rfl
  have hloop : (Build.insert (.forLoop ⟨0, 4, 1, Int.one_pos⟩) [] none none).runOn allocation
      (.before ⟨0⟩) = .ok (⟨1⟩, loopBeside) := rfl
  have hmove : (Build.place ⟨0⟩).runOn loopBeside (.atEnd (some ⟨1⟩)) = .ok ((), loopAround) := rfl
  exact (((Reached.empty "spill" []).step (.insert hend halloc)).step (.insert hbefore hloop)).step
    (.move rfl hinside (by decide) hmove)

theorem Reached.coherent_loopAround : loopAround.Reached ∧ loopAround.held.count ⟨0⟩ = 1 ∧
    ∃ g, loopAround.erase ⟨1⟩ = .ok g ∧ g.isLive ⟨0⟩ = .ok false ∧
      ∀ g', Relation.ReflTransGen Step g g' → g'.isLive ⟨0⟩ = .ok false := by
  refine ⟨loopAround_reached, (Reached.coherent loopAround_reached).1.once _ rfl, ?_⟩
  obtain ⟨g, hg, hdead⟩ : ∃ g, loopAround.erase ⟨1⟩ = .ok g ∧ g.isLive ⟨0⟩ = .ok false := ⟨_, rfl, rfl⟩
  exact ⟨g, hg, hdead, (Reached.coherent (loopAround_reached.step (.erase hg))).2 _ hdead⟩

end Example

end Function

end KernelLowering
