import KernelLowering.Proofs.Arena.DeadCode
import KernelLowering.Proofs.Folding.Loops
import KernelLowering.Proofs.Integrity.Rules

namespace KernelLowering

def InsertionPoint.anchor? : InsertionPoint → Option OpId
  | .before anchor => some anchor
  | .atEnd parent => parent

def Function.Open (f : Function) (point : InsertionPoint) : Prop :=
  ∀ anchor ∈ point.anchor?, f.isLive anchor = .ok true

theorem Function.WellFormed.exists_cursor {f : Function} {point : InsertionPoint} (h : f.WellFormed)
    (hpoint : f.Open point) : ∃ k b z, Cursor ⟨f, point⟩ k b z ∧ f.code = Spine.plug k (b ++ z) := by
  cases point with
  | before anchor =>
    obtain ⟨k, b, hd, x, z, rfl, hc⟩ := h.exists_at (hpoint anchor rfl)
    exact ⟨k, b, .node hd x z, ⟨hc ▸ h, rfl⟩, hc⟩
  | atEnd parent =>
    cases parent with
    | none =>
      have hc : f.code = Spine.plug .body (f.code ++ .nil) := (Code.append_nil _).symm
      exact ⟨.body, f.code, .nil, ⟨hc ▸ h, rfl⟩, hc⟩
    | some parent =>
      obtain ⟨k, b, hd, x, z, rfl, hc⟩ := h.exists_at (hpoint parent rfl)
      have hc' : f.code = (Spine.inside hd b z k).plug (x ++ .nil) := by
        rw [Code.append_nil, hc, Spine.plug]
      exact ⟨.inside hd b z k, x, .nil, ⟨hc' ▸ h, rfl⟩, hc'⟩

theorem Function.Open.sound {f : Function} {point : InsertionPoint} (h : f.Open point) :
    Builder.Sound ⟨f, point⟩ := by
  intro p hp
  subst hp
  exact h p rfl

namespace Function

variable {f g : Function} {op anchor : OpId} {ops : List OpId} {parent : Option OpId}

structure Intact (f : Function) : Prop where
  wellFormed : f.WellFormed
  sealed : f.Sealed

theorem mem_of_insertBefore {xs ys : List OpId} (h : insertBefore op anchor xs = some ys) :
    anchor ∈ xs := by
  induction xs generalizing ys with
  | nil => simp [insertBefore] at h
  | cons x xs ih =>
    unfold insertBefore at h
    split at h
    · rename_i he
      exact he ▸ List.mem_cons_self
    · obtain ⟨zs, hz, -⟩ := Option.map_eq_some_iff.1 h
      exact List.mem_cons_of_mem x (ih hz)

theorem Represents.isLive_of_mem {c : Code} (hr : f.Represents c) (hop : op ∈ c.ops) :
    f.isLive op = .ok true := isLive_eq_ok.2 (hr.places.live hop)

theorem Represents.region_subset {c : Code} (hr : f.Represents c) (hop : op ∈ c.ops) {o : Operation}
    (ho : f.op? op = some o) : o.region ⊆ c.ops := by
  obtain ⟨k, b, hd, x, z, rfl, rfl⟩ := Code.exists_spine hop
  rw [op_eq_ok.1 hr.record_at, Option.some.injEq] at ho
  subst ho
  intro op' hop'
  refine Spine.mem_ops_plug.2 (.inl ?_)
  simp only [Code.ops_append, Code.ops, List.mem_append, List.mem_cons]
  exact .inr (.inr (.inl (Code.mem_ops_of_mem_roots hop')))

theorem modifyOp_eq_self {change : Operation → Operation}
    (h : ∀ o, f.op? op = some o → change o = o) : f.modifyOp op change = f := by
  have hops : f.ops.modify op.index change = f.ops := by
    refine Array.ext (by simp) fun i hi hi' => ?_
    rw [Array.getElem_modify]
    split
    · next he =>
      subst he
      exact h _ (Array.getElem?_eq_getElem hi')
    · rfl
  rw [modifyOp, hops]

theorem setRegion_eq_self (hops : f.region parent = .ok ops) : f.setRegion parent ops = f := by
  cases parent with
  | none =>
    cases hops
    rfl
  | some p =>
    obtain ⟨o, ho, rfl⟩ := Fault.map_eq_ok.1 hops
    refine modifyOp_eq_self fun o' ho' => ?_
    rw [op_eq_ok.1 ho, Option.some.injEq] at ho'
    rw [ho']

namespace Intact

theorem isLive_of_mem_region (h : f.Intact) (hops : f.region parent = .ok ops) (hop : op ∈ ops) :
    f.isLive op = .ok true := by
  have hr : f.Represents f.code := h.wellFormed
  refine hr.isLive_of_mem ?_
  cases parent with
  | none =>
    cases hops
    exact Code.mem_ops_of_mem_roots (hr.body ▸ hop)
  | some p =>
    obtain ⟨o, ho, rfl⟩ := Fault.map_eq_ok.1 hops
    rw [op_eq_ok] at ho
    cases hlive : o.live with
    | false =>
      rw [h.sealed.clear p o ho hlive] at hop
      cases hop
    | true => exact hr.region_subset (hr.live ho hlive) ho hop

theorem replaceUses (h : f.Intact) (old new : ValueId) : (f.replaceUses old new).Intact :=
  ⟨(Represents.replaceUses h.wellFormed old new).wellFormed,
    (rewires_replaceUses f old new : f.Rewires True _).sealed h.sealed⟩

theorem erase_of_dead (h : f.Intact) (hdead : f.isLive op = .ok false) (hg : f.erase op = .ok g) :
    g = f := by
  obtain ⟨o, ho, hlive⟩ := isLive_eq_ok.1 hdead
  have hregion : o.region = [] := h.sealed.clear op o ho hlive
  obtain ⟨f₁, hdetach, hg⟩ := Fault.bind_eq_ok.1 hg
  obtain ⟨o', ho', hdetach⟩ := Fault.bind_eq_ok.1 hdetach
  rw [op_eq_ok.2 ho, Except.ok.injEq] at ho'
  subst ho'
  obtain ⟨ops, hops, hdetach⟩ := Fault.bind_eq_ok.1 hdetach
  have hfilter : ops.filter (· ≠ op) = ops := by
    refine List.filter_eq_self.2 fun op' hop' => decide_eq_true ?_
    rintro rfl
    rw [h.isLive_of_mem_region hops hop'] at hdead
    cases hdead
  rw [hfilter, setRegion_eq_self hops] at hdetach
  cases hdetach
  have hsubtree : f.subtree op = [op] := by
    rw [subtree, regionOf, ho, Option.map_some, Option.getD_some, hregion, unfold_nil]
    rfl
  rw [hsubtree, List.foldl_cons, List.foldl_nil, retire, modifyOp_eq_self] at hg
  · exact (Except.ok.inj hg).symm
  · intro o' ho'
    rw [ho, Option.some.injEq] at ho'
    rw [← ho']
    obtain ⟨⟩ := o
    simp_all

theorem erase (h : f.Intact) (hg : f.erase op = .ok g) : g.Intact := by
  refine ⟨?_, (rewires_erase hg).sealed h.sealed⟩
  obtain ⟨live, hlive⟩ : ∃ live, f.isLive op = .ok live := by
    obtain ⟨f₁, hdetach, -⟩ := Fault.bind_eq_ok.1 hg
    obtain ⟨o, ho, -⟩ := Fault.bind_eq_ok.1 hdetach
    exact ⟨o.live, isLive_eq_ok.2 ⟨o, op_eq_ok.1 ho, rfl⟩⟩
  cases live with
  | false => exact h.erase_of_dead hlive hg ▸ h.wellFormed
  | true =>
    obtain ⟨k, b, hd, x, z, rfl, hc⟩ := h.wellFormed.exists_at hlive
    have hr : f.Represents (k.plug (b ++ .node hd x z)) := hc ▸ h.wellFormed
    rw [hr.erase_eq, Except.ok.injEq] at hg
    exact hg ▸ hr.without.wellFormed

end Intact

end Function

namespace Build

variable {s s' : Builder} {kind : OpKind} {operands : List ValueId} {type : Option ValueType}
  {marker : Option Stage} {op : OpId}

theorem open_of_insert (hf : s.function.Intact) (hs : s.Sound)
    (h : (insert kind operands type marker).run s = .ok (op, s')) : s.function.Open s.point := by
  obtain ⟨f, point⟩ := s
  cases point with
  | atEnd parent =>
    rintro p hp
    cases hp
    exact hs p rfl
  | before anchor =>
    rintro _ ⟨⟩
    rw [run_insert, Fault.map_eq_ok] at h
    obtain ⟨g, hg, -⟩ := h
    obtain ⟨f₁, hdetach, hg⟩ := Fault.bind_eq_ok.1 hg
    rw [Function.Represents.detach_addOp hf.wellFormed, Except.ok.injEq] at hdetach
    subst hdetach
    obtain ⟨o, ho, hg⟩ := Fault.bind_eq_ok.1 hg
    obtain ⟨ops, hops, hg⟩ := Fault.bind_eq_ok.1 hg
    obtain ⟨ops', hops', -⟩ := Fault.bind_eq_ok.1 hg
    have hmem := Function.mem_of_insertBefore (Fault.require_eq_ok.1 hops')
    suffices hregion : f.region o.parent = .ok ops from hf.isLive_of_mem_region hregion hmem
    cases hparent : o.parent with
    | none =>
      rw [hparent] at hops
      exact hops
    | some p =>
      rw [hparent] at hops
      obtain ⟨o', ho', rfl⟩ := Fault.map_eq_ok.1 hops
      rcases Function.op?_addOp_eq_some.1 (Function.op_eq_ok.1 ho') with ho' | ⟨rfl, rfl⟩
      · exact Fault.map_eq_ok.2 ⟨o', Function.op_eq_ok.2 ho', rfl⟩
      · cases hmem

theorem intact_insert (hf : s.function.Intact) (hs : s.Sound)
    (h : (insert kind operands type marker).run s = .ok (op, s')) : s'.function.Intact := by
  obtain ⟨-, -, hrewires⟩ := rewires_insert h hs
  refine ⟨?_, hrewires.sealed (Function.sealed_addOp hf.sealed)⟩
  obtain ⟨k, b, z, hcursor, -⟩ := hf.wellFormed.exists_cursor (open_of_insert hf hs h)
  exact ((hcursor.yields_insert (p := True) kind operands type marker).of_ok h).2.cursor.represents.wellFormed

theorem editing_intact (f : Function) : Editing fun g => g.Intact ∧ f.Buries g where
  insert hI hs := Ends.of_eq_ok fun r hr => by
    obtain ⟨op, s'⟩ := r
    obtain ⟨-, -, hrewires⟩ := rewires_insert hr hs
    exact ⟨intact_insert hI.1 hs hr, hI.2.trans (Function.buries_addOp.trans hrewires.buries)⟩
  replaceUses old new hI := ⟨hI.1.replaceUses old new,
    hI.2.trans (Function.rewires_replaceUses _ old new : Function.Rewires True _ _).buries⟩
  erase hI hg := ⟨hI.1.erase hg, hI.2.trans (Function.rewires_erase hg).buries⟩

theorem editing_sealed (f : Function) : Editing fun g => g.Sealed ∧ f.Buries g where
  insert hI hs := Ends.of_eq_ok fun r hr => by
    obtain ⟨op, s'⟩ := r
    obtain ⟨-, -, hrewires⟩ := rewires_insert hr hs
    exact ⟨hrewires.sealed (Function.sealed_addOp hI.1),
      hI.2.trans (Function.buries_addOp.trans hrewires.buries)⟩
  replaceUses old new hI :=
    have hrewires : Function.Rewires True _ _ := Function.rewires_replaceUses _ old new
    ⟨hrewires.sealed hI.1, hI.2.trans hrewires.buries⟩
  erase hI hg := ⟨(Function.rewires_erase hg).sealed hI.1, hI.2.trans (Function.rewires_erase hg).buries⟩

theorem keeps_place_sealed (f : Function) (op : OpId) :
    Keeps (fun g => g.Sealed ∧ f.Buries g) (place op) := by
  intro s hI hs
  rw [run_place, Ends.map_iff]
  refine Ends.of_eq_ok fun g hg => ?_
  have hrewires : s.function.Rewires True g := Function.rewires_placeAt hg hs
  exact ⟨⟨hrewires.sealed hI.1, hI.2.trans hrewires.buries⟩,
    fun p hp => hrewires.spares p (hs p hp), hrewires.spares⟩

end Build

theorem Rule.intact_of_answers {rule : Rule} {f g : Function} {op : OpId} (h : f.Intact)
    (hg : (rule.apply f op).Answers g) : g.Intact ∧ f.Buries g := by
  rw [apply, Inspect.answers_bind] at hg
  obtain ⟨⟨⟩, hcheck, hg⟩ := hg
  rw [Inspect.answers_lift] at hg
  have hedit := Build.editing_intact f
  have hfirst : f.Intact ∧ f.Buries f := ⟨h, .refl f⟩
  by_cases hbody : rule = .trivialLoops ∧ f.isLive op = .ok true
  · obtain ⟨rfl, hlive⟩ := hbody
    obtain ⟨k, b, hd, x, z, rfl, hc⟩ := h.wellFormed.exists_at hlive
    have hr : f.Represents (k.plug (b ++ .node hd x z)) := hc ▸ h.wellFormed
    obtain ⟨ρ, y, -, hrep, -⟩ := (TrivialLoops.yields_perform hr).of_ok hg
    obtain ⟨hsealed, hburies⟩ := (ends_performAt (Build.editing_sealed f) hd.op ⟨h.sealed, .refl f⟩
      .trivialLoops fun _ _ _ r _ => Build.keeps_place_sealed f r).of_ok hg
    exact ⟨⟨hrep.wellFormed, hsealed⟩, hburies⟩
  · refine (ends_performAt hedit op hfirst rule fun hrule o ho r hr => ?_).of_ok hg
    have hdead : o.live = false := by
      cases hlive : o.live with
      | false => rfl
      | true => exact (hbody ⟨hrule, Function.isLive_eq_ok.2 ⟨o, Function.op_eq_ok.1 ho, hlive⟩⟩).elim
    rw [h.sealed.clear op o (Function.op_eq_ok.1 ho) hdead] at hr
    cases hr

end KernelLowering
