import KernelLowering.Program.Builder
import KernelLowering.Proofs.Arena.Cursor

namespace KernelLowering

def Operation.Clear (o : Operation) : Prop := o.live = false → o.region = []

structure Operation.Becomes (keeps : Prop) (o o' : Operation) : Prop where
  result : o'.result = o.result
  inductionVars : o'.inductionVars = o.inductionVars
  live : o'.live = true → o.live = true
  kept : keeps → o.live = true → o'.live = true
  clear : o.Clear → o'.Clear

namespace Operation.Becomes

variable {keeps : Prop} {o o' o'' : Operation}

theorem refl (o : Operation) : o.Becomes keeps o := ⟨rfl, rfl, id, fun _ => id, id⟩

theorem trans (h : o.Becomes keeps o') (h' : o'.Becomes keeps o'') : o.Becomes keeps o'' :=
  ⟨h'.result.trans h.result, h'.inductionVars.trans h.inductionVars, fun hl => h.live (h'.live hl),
    fun hk hl => h'.kept hk (h.kept hk hl), fun hc => h'.clear (h.clear hc)⟩

end Operation.Becomes

namespace Function

variable {f g : Function} {keeps : Prop} {op anchor : OpId} {v : ValueId} {parent : Option OpId}
  {ops : List OpId}

structure Rewires (keeps : Prop) (f g : Function) : Prop where
  values : g.values = f.values
  arity : g.arity = f.arity
  record : ∀ op, Option.Rel (Operation.Becomes keeps) (f.op? op) (g.op? op)

structure Sealed (f : Function) : Prop where
  clear : ∀ op o, f.op? op = some o → o.Clear
  argument : ∀ v i, (∃ t, f.value? v = some ⟨t, .argument i⟩) ↔ i < f.arity ∧ v = ⟨i⟩
  result : ∀ v op, (∃ t, f.value? v = some ⟨t, .result op⟩) ↔
    ∃ o, f.op? op = some o ∧ o.result = some v
  var : ∀ v op i, (∃ t, f.value? v = some ⟨t, .inductionVar op i⟩) ↔
    ∃ o, f.op? op = some o ∧ o.inductionVars[i]? = some v

structure Buries (f g : Function) : Prop where
  size : f.ops.size ≤ g.ops.size
  dead : ∀ op, f.isLive op = .ok false → g.isLive op = .ok false

def Spares (f g : Function) : Prop := ∀ op, f.isLive op = .ok true → g.isLive op = .ok true

theorem isLive_eq_ok {live : Bool} :
    f.isLive op = .ok live ↔ ∃ o, f.op? op = some o ∧ o.live = live := by
  simp only [isLive, Fault.map_eq_ok, op_eq_ok]

theorem Buries.refl (f : Function) : f.Buries f := ⟨Nat.le_refl _, fun _ h => h⟩

theorem Buries.trans {f₁ f₂ f₃ : Function} (h : f₁.Buries f₂) (h' : f₂.Buries f₃) : f₁.Buries f₃ :=
  ⟨h.size.trans h'.size, fun op ho => h'.dead op (h.dead op ho)⟩

theorem Spares.refl (f : Function) : f.Spares f := fun _ h => h

theorem Spares.trans {f₁ f₂ f₃ : Function} (h : f₁.Spares f₂) (h' : f₂.Spares f₃) : f₁.Spares f₃ :=
  fun op ho => h' op (h op ho)

namespace Rewires

theorem refl (f : Function) : f.Rewires keeps f :=
  ⟨rfl, rfl, fun op => by cases f.op? op <;> constructor; exact .refl _⟩

theorem forward (h : f.Rewires keeps g) {o : Operation} (ho : f.op? op = some o) :
    ∃ o', g.op? op = some o' ∧ o.Becomes keeps o' := by
  have hrel := h.record op
  rw [ho] at hrel
  cases hg : g.op? op with
  | none => simp [hg] at hrel
  | some o' => exact ⟨o', rfl, by simpa [hg] using hrel⟩

theorem backward (h : f.Rewires keeps g) {o' : Operation} (ho : g.op? op = some o') :
    ∃ o, f.op? op = some o ∧ o.Becomes keeps o' := by
  have hrel := h.record op
  rw [ho] at hrel
  cases hf : f.op? op with
  | none => simp [hf] at hrel
  | some o => exact ⟨o, rfl, by simpa [hf] using hrel⟩

theorem trans {f₁ f₂ f₃ : Function} (h : f₁.Rewires keeps f₂) (h' : f₂.Rewires keeps f₃) :
    f₁.Rewires keeps f₃ := by
  refine ⟨h'.values.trans h.values, h'.arity.trans h.arity, fun op => ?_⟩
  cases h₁ : f₁.op? op with
  | none =>
    cases h₃ : f₃.op? op with
    | none => exact .none
    | some o =>
      obtain ⟨o', ho', -⟩ := h'.backward h₃
      obtain ⟨o'', ho'', -⟩ := h.backward ho'
      rw [h₁] at ho''
      cases ho''
  | some o =>
    obtain ⟨o', ho', hbecomes⟩ := h.forward h₁
    obtain ⟨o'', ho'', hbecomes'⟩ := h'.forward ho'
    rw [ho'']
    exact .some (hbecomes.trans hbecomes')

theorem value? (h : f.Rewires keeps g) (v : ValueId) : g.value? v = f.value? v := by
  rw [Function.value?, Function.value?, h.values]

theorem buries (h : f.Rewires keeps g) : f.Buries g := by
  refine ⟨Nat.le_of_not_lt fun hlt => ?_, fun op hop => ?_⟩
  · have hop : f.op? ⟨g.ops.size⟩ = some f.ops[g.ops.size] := Array.getElem?_eq_getElem hlt
    obtain ⟨o, ho, -⟩ := h.forward hop
    exact Nat.lt_irrefl _ (Array.getElem?_eq_some_iff.1 ho).1
  obtain ⟨o, ho, hlive⟩ := isLive_eq_ok.1 hop
  obtain ⟨o', ho', hbecomes⟩ := h.forward ho
  refine isLive_eq_ok.2 ⟨o', ho', Bool.eq_false_iff.2 fun hl => ?_⟩
  rw [hbecomes.live hl] at hlive
  cases hlive

theorem spares (h : f.Rewires True g) : f.Spares g := by
  intro op hop
  obtain ⟨o, ho, hlive⟩ := isLive_eq_ok.1 hop
  obtain ⟨o', ho', hbecomes⟩ := h.forward ho
  exact isLive_eq_ok.2 ⟨o', ho', hbecomes.kept trivial hlive⟩

theorem sealed (h : f.Rewires keeps g) (hs : f.Sealed) : g.Sealed where
  clear op o ho := by
    obtain ⟨o', hf, hbecomes⟩ := h.backward ho
    exact hbecomes.clear (hs.clear op o' hf)
  argument v i := by
    rw [h.value?, h.arity]
    exact hs.argument v i
  result v op := by
    rw [h.value?, hs.result]
    constructor
    · rintro ⟨o, ho, hres⟩
      obtain ⟨o', ho', hbecomes⟩ := h.forward ho
      exact ⟨o', ho', hbecomes.result.trans hres⟩
    · rintro ⟨o', ho', hres⟩
      obtain ⟨o, ho, hbecomes⟩ := h.backward ho'
      exact ⟨o, ho, hbecomes.result.symm.trans hres⟩
  var v op i := by
    rw [h.value?, hs.var]
    constructor
    · rintro ⟨o, ho, hvar⟩
      obtain ⟨o', ho', hbecomes⟩ := h.forward ho
      exact ⟨o', ho', hbecomes.inductionVars ▸ hvar⟩
    · rintro ⟨o', ho', hvar⟩
      obtain ⟨o, ho, hbecomes⟩ := h.backward ho'
      exact ⟨o, ho, hbecomes.inductionVars ▸ hvar⟩

end Rewires

theorem rewires_modifyOp {change : Operation → Operation}
    (h : ∀ o, f.op? op = some o → o.Becomes keeps (change o)) :
    f.Rewires keeps (f.modifyOp op change) := by
  refine ⟨rfl, rfl, fun other => ?_⟩
  rw [op?_modifyOp]
  split
  · next he =>
    subst he
    cases ho : f.op? op with
    | none => exact .none
    | some o => exact .some (h o ho)
  · exact (Rewires.refl f).record other

theorem rewires_foldl_modifyOp (change : Operation → Operation)
    (h : ∀ o : Operation, o.Becomes keeps (change o)) (ops : List OpId) :
    f.Rewires keeps (ops.foldl (fun f op => f.modifyOp op change) f) := by
  induction ops generalizing f with
  | nil => exact .refl f
  | cons op ops ih => exact (rewires_modifyOp fun o _ => h o).trans ih

theorem rewires_setRegion (h : ∀ p o, parent = some p → f.op? p = some o → o.Clear →
    o.live = false → ops = []) : f.Rewires keeps (f.setRegion parent ops) := by
  cases parent with
  | none => exact ⟨rfl, rfl, (Rewires.refl f).record⟩
  | some p =>
    exact rewires_modifyOp fun o ho =>
      ⟨rfl, rfl, id, fun _ => id, fun hclear hlive => h p o rfl ho hclear hlive⟩

theorem rewires_setParent : f.Rewires keeps (f.setParent op parent) :=
  rewires_modifyOp fun _ _ => ⟨rfl, rfl, id, fun _ => id, id⟩

theorem rewires_replaceUses (f : Function) (old new : ValueId) :
    f.Rewires keeps (f.replaceUses old new) :=
  rewires_foldl_modifyOp (.retarget old new) (fun _ => ⟨rfl, rfl, id, fun _ => id, id⟩) _

theorem region_of_clear (hops : f.region parent = .ok ops) {p : OpId} {o : Operation}
    (hp : parent = some p) (ho : f.op? p = some o) (hclear : o.Clear) (hlive : o.live = false) :
    ops = [] := by
  subst hp
  have hregion : f.region (some p) = .ok o.region := by
    show (·.region) <$> f.op p = _
    rw [op_eq_ok.2 ho]
    rfl
  rw [hregion, Except.ok.injEq] at hops
  rw [← hops, hclear hlive]

theorem rewires_detach (h : f.detach op = .ok g) : f.Rewires keeps g := by
  obtain ⟨o, -, h⟩ := Fault.bind_eq_ok.1 h
  obtain ⟨ops, hops, h⟩ := Fault.bind_eq_ok.1 h
  cases h
  refine rewires_setRegion fun p o hp ho hclear hlive => ?_
  rw [region_of_clear hops hp ho hclear hlive, List.filter_nil]

theorem rewires_placeBefore (h : f.placeBefore op anchor = .ok g) : f.Rewires keeps g := by
  obtain ⟨f₁, hdetach, h⟩ := Fault.bind_eq_ok.1 h
  obtain ⟨o, -, h⟩ := Fault.bind_eq_ok.1 h
  obtain ⟨ops, hops, h⟩ := Fault.bind_eq_ok.1 h
  obtain ⟨ops', hops', h⟩ := Fault.bind_eq_ok.1 h
  cases h
  refine (rewires_detach hdetach).trans ((rewires_setRegion fun p o hp ho hclear hlive => ?_).trans
    rewires_setParent)
  rw [region_of_clear hops hp ho hclear hlive] at hops'
  cases hops'

theorem rewires_placeAtEnd (h : f.placeAtEnd op parent = .ok g)
    (hparent : ∀ p, parent = some p → f.isLive p = .ok true) : f.Rewires keeps g := by
  obtain ⟨f₁, hdetach, h⟩ := Fault.bind_eq_ok.1 h
  obtain ⟨ops, hops, h⟩ := Fault.bind_eq_ok.1 h
  cases h
  refine (rewires_detach hdetach).trans ((rewires_setRegion fun p o hp ho _ hlive => ?_).trans
    rewires_setParent)
  obtain ⟨o', ho', hlive'⟩ := isLive_eq_ok.1 ((rewires_detach hdetach).spares p (hparent p hp))
  rw [ho, Option.some.injEq] at ho'
  rw [ho', hlive'] at hlive
  cases hlive

theorem rewires_erase (h : f.erase op = .ok g) : f.Rewires False g := by
  obtain ⟨f₁, hdetach, h⟩ := Fault.bind_eq_ok.1 h
  cases h
  refine (rewires_detach hdetach).trans
    (rewires_foldl_modifyOp (fun o => { o with live := false, region := [] })
      (fun o => ⟨rfl, rfl, fun hlive => ?_, False.elim, fun _ _ => rfl⟩) _)
  cases hlive

section Insertion

variable {kind : OpKind} {operands : List ValueId} {type : Option ValueType} {marker : Option Stage}

theorem isLive_addOp_of_eq_ok {live : Bool} (h : f.isLive op = .ok live) :
    (f.addOp kind operands type marker).1.isLive op = .ok live := by
  obtain ⟨o, ho, hlive⟩ := isLive_eq_ok.1 h
  exact isLive_eq_ok.2 ⟨o, (op?_addOp_of_lt (Array.getElem?_eq_some_iff.1 ho).1).trans ho, hlive⟩

theorem buries_addOp : f.Buries (f.addOp kind operands type marker).1 :=
  ⟨(grows_addOp f kind operands type marker).ops, fun _ h => isLive_addOp_of_eq_ok h⟩

theorem isLive_addOp_self : (f.addOp kind operands type marker).1.isLive ⟨f.ops.size⟩ = .ok true :=
  isLive_eq_ok.2 ⟨_, op?_addOp_self f kind operands type marker, rfl⟩

theorem op?_addOp_eq_some {o : Operation} :
    (f.addOp kind operands type marker).1.op? op = some o ↔ f.op? op = some o ∨
      op = ⟨f.ops.size⟩ ∧ o = (f.nextNode kind operands type marker).record none [] := by
  by_cases he : op = ⟨f.ops.size⟩
  · subst he
    rw [op?_addOp_self, show f.op? ⟨f.ops.size⟩ = none from Array.getElem?_eq_none (Nat.le_refl _)]
    simp [eq_comm]
  · rw [op?_addOp_of_ne he]
    simp [he]

theorem sealed_addOp (hs : f.Sealed) : (f.addOp kind operands type marker).1.Sealed where
  clear op o ho := by
    rcases op?_addOp_eq_some.1 ho with ho | ⟨-, rfl⟩
    · exact hs.clear op o ho
    · exact fun h => by cases h
  argument v i := by
    simp only [value?_addOp_eq_some, Value.mk.injEq, reduceCtorEq, and_false, or_false, exists_false]
    exact hs.argument v i
  result v op := by
    simp only [value?_addOp_eq_some, op?_addOp_eq_some]
    constructor
    · rintro ⟨t, hv | ⟨t', rfl, hv, he⟩ | ⟨_, -, -, he⟩⟩
      · obtain ⟨o, ho, hres⟩ := (hs.result v op).1 ⟨t, hv⟩
        exact ⟨o, .inl ho, hres⟩
      · cases he
        refine ⟨_, .inr ⟨rfl, rfl⟩, ?_⟩
        obtain ⟨i⟩ := v
        simp_all [Node.record, nextNode]
      · cases he
    · rintro ⟨o, ho | ⟨rfl, rfl⟩, hres⟩
      · obtain ⟨t, hv⟩ := (hs.result v op).2 ⟨o, ho, hres⟩
        exact ⟨t, .inl hv⟩
      · simp only [Node.record, nextNode, Option.map_map, Option.map_eq_some_iff] at hres
        obtain ⟨t, rfl, rfl⟩ := hres
        exact ⟨t, .inr (.inl ⟨t, rfl, rfl, rfl⟩)⟩
  var v op i := by
    simp only [value?_addOp_eq_some, op?_addOp_eq_some]
    constructor
    · rintro ⟨t, hv | ⟨_, -, -, he⟩ | ⟨j, hj, hv, he⟩⟩
      · obtain ⟨o, ho, hvar⟩ := (hs.var v op i).1 ⟨t, hv⟩
        exact ⟨o, .inl ho, hvar⟩
      · cases he
      · cases he
        refine ⟨_, .inr ⟨rfl, rfl⟩, ?_⟩
        obtain ⟨n⟩ := v
        simp_all [Node.record, nextNode]
    · rintro ⟨o, ho | ⟨rfl, rfl⟩, hvar⟩
      · obtain ⟨t, hv⟩ := (hs.var v op i).2 ⟨o, ho, hvar⟩
        exact ⟨t, .inl hv⟩
      · simp only [Node.record, nextNode, List.getElem?_map, Option.map_eq_some_iff,
          List.getElem?_eq_some_iff, List.length_range, List.getElem_range] at hvar
        obtain ⟨j, ⟨hj, rfl⟩, rfl⟩ := hvar
        exact ⟨.index, .inr (.inr ⟨_, hj, rfl, rfl⟩)⟩

end Insertion

theorem sealed_empty (name : String) (arguments : List ValueType) :
    (Function.empty name arguments).Sealed where
  clear op o ho := by simp [op?, empty] at ho
  argument v i := by
    obtain ⟨n⟩ := v
    simp only [value?, empty, List.getElem?_toArray, List.getElem?_map, Option.map_eq_some_iff,
      List.getElem?_zipIdx, Nat.zero_add, ValueId.mk.injEq]
    constructor
    · rintro ⟨t, ⟨t', j⟩, ⟨t'', ht, he⟩, he'⟩
      cases he
      cases he'
      exact ⟨(List.getElem?_eq_some_iff.1 ht).1, rfl⟩
    · rintro ⟨hi, rfl⟩
      exact ⟨arguments[n], (arguments[n], n), ⟨arguments[n], by simp [hi], rfl⟩, rfl⟩
  result v op := by simp [value?, op?, empty]
  var v op i := by simp [value?, op?, empty]

end Function

end KernelLowering
