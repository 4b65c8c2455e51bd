import KernelLowering.Program.Builder
import KernelLowering.Proofs.Arena.Edits
import KernelLowering.Proofs.Yields

namespace KernelLowering

structure Function.Grows (f g : Function) : Prop where
  name : g.name = f.name
  arity : g.arity = f.arity
  ops : f.ops.size ≤ g.ops.size
  values : f.values.size ≤ g.values.size
  value : ∀ {v a}, f.value? v = some a → g.value? v = some a

namespace Function

variable {f g : Function}

theorem Grows.refl (f : Function) : f.Grows f := ⟨rfl, rfl, Nat.le_refl _, Nat.le_refl _, id⟩

theorem Grows.trans {f₁ f₂ f₃ : Function} (h : f₁.Grows f₂) (h' : f₂.Grows f₃) : f₁.Grows f₃ :=
  ⟨h'.name.trans h.name, h'.arity.trans h.arity, h.ops.trans h'.ops, h.values.trans h'.values,
    fun hv => h'.value (h.value hv)⟩

theorem SameValues.grows (h : f.SameValues g) : f.Grows g :=
  ⟨h.name, h.arity, h.size.ge, by rw [h.values], fun hv => by rw [h.value?, hv]⟩

theorem grows_addOp (f : Function) (kind : OpKind) (operands : List ValueId)
    (type : Option ValueType) (marker : Option Stage) :
    f.Grows (f.addOp kind operands type marker).1 :=
  ⟨rfl, rfl, by simp [addOp], by simp [addOp], fun hv => value?_addOp_eq_some.2 (.inl hv)⟩

theorem Grows.bufferType? (h : f.Grows g) {v : ValueId} {t : Option BufferType}
    (hv : f.bufferType? v = .ok t) : g.bufferType? v = .ok t := by
  obtain ⟨a, ha, rfl⟩ := Fault.map_eq_ok.1 hv
  exact Fault.map_eq_ok.2 ⟨a, value_eq_ok.2 (h.value (value_eq_ok.1 ha)), rfl⟩

theorem Grows.bufferType?_of_lt (h : f.Grows g) {v : ValueId} (hv : v.index < f.values.size) :
    g.bufferType? v = f.bufferType? v := by
  have ha : f.value? v = some f.values[v.index] := Array.getElem?_eq_getElem hv
  rw [Function.bufferType?, Function.bufferType?, value_eq_ok.2 ha, value_eq_ok.2 (h.value ha)]

theorem Represents.bufferType?_eq {c : Code} (h : f.Represents c) {hd : Node} {v : ValueId}
    {t : ValueType} (hm : hd ∈ c.heads) (hr : hd.result = some (v, t)) :
    f.bufferType? v = .ok t.buffer? := by
  rw [bufferType?, value_eq_ok.2 (h.result hm hr)]
  rfl

end Function

namespace Build

variable {α β : Type} {p : Prop} {s : Builder}

@[simp] theorem yields_pure {a : α} {q : α × Builder → Prop} :
    Yields p ((pure a : Build α).run s) q ↔ q (a, s) := Iff.rfl

@[simp] theorem yields_bind {x : Build α} {next : α → Build β} {q : β × Builder → Prop} :
    Yields p ((x >>= next).run s) q ↔
      Yields p (x.run s) fun r => Yields p ((next r.1).run r.2) q := by
  rw [StateT.run_bind, Yields.bind_iff]

@[simp] theorem yields_map {x : Build α} {g : α → β} {q : β × Builder → Prop} :
    Yields p ((g <$> x).run s) q ↔ Yields p (x.run s) fun r => q (g r.1, r.2) := by
  rw [StateT.run_map, Yields.map_iff]

@[simp] theorem yields_discard {x : Build α} {q : Unit × Builder → Prop} :
    Yields p ((discard x).run s) q ↔ Yields p (x.run s) fun r => q ((), r.2) :=
  yields_map (g := fun _ => ())

@[simp] theorem yields_lift {x : Except Fault α} {q : α × Builder → Prop} :
    Yields p ((liftM x : Build α).run s) q ↔ Yields p x fun a => q (a, s) := by
  rw [show (liftM x : Build α).run s = x >>= fun a => pure (a, s) from StateT.run_monadLift x s,
    Yields.bind_iff]
  rfl

@[simp] theorem yields_function {q : Function × Builder → Prop} :
    Yields p (Build.function.run s) q ↔ q (s.function, s) := Iff.rfl

@[simp] theorem yields_point {q : InsertionPoint × Builder → Prop} :
    Yields p (Build.point.run s) q ↔ q (s.point, s) := Iff.rfl

@[simp] theorem yields_setPoint {point : InsertionPoint} {q : Unit × Builder → Prop} :
    Yields p ((Build.setPoint point).run s) q ↔ q ((), { s with point := point }) := Iff.rfl

theorem run_bind_eq_ok {x : Build α} {next : α → Build β} {r : β × Builder} :
    (x >>= next).run s = .ok r ↔ ∃ a s', x.run s = .ok (a, s') ∧ (next a).run s' = .ok r := by
  rw [StateT.run_bind, Fault.bind_eq_ok, Prod.exists]

theorem run_lift_eq_ok {x : Except Fault α} {a : α} {s' : Builder} :
    (liftM x : Build α).run s = .ok (a, s') ↔ x = .ok a ∧ s' = s := by
  rw [show (liftM x : Build α).run s = x >>= fun a => pure (a, s) from StateT.run_monadLift x s,
    Fault.bind_eq_ok]
  constructor
  · rintro ⟨a', rfl, h⟩
    cases h
    exact ⟨rfl, rfl⟩
  · rintro ⟨rfl, rfl⟩
    exact ⟨a, rfl, rfl⟩

theorem run_function_eq_ok {f : Function} {s' : Builder} :
    Build.function.run s = .ok (f, s') ↔ f = s.function ∧ s' = s := by
  show (Except.ok (s.function, s) : Except Fault (Function × Builder)) = _ ↔ _
  simp [eq_comm]

theorem yields_edit {change : Function → Except Fault Function} {q : Unit × Builder → Prop} :
    Yields p ((Build.edit change).run s) q ↔
      Yields p (change s.function) fun f => q ((), { s with function := f }) := by
  simp [Build.edit]

theorem yields_runOn {x : Build α} {f : Function} {point : InsertionPoint}
    {q : α × Function → Prop} :
    Yields p (x.runOn f point) q ↔ Yields p (x.run ⟨f, point⟩) fun r => q (r.1, r.2.function) := by
  rw [Build.runOn, Yields.bind_iff]
  rfl

end Build

def InsertionPoint.Faces (point : InsertionPoint) (k : Spine) : Code → Prop
  | .nil => point = .atEnd k.parent
  | .node h _ _ => point = .before h.op

structure Cursor (s : Builder) (k : Spine) (b z : Code) : Prop where
  represents : s.function.Represents (k.plug (b ++ z))
  faces : s.point.Faces k z

namespace Cursor

variable {s : Builder} {k : Spine} {b z : Code} {v : Prop}

section Insert

variable {kind : OpKind} {operands : List ValueId} {type : Option ValueType}
  {marker : Option Stage}

def inserted (s : Builder) (k : Spine) (b z : Code) (kind : OpKind) (operands : List ValueId)
    (type : Option ValueType) (marker : Option Stage) : Builder where
  function := s.function.withOp kind operands type marker k.parent
    (b.roots ++ ⟨s.function.ops.size⟩ :: z.roots)
  point := s.point

theorem run_insert (h : Cursor s k b z) :
    (Build.insert kind operands type marker).run s =
      .ok (⟨s.function.ops.size⟩, inserted s k b z kind operands type marker) := by
  obtain ⟨f, point⟩ := s
  cases z with
  | nil =>
    obtain ⟨hrep, rfl⟩ := h
    rw [Code.append_nil] at hrep
    have hplace : (f.addOp kind operands type marker).1.placeAtEnd ⟨f.ops.size⟩ k.parent = _ :=
      hrep.placeAtEnd_addOp
    simp [Build.insert, Build.place, Build.point, Build.edit, hplace, inserted]
    rfl
  | node hd x z =>
    obtain ⟨hrep, rfl⟩ := h
    have hplace : (f.addOp kind operands type marker).1.placeBefore ⟨f.ops.size⟩ hd.op = _ :=
      hrep.placeBefore_addOp
    simp [Build.insert, Build.place, Build.point, Build.edit, hplace, inserted]

theorem inserted_cursor (h : Cursor s k b z) :
    Cursor (inserted s k b z kind operands type marker) k
      (b ++ .node (s.function.nextNode kind operands type marker) .nil .nil) z := by
  refine ⟨?_, h.faces⟩
  rw [Code.append_assoc]
  exact h.represents.withOp

theorem grows_inserted :
    s.function.Grows (inserted s k b z kind operands type marker).function :=
  (Function.grows_addOp _ kind operands type marker).trans Function.sameValues_withOp.grows

end Insert

end Cursor

def freshValues (m n : Nat) : List ValueId := (List.range' m (n - m)).map ValueId.mk

theorem mem_freshValues {m n : Nat} {v : ValueId} :
    v ∈ freshValues m n ↔ m ≤ v.index ∧ v.index < n := by
  simp only [freshValues, List.mem_map, List.mem_range'_1]
  constructor
  · rintro ⟨i, hi, rfl⟩
    dsimp only
    omega
  · intro h
    exact ⟨v.index, by omega, rfl⟩

theorem nodup_freshValues (m n : Nat) : (freshValues m n).Nodup :=
  (List.nodup_range' ..).map fun _ _ h => congrArg ValueId.index h

theorem freshValues_append {m n p : Nat} (h : m ≤ n) (h' : n ≤ p) :
    freshValues m n ++ freshValues n p = freshValues m p := by
  have hsum : p - m = n - m + (p - n) := by omega
  have hstart : n = m + 1 * (n - m) := by omega
  rw [freshValues, freshValues, freshValues, ← List.map_append, hsum]
  conv_lhs => rw [show List.range' n (p - n) = List.range' (m + 1 * (n - m)) (p - n) by rw [← hstart]]
  rw [List.range'_append]

structure Writes (s s' : Builder) (k : Spine) (b y z : Code) : Prop where
  cursor : Cursor s' k (b ++ y) z
  grows : s.function.Grows s'.function
  point : s'.point = s.point
  ops : ∀ op ∈ y.ops, s.function.ops.size ≤ op.index
  defined : y.defined = freshValues s.function.values.size s'.function.values.size

namespace Writes

variable {s s' s'' : Builder} {k : Spine} {b y y' z : Code}

theorem nil (h : Cursor s k b z) : Writes s s k b .nil z where
  cursor := by rwa [Code.append_nil]
  grows := .refl _
  point := rfl
  ops := by simp [Code.ops]
  defined := by simp [freshValues]

theorem trans (h : Writes s s' k b y z) (h' : Writes s' s'' k (b ++ y) y' z) :
    Writes s s'' k b (y ++ y') z where
  cursor := by rw [← Code.append_assoc]; exact h'.cursor
  grows := h.grows.trans h'.grows
  point := h'.point.trans h.point
  ops := by
    intro op ho
    rw [Code.ops_append, List.mem_append] at ho
    exact ho.elim (h.ops op) fun ho => h.grows.ops.trans (h'.ops op ho)
  defined := by
    rw [Code.defined_append, h.defined, h'.defined,
      freshValues_append h.grows.values h'.grows.values]

theorem not_mem (h : Writes s s' k b y z) {v : ValueId} (hv : v.index < s.function.values.size) :
    v ∉ y.defined := by
  rw [h.defined, mem_freshValues]
  omega

theorem repoint (h : Writes s s' k b y z) : Writes s { s' with point := s.point } k b y z :=
  ⟨⟨h.cursor.represents, h.point ▸ h.cursor.faces⟩, h.grows, rfl, h.ops, h.defined⟩

theorem leave {n : Node} {point : InsertionPoint}
    (h : Writes s s' k b (.node n .nil .nil) z)
    (h' : Writes { s' with point := .atEnd (some n.op) } s'' (.inside n b z k) .nil y .nil)
    (hp : point = s.point) :
    Writes s { s'' with point := point } k b (.node n y .nil) z where
  cursor := by
    refine ⟨?_, hp ▸ h.point ▸ h.cursor.faces⟩
    have hrep := h'.cursor.represents
    rw [Code.nil_append, Code.append_nil] at hrep
    rw [Code.append_assoc]
    exact hrep
  grows := h.grows.trans h'.grows
  point := hp
  ops := by
    intro op ho
    simp only [Code.ops, List.append_nil, List.mem_cons] at ho
    rcases ho with rfl | ho
    · exact h.ops _ (by simp [Code.ops])
    · exact h.grows.ops.trans (h'.ops op ho)
  defined := by
    have hn := h.defined
    rw [Code.defined_node, Code.defined_nil, List.append_nil, List.append_nil] at hn
    rw [Code.defined_node, Code.defined_nil, List.append_nil, hn, h'.defined]
    exact freshValues_append h.grows.values h'.grows.values

end Writes

structure Splice (f g : Function) (k : Spine) (b y z : Code) : Prop where
  represents : g.Represents (k.plug (b ++ (y ++ z)))
  grows : f.Grows g
  ops : ∀ op ∈ y.ops, f.ops.size ≤ op.index
  defined : y.defined = freshValues f.values.size g.values.size

theorem Splice.size_le {f g : Function} {k : Spine} {b y z : Code} (h : Splice f g k b y z)
    {v : ValueId} (hv : v ∈ y.defined) : f.values.size ≤ v.index := by
  rw [h.defined, mem_freshValues] at hv
  exact hv.1

namespace Cursor

variable {s : Builder} {k : Spine} {b z : Code} {p : Prop} {kind : OpKind}
  {operands : List ValueId} {type : Option ValueType} {marker : Option Stage}

theorem size_values_inserted :
    (inserted s k b z kind operands type marker).function.values.size =
      s.function.values.size + (type.toList.length + kind.loopRanges.length) := by
  have h : (inserted s k b z kind operands type marker).function.values =
      (s.function.addOp kind operands type marker).1.values := Function.sameValues_withOp.values
  rw [h]
  cases type <;> simp [Function.addOp, Function.definedValues]
  omega

theorem writes_inserted (h : Cursor s k b z) (kind : OpKind) (operands : List ValueId)
    (type : Option ValueType) (marker : Option Stage) :
    Writes s (inserted s k b z kind operands type marker) k b
      (.node (s.function.nextNode kind operands type marker) .nil .nil) z where
  cursor := h.inserted_cursor
  grows := grows_inserted
  point := rfl
  ops := by simp [Code.ops, Function.nextNode]
  defined := by
    rw [size_values_inserted, freshValues, Nat.add_sub_cancel_left, ← List.range'_append_1]
    cases type <;>
      simp [Code.defined_node, Node.defined, Function.nextNode, List.range'_eq_map_range,
        Function.comp_def, List.range'_succ]

theorem yields_insert (h : Cursor s k b z) (kind : OpKind) (operands : List ValueId)
    (type : Option ValueType) (marker : Option Stage) :
    Yields p ((Build.insert kind operands type marker).run s) fun r =>
      r.1 = ⟨s.function.ops.size⟩ ∧
        Writes s r.2 k b (.node (s.function.nextNode kind operands type marker) .nil .nil) z := by
  rw [h.run_insert]
  exact ⟨rfl, h.writes_inserted kind operands type marker⟩

theorem yields_effect (h : Cursor s k b z) (kind : OpKind) (operands : List ValueId)
    (marker : Option Stage) (hk : kind.loopRanges = []) :
    Yields p ((Build.insert kind operands none marker).run s) fun r =>
      Writes s r.2 k b (.node (.effect r.1 kind operands marker) .nil .nil) z := by
  refine (h.yields_insert kind operands none marker).mono ?_
  rintro ⟨op, s'⟩ - ⟨rfl, hw⟩
  have hnode : s.function.nextNode kind operands none marker =
      .effect ⟨s.function.ops.size⟩ kind operands marker := by
    simp [Function.nextNode, hk, Node.effect]
  rwa [hnode] at hw

theorem op_inserted (h : Cursor s k b z) (kind : OpKind) (operands : List ValueId)
    (type : Option ValueType) (marker : Option Stage) :
    (inserted s k b z kind operands type marker).function.op ⟨s.function.ops.size⟩ =
      .ok ((s.function.nextNode kind operands type marker).record k.parent []) :=
  Function.op_eq_ok.2 (Function.op?_withOp_self fun e =>
    h.represents.fresh (Spine.mem_ops_plug.2 (.inr (Spine.parent_mem_ops e))))

theorem yields_value (h : Cursor s k b z) (kind : OpKind) (operands : List ValueId)
    (t : ValueType) (hk : kind.loopRanges = []) :
    Yields p ((Build.insertValue kind operands t).run s) fun r =>
      ∃ op, Writes s r.2 k b (.node (.value op kind operands r.1 t) .nil .nil) z := by
  have hop := h.op_inserted kind operands (some t) none
  have hw := h.writes_inserted kind operands (some t) none
  simp only [Build.insertValue, StateT.run_bind, h.run_insert, Build.function, StateT.run_get,
    StateT.run_monadLift, Function.result]
  simp [hop, Node.record, Function.nextNode]
  have hnode : s.function.nextNode kind operands (some t) none =
      .value ⟨s.function.ops.size⟩ kind operands ⟨s.function.values.size⟩ t := by
    simp [Function.nextNode, hk, Node.value]
  exact ⟨_, hnode ▸ hw⟩

theorem yields_loop (h : Cursor s k b z) (kind : OpKind) :
    Yields p ((Build.loop kind).run s) fun r =>
      r.1.2.length = kind.loopRanges.length ∧
        Writes s r.2 k b (.node (.loop r.1.1 kind r.1.2) .nil .nil) z := by
  have hop := h.op_inserted kind [] none none
  have hw := h.writes_inserted kind [] none none
  simp only [Build.loop, StateT.run_bind, h.run_insert, Build.function, StateT.run_get,
    StateT.run_monadLift]
  simp [hop, Node.record]
  exact ⟨by simp [Function.nextNode], hw⟩

theorem yields_subView {source : ValueId} {window : Window} {offsets : List ValueId}
    {t : BufferType} (h : Cursor s k b z) (hcount : window.dynamicCount = offsets.length)
    (ht : s.function.bufferType? source = .ok (some t))
    (hr : Yields p (window.resultType t) fun _ => True) :
    Yields p ((Build.subView source window offsets).run s) fun r =>
      ∃ op result, window.resultType t = .ok result ∧ Writes s r.2 k b
        (.node (.value op (.subView window) (source :: offsets) r.1 (.buffer result)) .nil .nil)
        z := by
  simp only [Build.subView, hcount, ne_eq, not_true_eq_false, if_false, StateT.run_bind,
    StateT.run_pure, Build.function, StateT.run_get, StateT.run_monadLift, monadLift_self]
  simp only [Yields.bind_iff, Yields.pure_iff, ht, Yields.ok_iff, Fault.require_some]
  refine hr.mono fun result hresult _ => ?_
  refine (h.yields_value _ _ _ rfl).mono ?_
  rintro ⟨v, s'⟩ - ⟨op, hw⟩
  exact ⟨op, result, hresult, hw⟩

theorem subView_of_ok {source v : ValueId} {window : Window} {offsets : List ValueId} {s' : Builder}
    (h : (Build.subView source window offsets).run s = .ok (v, s')) :
    window.dynamicCount = offsets.length ∧
      ∃ t, s.function.bufferType? source = .ok (some t) := by
  unfold Build.subView at h
  split at h
  · cases h
  · rename_i hcount
    simp only [Build.run_bind_eq_ok, Build.run_lift_eq_ok, Build.run_function_eq_ok,
      Fault.require_eq_ok, existsAndEq] at h
    obtain ⟨-, t, ⟨ht, -⟩, -⟩ := h
    exact ⟨not_not.1 hcount, t, ht⟩

theorem enter {n : Node} (h : Cursor s k (b ++ .node n .nil .nil) z) :
    Cursor { s with point := .atEnd (some n.op) } (.inside n b z k) .nil .nil := by
  refine ⟨?_, rfl⟩
  have := h.represents
  rwa [Code.append_assoc] at this

end Cursor

theorem Writes.yields_erase {s s' : Builder} {k : Spine} {b y x z : Code} {hd : Node} {p : Prop}
    (h : Writes s s' k b y (.node hd x z)) : Yields p ((Build.erase hd.op).run s') fun r =>
      Splice s.function r.2.function k b y z := by
  have hrep := h.cursor.represents
  rw [Build.erase, Build.yields_edit, hrep.erase_eq]
  have hsame := Function.sameValues_without s'.function k.parent ((b ++ y) ++ z).roots
    (hd.op :: x.ops)
  refine ⟨?_, h.grows.trans hsame.grows, h.ops, ?_⟩
  · rw [← Code.append_assoc]
    exact hrep.without
  · rw [h.defined]
    exact congrArg (freshValues _) (congrArg Array.size hsame.values.symm)

end KernelLowering
