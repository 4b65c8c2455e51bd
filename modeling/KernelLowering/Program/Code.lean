import KernelLowering.Program.Forest

namespace KernelLowering

structure Node where
  op : OpId
  kind : OpKind
  operands : List ValueId
  result : Option (ValueId × ValueType)
  marker : Option Stage
  inductionVars : List ValueId
  deriving DecidableEq, Repr

namespace Node

def defined (h : Node) : List ValueId := (h.result.map (·.1)).toList ++ h.inductionVars

def rename (σ : ValueId → ValueId) (h : Node) : Node := { h with operands := h.operands.map σ }

def record (h : Node) (parent : Option OpId) (region : List OpId) : Operation where
  kind := h.kind
  operands := h.operands
  result := h.result.map (·.1)
  marker := h.marker
  region := region
  inductionVars := h.inductionVars
  parent := parent
  live := true

@[simp] theorem rename_id (h : Node) : h.rename id = h := by simp [rename]

def value (op : OpId) (kind : OpKind) (operands : List ValueId) (v : ValueId) (type : ValueType) :
    Node :=
  ⟨op, kind, operands, some (v, type), none, []⟩

def effect (op : OpId) (kind : OpKind) (operands : List ValueId) (marker : Option Stage) : Node :=
  ⟨op, kind, operands, none, marker, []⟩

def loop (op : OpId) (kind : OpKind) (vars : List ValueId) : Node :=
  ⟨op, kind, [], none, none, vars⟩

end Node

inductive Code where
  | nil
  | node (head : Node) (body rest : Code)
  deriving DecidableEq, Repr

namespace Code

def append : Code → Code → Code
  | nil, y => y
  | node h body rest, y => node h body (rest.append y)

instance : Append Code := ⟨append⟩

def roots : Code → List OpId
  | nil => []
  | node h _ rest => h.op :: rest.roots

def ops : Code → List OpId
  | nil => []
  | node h body rest => h.op :: (body.ops ++ rest.ops)

def heads : Code → List Node
  | nil => []
  | node h body rest => h :: (body.heads ++ rest.heads)

def defined (x : Code) : List ValueId := x.heads.flatMap Node.defined

def within (loops : List Node) (x : Code) : Code := loops.foldr (fun h x => node h x nil) x

def rename (σ : ValueId → ValueId) : Code → Code
  | nil => nil
  | node h body rest => node (h.rename σ) (body.rename σ) (rest.rename σ)

def depth : Code → Nat
  | nil => 0
  | node _ body rest => max (body.depth + 1) rest.depth

def forest : Code → Forest
  | nil => .nil
  | node h body rest => .node h.op body.forest rest.forest

@[simp] theorem nil_append (y : Code) : nil ++ y = y := rfl

@[simp] theorem node_append (h : Node) (body rest y : Code) :
    node h body rest ++ y = node h body (rest ++ y) := rfl

@[simp] theorem append_nil (x : Code) : x ++ nil = x := by
  induction x with
  | nil => rfl
  | node h body rest _ ih => rw [node_append, ih]

theorem append_assoc (x y z : Code) : x ++ y ++ z = x ++ (y ++ z) := by
  induction x with
  | nil => rfl
  | node h body rest _ ih => simp only [node_append, ih]

@[simp] theorem roots_append (x y : Code) : (x ++ y).roots = x.roots ++ y.roots := by
  induction x with
  | nil => rfl
  | node h body rest _ ih => simp only [node_append, roots, ih, List.cons_append]

@[simp] theorem ops_append (x y : Code) : (x ++ y).ops = x.ops ++ y.ops := by
  induction x with
  | nil => rfl
  | node h body rest _ ih => simp only [node_append, ops, ih, List.cons_append, List.append_assoc]

@[simp] theorem heads_append (x y : Code) : (x ++ y).heads = x.heads ++ y.heads := by
  induction x with
  | nil => rfl
  | node h body rest _ ih => simp only [node_append, heads, ih, List.cons_append, List.append_assoc]

@[simp] theorem defined_nil : nil.defined = [] := rfl

@[simp] theorem defined_node (h : Node) (body rest : Code) :
    (node h body rest).defined = h.defined ++ (body.defined ++ rest.defined) := by
  simp [defined, heads]

@[simp] theorem defined_append (x y : Code) : (x ++ y).defined = x.defined ++ y.defined := by
  simp [defined]

@[simp] theorem rename_append (σ : ValueId → ValueId) (x y : Code) :
    (x ++ y).rename σ = x.rename σ ++ y.rename σ := by
  induction x with
  | nil => rfl
  | node h body rest _ ih => simp only [node_append, rename, ih]

@[simp] theorem rename_id (x : Code) : x.rename id = x := by
  induction x with
  | nil => rfl
  | node h body rest ihb ihr => rw [rename, ihb, ihr, Node.rename_id]

theorem ops_eq_map_heads (x : Code) : x.ops = x.heads.map (·.op) := by
  induction x with
  | nil => rfl
  | node h body rest ihb ihr => simp [ops, heads, ihb, ihr]

theorem mem_ops_of_mem_roots {op : OpId} {x : Code} (h : op ∈ x.roots) : op ∈ x.ops := by
  induction x with
  | nil => simp [roots] at h
  | node hd body rest _ ih =>
    simp only [roots, List.mem_cons] at h
    simp only [ops, List.mem_cons, List.mem_append]
    exact h.imp_right fun h => Or.inr (ih h)

@[simp] theorem ops_rename (σ : ValueId → ValueId) (x : Code) : (x.rename σ).ops = x.ops := by
  induction x with
  | nil => rfl
  | node h body rest ihb ihr => simp only [rename, ops, ihb, ihr, Node.rename]

@[simp] theorem roots_rename (σ : ValueId → ValueId) (x : Code) :
    (x.rename σ).roots = x.roots := by
  induction x with
  | nil => rfl
  | node h body rest _ ihr => simp only [rename, roots, ihr, Node.rename]

theorem heads_rename (σ : ValueId → ValueId) (x : Code) :
    (x.rename σ).heads = x.heads.map (·.rename σ) := by
  induction x with
  | nil => rfl
  | node h body rest ihb ihr => simp [rename, heads, ihb, ihr]

theorem depth_le_length_ops (x : Code) : x.depth ≤ x.ops.length := by
  induction x with
  | nil => exact Nat.le_refl 0
  | node h body rest ihb ihr => simp only [depth, ops, List.length_cons, List.length_append]; omega

@[simp] theorem preorder_forest (x : Code) : x.forest.preorder = x.ops := by
  induction x with
  | nil => rfl
  | node h body rest ihb ihr => simp only [forest, Forest.preorder, ops, ihb, ihr]

end Code

namespace Function

def head? (f : Function) (op : OpId) : Option Node :=
  (f.op? op).map fun o =>
    { op, kind := o.kind, operands := o.operands
      result := o.result.bind fun v => (f.value? v).map fun x => (v, x.type)
      marker := o.marker, inductionVars := o.inductionVars }

end Function

def Forest.code (f : Function) : Forest → Code
  | nil => .nil
  | node op body rest =>
    match f.head? op with
    | some h => .node h (body.code f) (rest.code f)
    | none => rest.code f

namespace Function

def code (f : Function) : Code := f.forest.code f

def Places (f : Function) (parent : Option OpId) : Code → Prop
  | .nil => True
  | .node h body rest =>
    f.op? h.op = some (h.record parent body.roots) ∧ f.Places (some h.op) body ∧
      f.Places parent rest

structure Represents (f : Function) (c : Code) : Prop where
  body : f.body = c.roots
  places : f.Places none c
  nodup : c.ops.Nodup
  live : ∀ {op o}, f.op? op = some o → o.live = true → op ∈ c.ops
  result : ∀ {h v t}, h ∈ c.heads → h.result = some (v, t) → f.value? v = some ⟨t, .result h.op⟩
  vars : ∀ {h}, h ∈ c.heads → h.inductionVars.length = h.kind.loopRanges.length
  var : ∀ {h i v}, h ∈ c.heads → h.inductionVars[i]? = some v →
    f.value? v = some ⟨.index, .inductionVar h.op i⟩
  argument : ∀ {i}, i < f.arity → ∃ t, f.value? ⟨i⟩ = some ⟨t, .argument i⟩
  definer : ∀ {v t op}, f.value? v = some ⟨t, .result op⟩ →
    ∃ o, f.op? op = some o ∧ o.result = some v

def WellFormed (f : Function) : Prop := f.Represents f.code

end Function

end KernelLowering
