import KernelLowering.Program.Function

namespace KernelLowering

inductive Forest where
  | nil
  | node (op : OpId) (body rest : Forest)
  deriving DecidableEq, Repr

namespace Forest

def preorder : Forest → List OpId
  | nil => []
  | node op body rest => op :: (body.preorder ++ rest.preorder)

def roots : Forest → List OpId
  | nil => []
  | node op _ rest => op :: rest.roots

end Forest

namespace Function

def unfold (f : Function) : Nat → List OpId → Forest
  | 0, _ => .nil
  | depth + 1, ops =>
      ops.foldr (fun op rest => .node op (f.unfold depth (f.regionOf op)) rest) .nil

def nesting (f : Function) : Nat := f.ops.size + 1

def forest (f : Function) : Forest := f.unfold f.nesting f.body

def walk (f : Function) : List OpId := f.forest.preorder

def subtree (f : Function) (op : OpId) : List OpId :=
  op :: (f.unfold f.nesting (f.regionOf op)).preorder

def collect (f : Function) (p : Operation → Bool) : List OpId :=
  f.walk.filter fun op => (f.op? op).any p

def operandsOf (f : Function) (op : OpId) : List ValueId :=
  ((f.op? op).map (·.operands)).getD []

def uses (f : Function) (v : ValueId) : List (OpId × Nat) :=
  f.walk.flatMap fun op =>
    match f.op? op with
    | some o => (o.positionsOf v).map (op, ·)
    | none => []

def users (f : Function) (v : ValueId) : List OpId := f.walk.filter fun op => v ∈ f.operandsOf op

def usedValues (f : Function) : List ValueId := f.walk.flatMap f.operandsOf

def hasUses (f : Function) (v : ValueId) : Bool := f.usedValues.contains v

@[simp] theorem unfold_nil (f : Function) (depth : Nat) : f.unfold depth [] = .nil := by
  cases depth <;> rfl

theorem unfold_cons (f : Function) (depth : Nat) (op : OpId) (ops : List OpId) :
    f.unfold (depth + 1) (op :: ops) =
      .node op (f.unfold depth (f.regionOf op)) (f.unfold (depth + 1) ops) := rfl

end Function

end KernelLowering
