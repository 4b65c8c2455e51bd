import KernelLowering.Program.Operation

namespace KernelLowering

structure Function where
  name : String
  ops : Array Operation
  values : Array Value
  arity : Nat
  body : List OpId
  deriving DecidableEq, Repr

namespace Function

def empty (name : String) (arguments : List ValueType) : Function where
  name := name
  ops := #[]
  values := (arguments.zipIdx.map fun (type, i) => ⟨type, .argument i⟩).toArray
  arity := arguments.length
  body := []

def arguments (f : Function) : List ValueId := (List.range f.arity).map ValueId.mk

def op? (f : Function) (op : OpId) : Option Operation := f.ops[op.index]?

def op (f : Function) (op : OpId) : Except Fault Operation :=
  Fault.indexOutOfBounds.require (f.op? op)

def value? (f : Function) (v : ValueId) : Option Value := f.values[v.index]?

def value (f : Function) (v : ValueId) : Except Fault Value :=
  Fault.indexOutOfBounds.require (f.value? v)

def typeOf (f : Function) (v : ValueId) : Except Fault ValueType := (·.type) <$> f.value v

def bufferType? (f : Function) (v : ValueId) : Except Fault (Option BufferType) :=
  (·.type.buffer?) <$> f.value v

def bufferTypes? (f : Function) : List ValueId → Except Fault (Option (List BufferType))
  | [] => .ok (some [])
  | v :: vs => do
    match ← f.bufferType? v with
    | some type => return (← f.bufferTypes? vs).map (type :: ·)
    | none => return none

def isLive (f : Function) (op : OpId) : Except Fault Bool := (·.live) <$> f.op op

def definingOp? (f : Function) (v : ValueId) : Except Fault (Option OpId) := do
  match (← f.value v).definition with
  | .result op => return if ← f.isLive op then some op else none
  | _ => return none

def definition? (f : Function) (v : ValueId) : Except Fault (Option Operation) := do
  match ← f.definingOp? v with
  | some op => return some (← f.op op)
  | none => return none

def definingKind? (f : Function) (v : ValueId) : Except Fault (Option OpKind) := do
  return (← f.definition? v).map (·.kind)

def constant? (f : Function) (v : ValueId) : Except Fault (Option Int) := do
  return (← f.definingKind? v).bind (·.constant?)

def result (f : Function) (op : OpId) : Except Fault ValueId := do
  (Fault.noResult op).require (← f.op op).result

def region (f : Function) : Option OpId → Except Fault (List OpId)
  | some parent => (·.region) <$> f.op parent
  | none => .ok f.body

def regionOf (f : Function) (op : OpId) : List OpId := ((f.op? op).map (·.region)).getD []

@[simp] theorem length_arguments (f : Function) : f.arguments.length = f.arity := by
  simp [arguments]

theorem op_eq_ok {f : Function} {id : OpId} {o : Operation} :
    f.op id = .ok o ↔ f.op? id = some o := Fault.require_eq_ok

theorem value_eq_ok {f : Function} {v : ValueId} {x : Value} :
    f.value v = .ok x ↔ f.value? v = some x := Fault.require_eq_ok

end Function

end KernelLowering
