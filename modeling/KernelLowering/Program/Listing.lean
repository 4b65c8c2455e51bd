import KernelLowering.Program.Forest

namespace KernelLowering

inductive Name where
  | argument (position : Nat)
  | numbered (number : Nat)
  | undefined (v : ValueId)
  deriving DecidableEq, Repr

structure Naming where
  arity : Nat
  defined : List ValueId
  deriving DecidableEq, Repr

namespace Naming

def name (names : Naming) (v : ValueId) : Name :=
  if v.index < names.arity then .argument v.index
  else match names.defined.idxOf? v with
    | some number => .numbered number
    | none => .undefined v

def define (names : Naming) (v : ValueId) : Naming :=
  if v.index < names.arity ∨ v ∈ names.defined then names
  else { names with defined := names.defined ++ [v] }

def defineAll (names : Naming) (vs : List ValueId) : Naming := vs.foldl define names

theorem name_argument {names : Naming} {v : ValueId} (h : v.index < names.arity) :
    names.name v = .argument v.index := by
  simp [name, h]

end Naming

structure Typed where
  name : Name
  type : ValueType
  deriving DecidableEq, Repr

inductive Statement where
  | constant (result : Option Name) (value : Int)
  | addIndex (result : Option Name) (lhs rhs : Name)
  | alloc (result : Typed)
  | dealloc (buffer : Typed)
  | view (result source : Typed)
  | subView (result source : Typed) (offsets : List (SuppliedOffset Name)) (sizes : Shape)
      (strides : List Int)
  | copy (source destination : Typed)
  | kernel (kind : KernelKind) (marker : Option Stage) (inputs : List Typed) (output : Typed)
  | forLoop (var : Name) (range : LoopRange)
  | parallelLoop (vars : List Name) (ranges : List LoopRange)
  | call (callee : String) (arguments : List Typed)
  | ret
  deriving DecidableEq, Repr

inductive Listing where
  | nil
  | line (statement : Statement) (body rest : Listing)
  deriving DecidableEq, Repr

namespace Function

def typed (f : Function) (names : Naming) (v : ValueId) : Except Fault Typed :=
  return ⟨names.name v, ← f.typeOf v⟩

def statement (f : Function) (names inner : Naming) (op : OpId) (o : Operation) :
    Except Fault Statement := do
  let result := o.result.map inner.name
  let operand (i : Nat) : Except Fault Typed := do f.typed names (← o.operand i)
  let typedResult : Except Fault Typed := do f.typed inner (← f.result op)
  match o.kind with
  | .constant value => return .constant result value
  | .addIndex =>
    return .addIndex result (names.name (← o.operand 0)) (names.name (← o.operand 1))
  | .alloc => return .alloc (← typedResult)
  | .dealloc => return .dealloc (← operand 0)
  | .view =>
    let source ← operand 0
    return .view (← typedResult) source
  | .subView window =>
    let offsets := Offset.supply window.offsets ((← o.offsetOperands).map names.name)
    let source ← operand 0
    return .subView (← typedResult) source offsets window.sizes window.strides
  | .copy => return .copy (← operand 0) (← operand 1)
  | .kernel kind =>
    let operands ← o.operands.mapM (f.typed names)
    match operands.getLast? with
    | some output => return .kernel kind o.marker operands.dropLast output
    | none => throw .overflow
  | .forLoop range =>
    match o.inductionVars with
    | var :: _ => return .forLoop (inner.name var) range
    | [] => throw .indexOutOfBounds
  | .parallelLoop ranges => return .parallelLoop (o.inductionVars.map inner.name) ranges
  | .call callee => return .call callee (← o.operands.mapM (f.typed names))
  | .ret => return .ret

def namesWithin (names : Naming) (o : Operation) : Naming :=
  (names.defineAll o.result.toList).defineAll (if o.kind.isLoop then o.inductionVars else [])

def listForest (f : Function) : Forest → Naming → Except Fault (Listing × Naming)
  | .nil, names => .ok (.nil, names)
  | .node op body rest, names => do
    let o ← f.op op
    let inner := namesWithin names o
    let statement ← f.statement names inner op o
    let (bodyLines, inner) ←
      if o.kind.isLoop then f.listForest body inner else pure (.nil, inner)
    let (restLines, names) ← f.listForest rest inner
    return (.line statement bodyLines restLines, names)

def listing (f : Function) : Except Fault Listing :=
  (·.1) <$> f.listForest f.forest ⟨f.arity, []⟩

end Function

end KernelLowering
