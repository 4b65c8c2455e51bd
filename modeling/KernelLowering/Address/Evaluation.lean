import KernelLowering.Address.IndexArray
import KernelLowering.Program.Function

namespace KernelLowering

inductive EvalError where
  | unbound (v : ValueId)
  | notABuffer (v : ValueId)
  | outOfBounds (v : ValueId)
  deriving DecidableEq, Repr

def EvalError.message : EvalError → String
  | unbound v => s!"No binding for index value {v.text}"
  | notABuffer v => s!"Value {v.text} is not a buffer"
  | outOfBounds v => s!"Window of {v.text} leaves its source"

abbrev Bindings := List (ValueId × Int)

def Bindings.find? (bindings : Bindings) (v : ValueId) : Option Int :=
  (bindings.reverse.find? (·.1 = v)).map (·.2)

structure AddressedElements where
  root : ValueId
  positions : IndexArray

abbrev Eval := ExceptT EvalError (Except Fault)

namespace Address

def evalIndexTo (f : Function) (bindings : Bindings) : Nat → ValueId → Eval Int
  | 0, _ => throwThe Fault .cyclicDefinition
  | depth + 1, v => do
    match bindings.find? v with
    | some value => return value
    | none =>
      match ← f.definition? v with
      | none => throw (.unbound v)
      | some o =>
        match o.kind with
        | .constant value => return value
        | .addIndex =>
          let lhs ← evalIndexTo f bindings depth (← o.operand 0)
          let rhs ← evalIndexTo f bindings depth (← o.operand 1)
          Checked.add lhs rhs
        | _ => throw (.unbound v)

def depthOf (f : Function) : Nat := f.ops.size + 1

def evalIndex (f : Function) (v : ValueId) (bindings : Bindings) : Eval Int :=
  evalIndexTo f bindings (depthOf f) v

def wordOf (extent : Int) : Nat := (extent % 18446744073709551616).toNat

def rootShape (shape : Shape) : Except Fault (List Nat) := do
  let count := (shape.filter (· ≠ 0)).foldl (· * ·) 1
  if shape.any (· < 0) ∨ Checked.maxValue < count then
    throw (.arrayTooLarge (shape.map wordOf))
  if ¬ shape.any (· = 0) ∧ Checked.maxValue < 8 * count then
    throw .capacityOverflow
  return shape.map (·.toNat)

def evalOffset (f : Function) (bindings : Bindings) (v : ValueId) :
    SuppliedOffset ValueId → Eval Int
  | .static value => return value
  | .supplied source => evalIndex f source bindings
  | .missing => throw (.unbound v)

def span (w : Window) (axis : Nat) : Except Fault Int := do
  let steps ← Checked.sub (← Fault.indexOutOfBounds.require w.sizes[axis]?) 1
  Checked.mul steps (← Fault.indexOutOfBounds.require w.strides[axis]?)

def extentOf (shape : List Nat) (axis : Nat) : Except Fault Nat :=
  Fault.indexOutOfBounds.require shape[axis]?

def checkAxis (w : Window) (sourceShape : List Nat) (v : ValueId) (axis : Nat) (start : Int) :
    Eval Unit := do
  let last ← Checked.add start (← span w axis)
  if start < 0 then
    throw (.outOfBounds v)
  if (← extentOf sourceShape axis) ≤ last then
    throw (.outOfBounds v)

def sliceAxis (w : Window) (starts : List Int) (axis extent : Nat) : Except Fault AxisSlice := do
  let start ← Fault.indexOutOfBounds.require starts[axis]?
  let stop ← Checked.add (← Checked.add start (← span w axis)) 1
  AxisSlice.select extent start stop (← Fault.indexOutOfBounds.require w.strides[axis]?)

def windowElements (w : Window) (starts : List Int) (source : IndexArray) :
    Except Fault IndexArray := do
  let slices ← source.shape.zipIdx.mapM fun (extent, axis) => sliceAxis w starts axis extent
  return source.slice slices

def addressedTo (f : Function) (bindings : Bindings) : Nat → ValueId → Eval AddressedElements
  | 0, _ => throwThe Fault .cyclicDefinition
  | depth + 1, v => do
    let some type ← f.bufferType? v
      | throw (.notABuffer v)
    let subView? := (← f.definition? v).bind fun o => o.kind.window?.map fun w => (o, w)
    match subView? with
    | none => return ⟨v, .rowMajor (← rootShape type.shape)⟩
    | some (o, w) =>
      let source ← addressedTo f bindings depth (← o.operand 0)
      let starts ← (Offset.supply w.offsets (← o.offsetOperands)).mapM (evalOffset f bindings v)
      starts.zipIdx.forM fun (start, axis) => checkAxis w source.positions.shape v axis start
      return { source with positions := ← windowElements w starts source.positions }

def addressed (f : Function) (v : ValueId) (bindings : Bindings) : Eval AddressedElements :=
  addressedTo f bindings (depthOf f) v

end Address

end KernelLowering
