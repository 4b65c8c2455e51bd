import KernelLowering.Program.Builder
import KernelLowering.Rule.Declined

namespace KernelLowering

def Operation.window (o : Operation) (reason : Declined) : Inspect Window :=
  Inspect.orDecline reason o.kind.window?

namespace ViewFolding

def fits (offset : Offset) (size stride bound : Int) : Except Fault Bool := do
  let span ← Checked.add (← Checked.mul (← Checked.sub size 1) stride) 1
  let start := match offset with
    | .static value => value
    | .dynamic => 0
  if start < 0 then
    return false
  return (← Checked.add start span) ≤ bound

def allFit : List Offset → List Int → List Int → List Int → Except Fault Bool
  | offset :: offsets, size :: sizes, stride :: strides, bound :: bounds => do
    if ← fits offset size stride bound then
      allFit offsets sizes strides bounds
    else
      return false
  | _, _, _, _ => .ok true

def check (f : Function) (op : OpId) : Inspect Unit := do
  let outerOp ← f.op op
  let outer ← outerOp.window .wrongKind
  let inner ← Inspect.orDecline .sourceNotSubView (← f.definingOp? (← outerOp.operand 0))
  let innerWindow ← (← f.op inner).window .sourceNotSubView
  let outerType ← Inspect.orDecline .layoutMismatch (← f.bufferType? (← f.result op))
  let innerType ← Inspect.orDecline .layoutMismatch (← f.bufferType? (← f.result inner))
  if outerType.element ≠ innerType.element then
    throw .layoutMismatch
  if (← outerType.strides) ≠ (← innerType.strides) then
    throw .layoutMismatch
  if outer.offsets.length ≠ innerWindow.sizes.length ∨ innerWindow.strides.any (· ≠ 1) then
    throw .incompatibleWindow
  if !(← allFit outer.offsets outer.sizes outer.strides innerWindow.sizes) then
    throw .incompatibleWindow

def buildShifted (v : ValueId) (shift : Int) : Build ValueId := do
  if shift = 0 then
    return v
  Build.addIndex v (← Build.constant shift)

def buildOffset :
    SuppliedOffset ValueId → SuppliedOffset ValueId → Build (Offset × List ValueId)
  | .static a, .static b => return (.static (← Checked.add a b), [])
  | .supplied x, .static b => return (.dynamic, [← buildShifted x b])
  | .static a, .supplied y => return (.dynamic, [← buildShifted y a])
  | .supplied x, .supplied y => return (.dynamic, [← Build.addIndex y x])
  | _, _ => throw .missingOffsetOperand

def perform (op : OpId) : Build Unit := do
  let f ← Build.function
  let outerOp ← f.op op
  let unchecked : Fault := .uncheckedUse .viewFolding
  let inner ← unchecked.require (← f.definingOp? (← outerOp.operand 0))
  let outer ← unchecked.require outerOp.kind.window?
  let innerOp ← f.op inner
  let innerWindow ← unchecked.require innerOp.kind.window?
  let outerOffsets := Offset.supply outer.offsets (← outerOp.offsetOperands)
  let innerOffsets := Offset.supply innerWindow.offsets (← innerOp.offsetOperands)
  let source ← innerOp.operand 0
  let dims ← (outerOffsets.zip innerOffsets).mapM fun (x, y) => buildOffset x y
  let folded ← Build.subView source { outer with offsets := dims.map (·.1) } (dims.flatMap (·.2))
  Build.replaceOp op (some folded)

end ViewFolding

end KernelLowering
