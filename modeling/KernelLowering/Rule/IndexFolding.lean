import KernelLowering.Program.Builder
import KernelLowering.Rule.ViewFolding

namespace KernelLowering

namespace AdditionFolding

def check (f : Function) (op : OpId) : Inspect Unit := do
  let o ← f.op op
  if o.kind ≠ .addIndex then
    throw .wrongKind
  match ← f.constant? (← o.operand 0), ← f.constant? (← o.operand 1) with
  | some _, some _ => return
  | some 0, none => return
  | none, some 0 => return
  | _, _ => throw .nothingToFold

def perform (op : OpId) : Build Unit := do
  let f ← Build.function
  let o ← f.op op
  let lhs ← o.operand 0
  let rhs ← o.operand 1
  let replacement ← match ← f.constant? lhs, ← f.constant? rhs with
    | some a, some b => do Build.constant (← Checked.add a b)
    | some 0, _ => pure rhs
    | _, _ => pure lhs
  Build.replaceOp op (some replacement)

end AdditionFolding

namespace OffsetFolding

def check (f : Function) (op : OpId) : Inspect Unit := do
  let o ← f.op op
  discard (o.window .wrongKind)
  if !(← (← o.offsetOperands).anyM fun v => do return (← f.constant? v).isSome) then
    throw .nothingToFold

def foldOffset (f : Function) : SuppliedOffset ValueId → Except Fault (Offset × List ValueId)
  | .static value => .ok (.static value, [])
  | .supplied v => do
    match ← f.constant? v with
    | some value => return (.static value, [])
    | none => return (.dynamic, [v])
  | .missing => .ok (.dynamic, [])

def foldOffsets (f : Function) (window : Window) (o : Operation) :
    Except Fault (List (Offset × List ValueId)) := do
  (Offset.supply window.offsets (← o.offsetOperands)).mapM (foldOffset f)

def perform (op : OpId) : Build Unit := do
  let f ← Build.function
  let o ← f.op op
  let window ← (Fault.uncheckedUse .offsetFolding).require o.kind.window?
  let source ← o.operand 0
  let dims ← foldOffsets f window o
  let folded ← Build.subView source { window with offsets := dims.map (·.1) } (dims.flatMap (·.2))
  Build.replaceOp op (some folded)

end OffsetFolding

end KernelLowering
