import KernelLowering.Program.Builder
import KernelLowering.Rule.ViewFolding

namespace KernelLowering.Reallocation

def definingOpOfKind (f : Function) (v : ValueId) (kind : OpKind) : Except Fault (Option OpId) := do
  match ← f.definingOp? v with
  | some op => return if (← f.op op).kind = kind then some op else none
  | none => return none

def allocationOf (f : Function) (op : OpId) : Inspect OpId := do
  let o ← f.op op
  discard (o.window .wrongKind)
  let view ← Inspect.orDecline .sourceNotViewOfAlloc
    (← definingOpOfKind f (← o.operand 0) .view)
  Inspect.orDecline .sourceNotViewOfAlloc
    (← definingOpOfKind f (← (← f.op view).operand 0) .alloc)

def check (f : Function) (op : OpId) : Inspect Unit := discard (allocationOf f op)

def perform (space : MemorySpace) (op : OpId) : Build Unit := do
  let f ← Build.function
  let allocation ← Inspect.relyOn .reallocation (allocationOf f op)
  let old ← f.result allocation
  let type ← Fault.resultNotBuffer.require (← f.bufferType? (← f.result op))
  let new ← Build.alloc (.rowMajor type.shape type.element space)
  Build.replaceOp op (some new)
  Build.replaceUses old new

end KernelLowering.Reallocation
