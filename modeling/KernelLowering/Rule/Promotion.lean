import KernelLowering.Program.Builder
import KernelLowering.Rule.StageGuard

namespace KernelLowering

structure PromotionOptions where
  positions : Option (List Nat)
  space : Option MemorySpace
  deriving DecidableEq, Repr

structure Promotion where
  kind : KernelKind
  options : PromotionOptions
  guard : StageGuard
  deriving DecidableEq, Repr

namespace Promotion

def isTile (f : Function) (operands : List ValueId) (position : Nat) : Except Fault Bool := do
  match operands[position]? with
  | some v => return ((← f.definingKind? v).bind (·.window?)).isSome
  | none => return false

def candidates (p : Promotion) (f : Function) (op : OpId) : Except Fault (List Nat) := do
  let operands := (← f.op op).operands
  (p.options.positions.getD (List.range operands.length)).filterM (isTile f operands)

def check (p : Promotion) (f : Function) (op : OpId) : Inspect Unit := do
  p.guard.checkKernel p.kind (← f.op op)
  if (← p.candidates f op).isEmpty then
    throw .nothingToPromote

def allocate (p : Promotion) (type : BufferType) : Build (ValueId × ValueId) := do
  let tile := BufferType.rowMajor type.shape type.element .global
  match p.options.space with
  | some space =>
    let buffer ← Build.alloc { tile with space := space }
    return (buffer, buffer)
  | none =>
    let bytes ← Build.alloc (.rowMajor [← tile.bytes] .uint8 .global)
    let whole ← Build.view bytes tile
    return (bytes, ← Build.subView whole (.origin type.shape) [])

def allocateAll (p : Promotion) :
    List (Nat × BufferType) → List ValueId → Build (List ValueId × List ValueId)
  | [], operands => return ([], operands)
  | (position, type) :: rest, operands => do
    let (buffer, tile) ← p.allocate type
    let (buffers, operands) ← p.allocateAll rest (operands.set position tile)
    return (buffer :: buffers, operands)

def operandAt (operands : List ValueId) (position : Nat) : Except Fault ValueId :=
  Fault.indexOutOfBounds.require operands[position]?

def perform (p : Promotion) (op : OpId) : Build Unit := do
  let f ← Build.function
  let positions ← p.candidates f op
  let operands := (← f.op op).operands
  let types ← positions.mapM fun i => do f.bufferType? (← operandAt operands i)
  let (buffers, promoted) ← p.allocateAll (positions.zip types.reduceOption) operands
  positions.forM fun i => do
    discard (Build.copy (← operandAt operands i) (← operandAt promoted i))
  discard (Build.kernel p.kind promoted (some p.guard.next))
  let output := p.kind.outputOperand
  if output ∈ positions then
    discard (Build.copy (← operandAt promoted output) (← operandAt operands output))
  buffers.forM fun buffer => discard (Build.dealloc buffer)
  Build.erase op

end Promotion

end KernelLowering
