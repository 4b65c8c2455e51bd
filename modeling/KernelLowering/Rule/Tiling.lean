import KernelLowering.Program.Builder
import KernelLowering.Rule.TilePlan

namespace KernelLowering

structure Tiling where
  kind : KernelKind
  options : TilingOptions
  guard : StageGuard
  deriving DecidableEq, Repr

namespace Tiling

def plan (t : Tiling) (f : Function) (op : OpId) : Inspect TilePlan := do
  let types ← Inspect.orDecline .unsupportedOperands (← f.bufferTypes? (← f.op op).operands)
  TilePlan.make t.kind t.options types

def check (t : Tiling) (f : Function) (op : OpId) : Inspect Unit := do
  t.guard.checkKernel t.kind (← f.op op)
  discard (t.plan f op)

abbrev LoopVars := List (Option ValueId)

def isParallel (t : Tiling) (d : Nat) : Bool := t.kind.iterators[d]? = some .parallel

def rangeOf (nest : Nest) (d : Nat) : Except Fault LoopRange :=
  Fault.indexOutOfBounds.require nest.ranges[d]?

def assign (vars : LoopVars) (dims : List Nat) (values : List ValueId) : LoopVars :=
  (dims.zip values).foldl (fun vars (d, v) => vars.set d (some v)) vars

def buildSequential (nest : Nest) : List Nat → LoopVars → Build LoopVars
  | [], vars => return vars
  | d :: dims, vars => do
    let (loop, values) ← Build.forLoop (← rangeOf nest d)
    Build.setPoint (.atEnd (some loop))
    buildSequential nest dims (assign vars [d] values)

def buildParallel (nest : Nest) (dims : List Nat) (vars : LoopVars) : Build LoopVars := do
  if dims.isEmpty then
    return vars
  let (loop, values) ← Build.parallelLoop (← dims.mapM fun d => rangeOf nest d)
  Build.setPoint (.atEnd (some loop))
  return assign vars dims values

def buildLoops (t : Tiling) (plan : TilePlan) (nest : Nest) : Build LoopVars := do
  let vars : LoopVars := plan.extents.map fun _ => none
  match t.options.style with
  | .sequential => buildSequential nest plan.order vars
  | .parallel =>
    let (parallel, reduction) := plan.order.partition t.isParallel
    buildSequential nest reduction (← buildParallel nest parallel vars)

def buildSum (first : ValueId) (rest : List ValueId) : Build ValueId :=
  rest.foldlM Build.addIndex first

def buildOffset (vars : LoopVars) (terms : List Nat) : Build (Offset × List ValueId) := do
  match terms.filterMap fun d => vars[d]?.join with
  | [] => return (.static 0, [])
  | first :: rest => return (.dynamic, [← buildSum first rest])

def windowSize (nest : Nest) (terms : List Nat) : Except Fault Int := do
  windowExtent (← terms.mapM fun d => Fault.indexOutOfBounds.require nest.sizes[d]?)

def buildOperand (nest : Nest) (vars : LoopVars) (operand : ValueId) (type : BufferType)
    (map : OperandMap) : Build ValueId := do
  let dims ← map.mapM fun terms => do
    let (offset, supplied) ← buildOffset vars terms
    return (offset, supplied, ← windowSize nest terms)
  let sizes := dims.map fun (_, _, size) => size
  let supplied := dims.flatMap fun (_, supplied, _) => supplied
  if supplied.isEmpty ∧ sizes = type.shape then
    return operand
  let window : Window :=
    { offsets := dims.map fun (offset, _, _) => offset
      sizes := sizes
      strides := sizes.map fun _ => 1 }
  Build.subView operand window supplied

def buildNest (t : Tiling) (plan : TilePlan) (operands : List ValueId) (nest : Nest) :
    Build Unit := do
  let vars ← t.buildLoops plan nest
  let tiled ← (operands.zip (plan.operandTypes.zip t.kind.operandMaps)).mapM
    fun (operand, type, map) => buildOperand nest vars operand type map
  discard (Build.kernel t.kind tiled (some t.guard.next))

def perform (t : Tiling) (op : OpId) : Build Unit := do
  let f ← Build.function
  let plan ← Inspect.relyOn .tiling (t.plan f op)
  let operands := (← f.op op).operands
  let anchor ← Build.point
  (← plan.nests).forM fun nest => do
    Build.setPoint anchor
    t.buildNest plan operands nest
  Build.erase op

end Tiling

end KernelLowering
