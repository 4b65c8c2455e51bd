import KernelLowering.Kernel.TileSizes
import KernelLowering.Lowering.Options
import KernelLowering.Rule.Basic

namespace KernelLowering

structure KernelInstance where
  op : OpId
  kind : KernelKind
  operandTypes : List BufferType
  deriving DecidableEq, Repr

namespace Function

def instanceAt (f : Function) (kind : KernelKind) (op : OpId) :
    Except Fault (Option KernelInstance) := do
  let o ← f.op op
  if o.kind = .kernel kind then
    return (← f.bufferTypes? o.operands).map fun types => ⟨op, kind, types⟩
  else
    return none

def kernels (f : Function) (kind : KernelKind) : Except Fault (List KernelInstance) := do
  return (← f.walk.mapM (f.instanceAt kind)).reduceOption

end Function

structure KernelPlan where
  kind : KernelKind
  promoteMid : Bool
  tileMid : TilingOptions
  promotionMid : PromotionOptions
  tileLocal : TilingOptions
  promotionLocal : PromotionOptions
  deriving DecidableEq, Repr

namespace KernelPlan

def matmul (options : LoweringOptions) : Logged KernelPlan := do
  let (l1, l2) ← TileSizes.matmul (options.herdSize.map Int.ofNat) options.l1TileSize
    options.l2TileSize
  return {
    kind := .matmul
    promoteMid := options.promoteL2
    tileMid := ⟨l2, [2, 1, 0], .sequential⟩
    promotionMid := ⟨none, some .l2⟩
    tileLocal := ⟨l1, [], .parallel⟩
    promotionLocal := ⟨none, none⟩ }

def conv2d (operandTypes : List BufferType) : Except Fault KernelPlan := do
  let (mid, compute) := (← TileSizes.conv2d operandTypes).getD ([], [])
  return {
    kind := .conv2d
    promoteMid := true
    tileMid := ⟨mid, [0, 2, 1, 3, 4, 5, 6], .sequential⟩
    promotionMid := ⟨some [0, 1, 2], some .l2⟩
    tileLocal := ⟨compute, [1, 0, 2, 3, 4, 5, 6], .sequential⟩
    promotionLocal := ⟨some [0, 1, 2], none⟩ }

def forInstance (k : KernelInstance) (options : LoweringOptions) : Logged KernelPlan :=
  match k.kind with
  | .matmul => matmul options
  | .conv2d => conv2d k.operandTypes

def steps (plan : KernelPlan) : List Step := Step.table plan.kind plan.promoteMid

def next? (plan : KernelPlan) (current : Stage) : Option Step :=
  Step.next? plan.kind plan.promoteMid current

def terminal (plan : KernelPlan) : Stage := Step.terminal plan.kind plan.promoteMid

def tileSizes (plan : KernelPlan) : List (List Int) :=
  [plan.tileMid.tileSizes, plan.tileLocal.tileSizes]

def rule (plan : KernelPlan) (step : Step) : Rule :=
  let guard := StageGuard.ofStep step
  match step.transition with
  | .tileMid => .tiling ⟨plan.kind, plan.tileMid, guard⟩
  | .promoteMid => .promotion ⟨plan.kind, plan.promotionMid, guard⟩
  | .tileLocal => .tiling ⟨plan.kind, plan.tileLocal, guard⟩
  | .promoteLocal => .promotion ⟨plan.kind, plan.promotionLocal, guard⟩

def stageRules (plan : KernelPlan) : List Rule := plan.steps.map plan.rule

end KernelPlan

end KernelLowering
