import KernelLowering.Program.Builder
import KernelLowering.Rule.Declined

namespace KernelLowering.TrivialLoops

def check (f : Function) (op : OpId) : Inspect Unit := do
  let ranges := (← f.op op).kind.loopRanges
  if ranges.isEmpty then
    throw .wrongKind
  let trivial ← ranges.anyM fun r => do return (← r.tripCount) ≤ 1
  if !trivial then
    throw .noTrivialLoop

def dropSingle : List (LoopRange × ValueId) → Build (List (LoopRange × ValueId))
  | [] => return []
  | (range, var) :: rest => do
    if (← range.tripCount) = 1 then
      Build.replaceUses var (← Build.constant range.lower)
      dropSingle rest
    else
      return (range, var) :: (← dropSingle rest)

def buildLoop (kind : OpKind) (first : LoopRange) (ranges : List LoopRange) :
    Build (OpId × List ValueId) :=
  match kind with
  | .forLoop _ => Build.forLoop first
  | _ => Build.parallelLoop ranges

def buildTarget (op : OpId) (kind : OpKind) :
    List (LoopRange × ValueId) → Build InsertionPoint
  | [] => return .before op
  | kept@((first, _) :: _) => do
    let (loop, vars) ← buildLoop kind first (kept.map (·.1))
    ((kept.map (·.2)).zip vars).forM fun (old, new) => Build.replaceUses old new
    return .atEnd (some loop)

def perform (op : OpId) : Build Unit := do
  let o ← (← Build.function).op op
  let ranges := o.kind.loopRanges
  if ← ranges.anyM (fun r => do return (← r.tripCount) = 0) then
    Build.erase op
  else
    let kept ← dropSingle (ranges.zip o.inductionVars)
    Build.setPoint (← buildTarget op o.kind kept)
    o.region.forM Build.place
    Build.erase op

end KernelLowering.TrivialLoops
