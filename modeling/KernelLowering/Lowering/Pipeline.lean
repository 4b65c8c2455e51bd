import KernelLowering.Lowering.Plan
import KernelLowering.Rule.Greedy

namespace KernelLowering.Pipeline

structure Outcome where
  reached : Option Stage
  changes : Nat
  converged : Bool
  deriving DecidableEq, Repr

def rules (plan : KernelPlan) : Round → List Rule
  | .tile => plan.stageRules
  | .canonicalize => Rule.canonicalization
  | .foldViews => Rule.viewCleanup

def runRound (plan : KernelPlan) (maxSweeps : Nat) (f : Function) (round : Round) :
    Logged (Function × Greedy.Outcome) := do
  let (f, outcome) ← Greedy.run (rules plan round) maxSweeps f
  Logged.report (.roundDone round f.name outcome.changes outcome.sweeps)
  return (f, outcome)

def markers (f : Function) (kind : KernelKind) : List Stage :=
  (f.collect fun o => o.kind = .kernel kind).filterMap fun op => (f.op? op).bind (·.marker)

def least : List Stage → Option Stage
  | [] => none
  | stage :: stages => some (stages.foldl min stage)

def stripMarkers (f : Function) : Function :=
  (f.collect (·.kind.isLinalg)).foldl Function.stripMarker f

def run (plan : KernelPlan) (maxSweeps : Nat) (f : Function) : Logged (Function × Outcome) := do
  let (f, tile) ← runRound plan maxSweeps f .tile
  let (f, canonicalize) ← runRound plan maxSweeps f .canonicalize
  let (f, foldViews) ← runRound plan maxSweeps f .foldViews
  let reached := least (markers f plan.kind)
  return (stripMarkers f,
    { reached
      changes := tile.changes + canonicalize.changes + foldViews.changes
      converged := tile.converged && canonicalize.converged && foldViews.converged })

end KernelLowering.Pipeline
