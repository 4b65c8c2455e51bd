import KernelLowering.Rule.IndexFolding
import KernelLowering.Rule.Promotion
import KernelLowering.Rule.Reallocation
import KernelLowering.Rule.Tiling
import KernelLowering.Rule.TrivialLoops

namespace KernelLowering

inductive Rule where
  | tiling (tiling : Tiling)
  | promotion (promotion : Promotion)
  | viewFolding
  | reallocation (space : MemorySpace)
  | trivialLoops
  | additionFolding
  | offsetFolding
  deriving DecidableEq, Repr

namespace Rule

def name : Rule → RuleName
  | tiling _ => .tiling
  | promotion _ => .promotion
  | viewFolding => .viewFolding
  | reallocation _ => .reallocation
  | trivialLoops => .trivialLoops
  | additionFolding => .additionFolding
  | offsetFolding => .offsetFolding

def check : Rule → Function → OpId → Inspect Unit
  | tiling t => t.check
  | promotion p => p.check
  | viewFolding => ViewFolding.check
  | reallocation _ => Reallocation.check
  | trivialLoops => TrivialLoops.check
  | additionFolding => AdditionFolding.check
  | offsetFolding => OffsetFolding.check

def perform : Rule → OpId → Build Unit
  | tiling t => t.perform
  | promotion p => p.perform
  | viewFolding => ViewFolding.perform
  | reallocation space => Reallocation.perform space
  | trivialLoops => TrivialLoops.perform
  | additionFolding => AdditionFolding.perform
  | offsetFolding => OffsetFolding.perform

def performAt (rule : Rule) (f : Function) (op : OpId) : Except Fault Function :=
  (·.2) <$> (rule.perform op).runOn f (.before op)

def apply (rule : Rule) (f : Function) (op : OpId) : Inspect Function := do
  rule.check f op
  rule.performAt f op

def reallocationSpace : MemorySpace := .l1

def canonicalization : List Rule := [trivialLoops, additionFolding, offsetFolding]

def viewCleanup : List Rule := [reallocation reallocationSpace, viewFolding]

end Rule

end KernelLowering
