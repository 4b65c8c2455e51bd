import KernelLowering.Program.Operation

namespace KernelLowering

inductive Declined where
  | wrongKind
  | markerMismatch (expected found : Option Stage)
  | unsupportedOperands
  | tileRankMismatch (rank got : Nat)
  | invalidInterchange
  | nothingToPromote
  | sourceNotSubView
  | layoutMismatch
  | incompatibleWindow
  | sourceNotViewOfAlloc
  | noTrivialLoop
  | nothingToFold
  deriving DecidableEq, Repr

def Declined.message : Declined → String
  | wrongKind => "Op kind does not match the rule"
  | markerMismatch expected found =>
      "Expected marker " ++ Stage.optionLabel expected ++ ", found " ++ Stage.optionLabel found
  | unsupportedOperands => "Operands are not shaped like the kernel expects"
  | tileRankMismatch rank got => s!"Expected at most {rank} tile sizes, got {got}"
  | invalidInterchange => "Interchange is not a permutation of the loop dimensions"
  | nothingToPromote => "No designated operand is a sub-view"
  | sourceNotSubView => "Sub-view source is not itself a sub-view"
  | layoutMismatch => "Chained sub-views have different index mappings"
  | incompatibleWindow => "Outer window does not fit the inner view"
  | sourceNotViewOfAlloc => "Sub-view source is not a view of an allocation"
  | noTrivialLoop => "No trivial loop dimension"
  | nothingToFold => "Nothing to fold"

abbrev Inspect := ExceptT Declined (Except Fault)

namespace Inspect

def orDecline {α : Type} (reason : Declined) : Option α → Inspect α
  | some a => pure a
  | none => throw reason

def relyOn {α : Type} (rule : RuleName) (inspection : Inspect α) : Except Fault α := do
  match ← inspection.run with
  | .ok a => return a
  | .error _ => throw (.uncheckedUse rule)

end Inspect

end KernelLowering
