namespace KernelLowering

inductive RuleName where
  | tiling
  | promotion
  | viewFolding
  | reallocation
  | trivialLoops
  | additionFolding
  | offsetFolding
  deriving DecidableEq, Repr

def RuleName.text : RuleName → String
  | .tiling => "LinalgTiling"
  | .promotion => "LinalgPromotion"
  | .viewFolding => "FoldSubViews"
  | .reallocation => "RemoveSubViews"
  | .trivialLoops => "SimplifyTrivialLoops"
  | .additionFolding => "FoldAddIConstants"
  | .offsetFolding => "FoldSubViewConstantOffsets"

end KernelLowering
