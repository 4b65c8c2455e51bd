namespace KernelLowering

structure LoweringOptions where
  viewsOnly : Bool
  herdSize : List Nat
  l1TileSize : List Int
  l2TileSize : List Int
  l1Size : Nat
  promoteL2 : Bool
  maxSweeps : Nat
  deriving DecidableEq, Repr

def LoweringOptions.default : LoweringOptions where
  viewsOnly := false
  herdSize := []
  l1TileSize := []
  l2TileSize := []
  l1Size := 32768
  promoteL2 := false
  maxSweeps := 10

end KernelLowering
