import KernelLowering.Rule.StageGuard

namespace KernelLowering

inductive LoopStyle where
  | sequential
  | parallel
  deriving DecidableEq, Repr

structure TilingOptions where
  tileSizes : List Int
  interchange : List Nat
  style : LoopStyle
  deriving DecidableEq, Repr

namespace TilingOptions

def loopOrder? (options : TilingOptions) (rank : Nat) : Option (List Nat) :=
  let order := if options.interchange.isEmpty then List.range rank else options.interchange
  if order.isPerm (List.range rank) then some order else none

def clampedTiles (options : TilingOptions) (extents : List Int) : List Int :=
  extents.zipIdx.map fun (extent, d) => min (max ((options.tileSizes[d]?).getD 0) 0) extent

@[simp] theorem length_clampedTiles (options : TilingOptions) (extents : List Int) :
    (options.clampedTiles extents).length = extents.length := by
  simp [clampedTiles]

end TilingOptions

structure TilePlan where
  operandTypes : List BufferType
  extents : List Int
  tiles : List Int
  order : List Nat
  deriving DecidableEq, Repr

structure Nest where
  ranges : List LoopRange
  sizes : List Int
  deriving DecidableEq, Repr

namespace Nest

def restrict (nest : Nest) (d : Nat) (piece : LoopRange × Int) : Nest :=
  ⟨nest.ranges.set d piece.1, nest.sizes.set d piece.2⟩

@[simp] theorem length_ranges_restrict (nest : Nest) (d : Nat) (piece : LoopRange × Int) :
    (nest.restrict d piece).ranges.length = nest.ranges.length := by
  simp [restrict]

@[simp] theorem length_sizes_restrict (nest : Nest) (d : Nat) (piece : LoopRange × Int) :
    (nest.restrict d piece).sizes.length = nest.sizes.length := by
  simp [restrict]

end Nest

namespace TilePlan

def wholeRange (extent : Int) : LoopRange :=
  ⟨0, extent, max extent 1, by omega⟩

def pieces (extent tile : Int) : Except Fault (List (LoopRange × Int)) := do
  let rest := extent % tile
  let full := (← LoopRange.make 0 (extent - rest) tile, tile)
  if 0 < rest then
    return [full, (← LoopRange.make (extent - rest) extent rest, rest)]
  else
    return [full]

def splitAlong (plan : TilePlan) (nests : List Nest) (d : Nat) : Except Fault (List Nest) := do
  let extent ← Fault.indexOutOfBounds.require plan.extents[d]?
  let tile ← Fault.indexOutOfBounds.require plan.tiles[d]?
  let pieces ← pieces extent tile
  return nests.flatMap fun nest => pieces.map (nest.restrict d)

def nests (plan : TilePlan) : Except Fault (List Nest) :=
  plan.order.foldlM plan.splitAlong [⟨plan.extents.map wholeRange, plan.extents⟩]

def make (kind : KernelKind) (options : TilingOptions) (operandTypes : List BufferType) :
    Inspect TilePlan := do
  let extents ← Inspect.orDecline .unsupportedOperands (← kind.iterationExtents operandTypes)
  let rank := extents.length
  if rank < options.tileSizes.length then
    throw (.tileRankMismatch rank options.tileSizes.length)
  let tiles := options.clampedTiles extents
  let order ← Inspect.orDecline .invalidInterchange (options.loopOrder? rank)
  return { operandTypes, extents, tiles, order := order.filter fun d => 0 < tiles[d]?.getD 0 }

end TilePlan

end KernelLowering
