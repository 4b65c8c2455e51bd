import KernelLowering.Kernel.Kind
import KernelLowering.Log

namespace KernelLowering.TileSizes

def defaultHerd : List Int := [2, 2, 2]

def defaultL1Tile : List Int := [32, 32, 32]

def overrideWith : List Int → List Int → List Int
  | [], _ => []
  | defaults, [] => defaults
  | _ :: defaults, value :: configured => value :: overrideWith defaults configured

def override (option : SizeOption) (defaults configured : List Int) : Logged (List Int) := do
  let rank := defaults.length
  if rank < configured.length then
    Logged.report (.ignoredEntries option rank (configured.drop rank))
  return overrideWith defaults configured

def herd (configured : List Int) : Logged (List Int) := override .herd defaultHerd configured

def matmul (herdSize l1Tile l2Tile : List Int) : Logged (List Int × List Int) := do
  let herd ← herd herdSize
  let l1 ← override .l1Tile defaultL1Tile l1Tile
  let scaled ← (l1.zip herd).mapM fun (size, factor) => Checked.mul size factor
  let l2 ← override .l2Tile scaled l2Tile
  return (l1, l2)

def conv2d (operands : List BufferType) : Except Fault (Option (List Int × List Int)) := do
  let extents ← KernelKind.conv2d.iterationExtents operands
  match extents, operands.map (·.shape) with
  | some _, [[_, channels, height, width], [_, _, kh, kw], [_, filters, _, _]] =>
    let tile (filters : Int) := [1, filters, height / 4, width, kh, kw, channels]
    return some (tile filters, tile (filters / 4))
  | _, _ => return none

@[simp] theorem length_overrideWith (defaults configured : List Int) :
    (overrideWith defaults configured).length = defaults.length := by
  fun_induction overrideWith defaults configured <;> simp_all

theorem getElem?_overrideWith (defaults configured : List Int) (i : Nat) :
    (overrideWith defaults configured)[i]? =
      (defaults[i]?).map fun d => (configured[i]?).getD d := by
  fun_induction overrideWith defaults configured generalizing i with
  | case1 => simp
  | case2 => simp
  | case3 d ds v vs ih => cases i <;> simp [ih]

@[simp] theorem outcome_override (option : SizeOption) (defaults configured : List Int) :
    (override option defaults configured).outcome = .ok (overrideWith defaults configured) := by
  unfold override
  dsimp only
  split <;> rfl

end KernelLowering.TileSizes
