import KernelLowering.Kernel.TileSizes
import Mathlib.Algebra.Group.Int.Defs

namespace KernelLowering

theorem Logged.outcome_mapM {α β : Type} (g : α → Logged β) (xs : List α) :
    (xs.mapM g).outcome = xs.mapM fun x => (g x).outcome := by
  have hloop : ∀ ys : List β, (List.mapM.loop g xs ys).outcome =
      List.mapM.loop (fun x => (g x).outcome) xs ys := by
    induction xs with
    | nil => exact fun _ => rfl
    | cons x xs ih =>
      intro ys
      simp only [List.mapM.loop, Logged.outcome_bind, ih]
  exact hloop []

theorem Checked.mapM_mul (pairs : List (Int × Int)) :
    (pairs.mapM fun pair => mul pair.1 pair.2) =
      if ∀ pair ∈ pairs, Fits (pair.1 * pair.2) then Except.ok (pairs.map fun pair => pair.1 * pair.2)
      else Except.error .overflow := by
  induction pairs with
  | nil => rfl
  | cons pair pairs ih =>
    rw [List.mapM_cons, ih]
    simp only [List.forall_mem_cons]
    by_cases hpair : Fits (pair.1 * pair.2)
    · by_cases hpairs : ∀ pair ∈ pairs, Fits (pair.1 * pair.2)
      · rw [if_pos hpairs, if_pos ⟨hpair, hpairs⟩, mul, fit_of_fits hpair]
        rfl
      · rw [if_neg hpairs, if_neg (mt And.right hpairs), mul, fit_of_fits hpair]
        rfl
    · rw [mul, fit, if_neg hpair, if_neg (mt And.left hpair)]
      rfl

namespace TileSizes

def l1Size (l1Tile : List Int) (i : Nat) : Int := (l1Tile[i]?).getD 32

def herdFactor (herdSize : List Int) (i : Nat) : Int := (herdSize[i]?).getD 2

def scaledSize (herdSize l1Tile : List Int) (i : Nat) : Int :=
  l1Size l1Tile i * herdFactor herdSize i

def l2Size (herdSize l1Tile l2Tile : List Int) (i : Nat) : Int :=
  (l2Tile[i]?).getD (scaledSize herdSize l1Tile i)

/-- Every compute-tile size can be scaled by its herd factor. -/
def Scales (herdSize l1Tile : List Int) : Prop :=
  ∀ i < 3, Checked.Fits (scaledSize herdSize l1Tile i)

instance (herdSize l1Tile : List Int) : Decidable (Scales herdSize l1Tile) :=
  inferInstanceAs (Decidable (∀ i < 3, Checked.Fits (scaledSize herdSize l1Tile i)))

theorem overrideWith_map_range (default : Nat → Int) (rank : Nat) (configured : List Int) :
    overrideWith ((List.range rank).map default) configured =
      (List.range rank).map fun i => (configured[i]?).getD (default i) := by
  refine List.ext_getElem? fun i => ?_
  simp only [getElem?_overrideWith, List.getElem?_map]
  by_cases hi : i < rank
  · simp [List.getElem?_range hi]
  · have hnone : (List.range rank)[i]? = none := List.getElem?_eq_none (by simpa using hi)
    simp [hnone]

theorem mapM_scaled (herdSize l1Tile : List Int) :
    ((((List.range 3).map (l1Size l1Tile)).zip ((List.range 3).map (herdFactor herdSize))).mapM
      fun pair => Checked.mul pair.1 pair.2) =
        if Scales herdSize l1Tile then .ok ((List.range 3).map (scaledSize herdSize l1Tile))
        else .error .overflow := by
  rw [List.zip_map', Checked.mapM_mul, List.map_map]
  have hiff : (∀ pair ∈ (List.range 3).map fun i => (l1Size l1Tile i, herdFactor herdSize i),
      Checked.Fits (pair.1 * pair.2)) ↔ Scales herdSize l1Tile := by
    simp [Scales, scaledSize]
  simp only [hiff]
  rfl

theorem outcome_matmul (herdSize l1Tile l2Tile : List Int) :
    (matmul herdSize l1Tile l2Tile).outcome =
      if Scales herdSize l1Tile then
        .ok ((List.range 3).map (l1Size l1Tile),
          (List.range 3).map (l2Size herdSize l1Tile l2Tile))
      else .error .overflow := by
  have hl1 : overrideWith defaultL1Tile l1Tile = (List.range 3).map (l1Size l1Tile) :=
    overrideWith_map_range (fun _ => 32) 3 l1Tile
  have hherd : overrideWith defaultHerd herdSize = (List.range 3).map (herdFactor herdSize) :=
    overrideWith_map_range (fun _ => 2) 3 herdSize
  have hl2 : overrideWith ((List.range 3).map (scaledSize herdSize l1Tile)) l2Tile =
      (List.range 3).map (l2Size herdSize l1Tile l2Tile) := overrideWith_map_range _ 3 l2Tile
  simp only [matmul, herd, Logged.outcome_bind, outcome_override, Fault.ok_bind, hl1, hherd,
    Logged.outcome_mapM, Logged.outcome_lift, mapM_scaled]
  by_cases hscales : Scales herdSize l1Tile
  · rw [if_pos hscales, if_pos hscales, Fault.ok_bind]
    rw [hl2]
    rfl
  · rw [if_neg hscales, if_neg hscales]
    rfl

theorem outcome_matmul_overflows :
    (∀ i < 3, Checked.Fits (l1Size [2 ^ 62] i) ∧ Checked.Fits (l2Size [] [2 ^ 62] [64, 64, 64] i)) ∧
      (matmul [] [2 ^ 62] [64, 64, 64]).outcome = .error .overflow :=
  ⟨by decide, rfl⟩

end TileSizes

end KernelLowering
