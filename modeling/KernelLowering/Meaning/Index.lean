import KernelLowering.LoopRange
import Mathlib.Data.List.Perm.Basic

namespace KernelLowering

def LoopRange.values (r : LoopRange) : List Int :=
  (List.range ((r.upper - r.lower + (r.step - 1)) / r.step).toNat).map fun i : Nat => r.lower + i * r.step

def tuples : List (List Int) → List (List Int)
  | [] => [[]]
  | column :: columns => column.flatMap fun i => (tuples columns).map (i :: ·)

def upTo (extent : Int) : List Int := (List.range extent.toNat).map Nat.cast

def box (shape : List Int) : List (List Int) := tuples (shape.map upTo)

theorem mem_upTo {extent i : Int} : i ∈ upTo extent ↔ 0 ≤ i ∧ i < extent := by
  simp only [upTo, List.mem_map, List.mem_range]
  constructor
  · rintro ⟨n, hn, rfl⟩
    omega
  · rintro ⟨h, h'⟩
    exact ⟨i.toNat, by omega, by omega⟩

theorem mem_tuples {columns : List (List Int)} {i : List Int} :
    i ∈ tuples columns ↔ List.Forall₂ (· ∈ ·) i columns := by
  induction columns generalizing i with
  | nil => simp [tuples]
  | cons column columns ih =>
    simp only [tuples, List.mem_flatMap, List.mem_map]
    constructor
    · rintro ⟨x, hx, rest, hrest, rfl⟩
      exact .cons hx (ih.1 hrest)
    · rintro (_ | ⟨hx, hrest⟩)
      exact ⟨_, hx, _, ih.2 hrest, rfl⟩

theorem mem_box {shape i : List Int} :
    i ∈ box shape ↔ List.Forall₂ (fun x extent => 0 ≤ x ∧ x < extent) i shape := by
  rw [box, mem_tuples, List.forall₂_map_right_iff]
  simp only [mem_upTo]

theorem length_of_mem_box {shape i : List Int} (h : i ∈ box shape) : i.length = shape.length :=
  (mem_box.1 h).length_eq

theorem LoopRange.mem_values {r : LoopRange} {i : Int} :
    i ∈ r.values ↔ r.lower ≤ i ∧ i < r.upper ∧ r.step ∣ i - r.lower := by
  have hstep := r.step_pos
  simp only [values, List.mem_map, List.mem_range]
  constructor
  · rintro ⟨n, hn, rfl⟩
    have hn' : (n : Int) + 1 ≤ (r.upper - r.lower + (r.step - 1)) / r.step := by omega
    have hmul := (Int.le_ediv_iff_mul_le hstep).1 hn'
    rw [Int.add_mul] at hmul
    have hpos : 0 ≤ (n : Int) * r.step := Int.mul_nonneg (by omega) (Int.le_of_lt hstep)
    exact ⟨by omega, by omega, n, by rw [Int.mul_comm]; omega⟩
  · rintro ⟨hl, hu, n, hn⟩
    have hpos : 0 ≤ n := by
      by_contra h
      have := Int.mul_neg_of_pos_of_neg hstep (by omega : n < 0)
      omega
    have hle : n + 1 ≤ (r.upper - r.lower + (r.step - 1)) / r.step := by
      rw [Int.le_ediv_iff_mul_le hstep, Int.add_mul, Int.mul_comm]
      omega
    refine ⟨n.toNat, by omega, ?_⟩
    rw [Int.toNat_of_nonneg hpos, Int.mul_comm]
    omega

theorem LoopRange.values_of_empty {r : LoopRange} (h : r.upper ≤ r.lower) : r.values = [] := by
  rw [List.eq_nil_iff_forall_not_mem]
  intro i hi
  have := mem_values.1 hi
  omega

end KernelLowering
