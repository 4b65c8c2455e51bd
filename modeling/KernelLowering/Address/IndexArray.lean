import KernelLowering.Checked

namespace KernelLowering

structure IndexArray where
  shape : List Nat
  element : List Nat → Int

structure AxisSlice where
  first : Int
  stride : Int
  count : Nat
  deriving DecidableEq, Repr

namespace AxisSlice

def index (s : AxisSlice) (i : Nat) : Nat := (s.first + i * s.stride).toNat

def stepCount (length width : Nat) : Nat := length / width + if length % width = 0 then 0 else 1

def normalizedEnd (length : Nat) (stop : Int) : Except Fault Int :=
  if 0 ≤ stop then .ok stop
  else if 0 ≤ length + stop then .ok (length + stop)
  else .error .overflow

def select (length : Nat) (start stop stride : Int) : Except Fault AxisSlice := do
  if stride = 0 then
    throw .failedAssertion
  let stop := max (← normalizedEnd length stop) start
  if length < start ∨ length < stop then
    throw .failedAssertion
  let width ← Checked.fit stride.natAbs
  return {
    first := if stride < 0 then stop - 1 else start
    stride
    count := stepCount (stop - start).toNat width.toNat }

end AxisSlice

namespace IndexArray

def indices : List Nat → List (List Nat)
  | [] => [[]]
  | extent :: rest => (List.range extent).flatMap fun i => (indices rest).map (i :: ·)

def position (shape index : List Nat) : Nat :=
  (shape.zip index).foldl (fun position (extent, i) => position * extent + i) 0

def rowMajor (shape : List Nat) : IndexArray := ⟨shape, fun index => position shape index⟩

def slice (a : IndexArray) (slices : List AxisSlice) : IndexArray where
  shape := slices.map (·.count)
  element index := a.element ((slices.zip index).map fun (s, i) => s.index i)

def toList (a : IndexArray) : List Int :=
  if 0 ∈ a.shape then [] else (indices a.shape).map a.element

theorem length_of_mem_indices {shape index : List Nat} (h : index ∈ indices shape) :
    index.length = shape.length := by
  induction shape generalizing index with
  | nil => simp_all [indices]
  | cons extent rest ih =>
      simp only [indices, List.mem_flatMap, List.mem_map] at h
      obtain ⟨i, _, tail, ht, rfl⟩ := h
      simp [ih ht]

theorem indices_eq_nil_of_mem {shape : List Nat} (h : 0 ∈ shape) : indices shape = [] := by
  induction shape with
  | nil => simp at h
  | cons extent rest ih =>
      rcases List.mem_cons.mp h with rfl | h
      · rfl
      · simp [indices, ih h]

theorem toList_eq_map (a : IndexArray) : a.toList = (indices a.shape).map a.element := by
  unfold toList
  split
  · next h => simp [indices_eq_nil_of_mem h]
  · rfl

end IndexArray

end KernelLowering
