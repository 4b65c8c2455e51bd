import KernelLowering.Address.Evaluation
import KernelLowering.Proofs.Layout.Windows
import Mathlib.Algebra.Order.Group.Unbundled.Int
import Mathlib.Tactic.Linarith
import Mathlib.Tactic.Ring

namespace KernelLowering

namespace AxisSlice

theorem stepCount_eq {size stride : Int} (hsize : 1 ≤ size) (hstride : 1 ≤ stride) :
    stepCount ((size - 1) * stride + 1).toNat stride.toNat = size.toNat := by
  obtain ⟨n, rfl⟩ : ∃ n : Nat, size = n + 1 := ⟨(size - 1).toNat, by omega⟩
  obtain ⟨m, rfl⟩ : ∃ m : Nat, stride = m + 1 := ⟨(stride - 1).toNat, by omega⟩
  have hlength : (((n : Int) + 1 - 1) * (m + 1) + 1).toNat = 1 + (m + 1) * n := by
    rw [Int.add_sub_cancel, ← Int.toNat_natCast (1 + (m + 1) * n)]
    push_cast
    ring_nf
  rw [hlength, stepCount, show ((m : Int) + 1).toNat = m + 1 by omega,
    Nat.add_mul_div_left _ _ m.succ_pos, Nat.add_mul_mod_self_left]
  cases m with
  | zero => simp; omega
  | succ m =>
    rw [Nat.div_eq_of_lt (by omega), Nat.mod_eq_of_lt (by omega), if_neg one_ne_zero]
    omega

theorem stepCount_eq_zero {length width : Nat} : stepCount length width = 0 ↔ length = 0 := by
  constructor
  · intro h
    have hrest : length % width = 0 := by
      by_contra hrest
      simp [stepCount, hrest] at h
    have hquotient : length / width = 0 := by simpa [stepCount, hrest] using h
    rw [← Nat.div_add_mod length width, hquotient, hrest, Nat.mul_zero]
  · rintro rfl
    simp [stepCount]

theorem stepCount_one {width : Nat} (h : 1 ≤ width) : stepCount 1 width = 1 := by
  rcases h.eq_or_lt with rfl | h
  · rfl
  · rw [stepCount, Nat.div_eq_of_lt h, Nat.mod_eq_of_lt h, if_neg one_ne_zero]

theorem normalizedEnd_eq_ok {length : Nat} {stop n : Int} : normalizedEnd length stop = .ok n ↔
    0 ≤ stop ∧ n = stop ∨ stop < 0 ∧ 0 ≤ length + stop ∧ n = length + stop := by
  unfold normalizedEnd
  split
  · simp only [Except.ok.injEq]
    omega
  · split
    · simp only [Except.ok.injEq]
      omega
    · simp only [reduceCtorEq, false_iff]
      omega

variable {length : Nat} {start stop stride : Int} {slice : AxisSlice}

theorem select_iff (hstride : stride ≠ 0) : select length start stop stride = .ok slice ↔
    ∃ n, normalizedEnd length stop = .ok n ∧ start ≤ length ∧ max n start ≤ length ∧
      Checked.Fits stride.natAbs ∧ slice = ⟨if stride < 0 then max n start - 1 else start, stride,
        stepCount (max n start - start).toNat stride.natAbs⟩ := by
  simp only [select, if_neg hstride, Fault.bind_eq_ok]
  refine exists_congr fun n => and_congr_right fun _ => ?_
  by_cases hbounds : (length : Int) < start ∨ (length : Int) < max n start
  · simp only [if_pos hbounds]
    constructor
    · rintro ⟨_, ⟨⟩, -⟩
    · rintro ⟨h, h', -⟩
      omega
  · simp only [if_neg hbounds, Fault.bind_eq_ok, Checked.fit_eq_ok]
    constructor
    · rintro ⟨_, ⟨hwidth, rfl⟩, ⟨⟩⟩
      exact ⟨by omega, by omega, hwidth, rfl⟩
    · rintro ⟨-, -, hwidth, rfl⟩
      exact ⟨_, ⟨hwidth, rfl⟩, rfl⟩

theorem select_eq_ok (hstart : 0 ≤ start) (hstop : start ≤ stop) (hlength : stop ≤ length)
    (hstride : 1 ≤ stride) : select length start stop stride = .ok slice ↔
      stride ≤ Checked.maxValue ∧
        ⟨start, stride, stepCount (stop - start).toNat stride.toNat⟩ = slice := by
  have hfits : Checked.Fits stride.natAbs ↔ stride ≤ Checked.maxValue := by
    rw [Int.natAbs_of_nonneg (by omega)]
    exact ⟨And.right, fun h => ⟨by rw [Checked.minValue]; omega, h⟩⟩
  rw [select_iff (by omega)]
  constructor
  · rintro ⟨n, hn, -, -, hwidth, rfl⟩
    obtain rfl : n = stop := by have := normalizedEnd_eq_ok.1 hn; omega
    refine ⟨hfits.1 hwidth, ?_⟩
    rw [max_eq_left hstop, if_neg (by omega), show stride.natAbs = stride.toNat by omega]
  · rintro ⟨hwidth, rfl⟩
    refine ⟨stop, normalizedEnd_eq_ok.2 (.inl ⟨by omega, rfl⟩), by omega, by omega, hfits.2 hwidth, ?_⟩
    rw [max_eq_left hstop, if_neg (by omega), show stride.natAbs = stride.toNat by omega]

end AxisSlice

namespace Window

structure Reaches (first size stride : Int) (extent : Nat) : Prop where
  nonneg : 0 ≤ first
  within : first + (size - 1) * stride < extent
  stop : first + (size - 1) * stride + 1 ≤ Checked.maxValue
  width : stride ≤ Checked.maxValue

inductive Slices : List Int → Shape → List Int → List Nat → List AxisSlice → Prop
  | nil : Slices [] [] [] [] []
  | cons {first size stride : Int} {extent : Nat} {starts sizes strides : List Int}
      {extents : List Nat} {slices : List AxisSlice} (hreaches : Reaches first size stride extent)
      (hrest : Slices starts sizes strides extents slices) :
      Slices (first :: starts) (size :: sizes) (stride :: strides) (extent :: extents)
        (⟨first, stride, size.toNat⟩ :: slices)

section Axis

variable {w : Window} {axis : Nat} {first size stride : Int} {extent : Nat}

theorem span_eq_ok (hsize : w.sizes[axis]? = some size) (hstride : w.strides[axis]? = some stride)
    {d : Int} : Address.span w axis = .ok d ↔
      Checked.Fits (size - 1) ∧ Checked.Fits ((size - 1) * stride) ∧ (size - 1) * stride = d := by
  simp only [Address.span, hsize, hstride, Fault.require_some, Fault.ok_bind, Fault.bind_eq_ok,
    Checked.sub_eq_ok, Checked.mul_eq_ok]
  constructor
  · rintro ⟨_, ⟨h, rfl⟩, h', rfl⟩
    exact ⟨h, h', rfl⟩
  · rintro ⟨h, h', rfl⟩
    exact ⟨_, ⟨h, rfl⟩, h', rfl⟩

theorem Reaches.fits (h : Reaches first size stride extent) (hsize : 1 ≤ size)
    (hstride : 1 ≤ stride) : Checked.Fits (size - 1) ∧ Checked.Fits ((size - 1) * stride) ∧
      Checked.Fits (first + (size - 1) * stride) ∧
        Checked.Fits (first + (size - 1) * stride + 1) := by
  have hfirst := h.nonneg
  have hstop := h.stop
  have hsteps : size - 1 ≤ (size - 1) * stride := le_mul_of_one_le_right (by omega) hstride
  have hmin : Checked.minValue ≤ 0 := by decide
  refine ⟨⟨?_, ?_⟩, ⟨?_, ?_⟩, ⟨?_, ?_⟩, ⟨?_, ?_⟩⟩ <;> omega

theorem found_checkAxis {shape : List Nat} {v : ValueId} :
    Found (Address.checkAxis w shape v axis first) () ↔ ∃ d, Address.span w axis = .ok d ∧
      Checked.Fits (first + d) ∧ 0 ≤ first ∧ ∃ extent : Nat, shape[axis]? = some extent ∧
        first + d < extent := by
  have hthrow : ∀ next : Unit → Eval Unit, ¬ Found (throw (.outOfBounds v) >>= next) () := by simp
  simp only [Address.checkAxis, Found.bind_iff, Found.lift_iff, Checked.add_eq_ok, Address.extentOf,
    Fault.require_eq_ok, Found.ite_iff (hthrow _), Found.ite_iff Found.throw_iff, existsAndEq,
    Found.pure_iff, not_lt, not_le, and_true]

theorem axis_iff (hsize : w.sizes[axis]? = some size) (hstride : w.strides[axis]? = some stride)
    (hpos : 1 ≤ size) (hstep : 1 ≤ stride) {shape : List Nat} (hextent : shape[axis]? = some extent)
    {starts : List Int} (hfirst : starts[axis]? = some first) {v : ValueId} {slice : AxisSlice} :
    Found (Address.checkAxis w shape v axis first) () ∧
        Address.sliceAxis w starts axis extent = .ok slice ↔
      Reaches first size stride extent ∧ ⟨first, stride, size.toNat⟩ = slice := by
  have hsteps : 0 ≤ (size - 1) * stride := mul_nonneg (by omega) (by omega)
  simp only [found_checkAxis, hextent, Address.sliceAxis, hfirst, hstride, Fault.require_some,
    Fault.ok_bind, Fault.bind_eq_ok, Checked.add_eq_ok, span_eq_ok hsize hstride, Option.some.injEq,
    exists_eq_left']
  constructor
  · rintro ⟨⟨_, ⟨-, -, rfl⟩, -, hnonneg, hlast⟩, _, ⟨-, -, rfl⟩, _, ⟨-, rfl⟩, _, ⟨hstop, rfl⟩, h⟩
    rw [AxisSlice.select_eq_ok hnonneg (by omega) (by omega) hstep] at h
    have hlength : first + (size - 1) * stride + 1 - first = (size - 1) * stride + 1 := by omega
    rw [hlength, AxisSlice.stepCount_eq hpos hstep] at h
    exact ⟨⟨hnonneg, hlast, hstop.2, h.1⟩, h.2⟩
  · rintro ⟨h, rfl⟩
    obtain ⟨hsteps₁, hsteps₂, hlast, hstop⟩ := h.fits hpos hstep
    refine ⟨⟨_, ⟨hsteps₁, hsteps₂, rfl⟩, hlast, h.nonneg, h.within⟩, _,
      ⟨hsteps₁, hsteps₂, rfl⟩, _, ⟨hlast, rfl⟩, _, ⟨hstop, rfl⟩, ?_⟩
    have hwithin := h.within
    have hnonneg := h.nonneg
    rw [AxisSlice.select_eq_ok hnonneg (by omega) (by omega) hstep]
    have hlength : first + (size - 1) * stride + 1 - first = (size - 1) * stride + 1 := by omega
    exact ⟨h.width, by rw [hlength, AxisSlice.stepCount_eq hpos hstep]⟩

end Axis

theorem drop_eq_cons {α : Type} {xs ys : List α} {n : Nat} {x : α} (h : xs.drop n = x :: ys) :
    xs[n]? = some x ∧ xs.drop (n + 1) = ys := by
  refine ⟨?_, by rw [← List.tail_drop, h]; rfl⟩
  rw [← Nat.add_zero n, ← List.getElem?_drop, h]
  rfl

theorem drop_eq_nil {α : Type} {xs : List α} {n : Nat} (h : xs.drop n = []) : xs[n]? = none := by
  rw [← Nat.add_zero n, ← List.getElem?_drop, h]
  rfl

theorem slices_iff {w : Window} {allStarts : List Int} {shape : List Nat} {v : ValueId} {n : Nat}
    {starts : List Int} {sizes : Shape} {strides : List Int} {extents : List Nat}
    {slices : List AxisSlice} (hstarts : allStarts.drop n = starts) (hsizes : w.sizes.drop n = sizes)
    (hstrides : w.strides.drop n = strides) (hshape : shape.drop n = extents)
    (hlength : sizes.length = starts.length) (hlength' : strides.length = starts.length)
    (hpos : ∀ size ∈ sizes, 1 ≤ size) (hstep : ∀ stride ∈ strides, 1 ≤ stride) :
    (∀ p ∈ starts.zipIdx n, Found (Address.checkAxis w shape v p.2 p.1) ()) ∧
        List.Forall₂ (fun p slice => Address.sliceAxis w allStarts p.2 p.1 = .ok slice)
          (extents.zipIdx n) slices ↔
      Slices starts sizes strides extents slices := by
  induction starts generalizing n sizes strides extents slices with
  | nil =>
    obtain rfl := List.eq_nil_of_length_eq_zero hlength
    obtain rfl := List.eq_nil_of_length_eq_zero hlength'
    constructor
    · rintro ⟨-, hall⟩
      cases extents with
      | nil =>
        cases hall
        exact .nil
      | cons extent extents =>
        obtain ⟨slice, rest, hslice, -, rfl⟩ := List.forall₂_cons_left_iff.1 hall
        obtain ⟨first, hfirst, -⟩ := Fault.bind_eq_ok.1 hslice
        cases (drop_eq_nil hstarts).symm.trans (Fault.require_eq_ok.1 hfirst)
    · rintro ⟨⟩
      simp
  | cons first starts ih =>
    obtain ⟨size, sizes, rfl⟩ := List.exists_cons_of_length_eq_add_one hlength
    obtain ⟨stride, strides, rfl⟩ := List.exists_cons_of_length_eq_add_one hlength'
    obtain ⟨hfirst, hstarts⟩ := drop_eq_cons hstarts
    obtain ⟨hsize, hsizes⟩ := drop_eq_cons hsizes
    obtain ⟨hstride, hstrides⟩ := drop_eq_cons hstrides
    rw [List.forall_mem_cons] at hpos hstep
    simp only [List.length_cons, Nat.add_right_cancel_iff] at hlength hlength'
    cases extents with
    | nil =>
      constructor
      · rintro ⟨hall, -⟩
        obtain ⟨_, -, -, -, extent, hextent, -⟩ := found_checkAxis.1 (hall (first, n) (by simp))
        cases (drop_eq_nil hshape).symm.trans hextent
      · rintro ⟨⟩
    | cons extent extents =>
      obtain ⟨hextent, hshape⟩ := drop_eq_cons hshape
      simp only [List.zipIdx_cons, List.forall_mem_cons, List.forall₂_cons_left_iff]
      constructor
      · rintro ⟨⟨hcheck, hchecks⟩, slice, slices, hslice, hslices, rfl⟩
        obtain ⟨hreaches, rfl⟩ := (axis_iff hsize hstride hpos.1 hstep.1 hextent hfirst).1
          ⟨hcheck, hslice⟩
        exact .cons hreaches ((ih hstarts hsizes hstrides hshape hlength hlength' hpos.2 hstep.2).1
          ⟨hchecks, hslices⟩)
      · rintro (_ | ⟨hreaches, hrest⟩)
        obtain ⟨hcheck, hslice⟩ := (axis_iff (v := v) hsize hstride hpos.1 hstep.1 hextent hfirst).2
          ⟨hreaches, rfl⟩
        obtain ⟨hchecks, hslices⟩ :=
          (ih hstarts hsizes hstrides hshape hlength hlength' hpos.2 hstep.2).2 hrest
        exact ⟨⟨hcheck, hchecks⟩, _, _, hslice, hslices, rfl⟩

def Shows (w : Window) (starts : List Int) (source a : IndexArray) : Prop :=
  ∃ slices, Slices starts w.sizes w.strides source.shape slices ∧ source.slice slices = a

theorem shows_iff {w : Window} {starts : List Int} {source a : IndexArray} {v : ValueId}
    (hw : Ranked w) (hlength : starts.length = w.offsets.length) :
    Found (starts.zipIdx.forM fun (first, axis) =>
        Address.checkAxis w source.shape v axis first) () ∧
      Address.windowElements w starts source = .ok a ↔ Shows w starts source a := by
  simp only [Found.forM_iff, Address.windowElements, Fault.bind_eq_ok, Fault.mapM_eq_ok, Shows,
    ← slices_iff (v := v) (List.drop_zero (l := starts)) List.drop_zero List.drop_zero
      (List.drop_zero (l := source.shape)) (hw.sizes.trans hlength.symm)
      (hw.strides.trans hlength.symm) hw.size_pos hw.stride_pos]
  constructor
  · rintro ⟨hchecks, slices, hslices, ⟨⟩⟩
    exact ⟨slices, ⟨hchecks, hslices⟩, rfl⟩
  · rintro ⟨slices, ⟨hchecks, hslices⟩, rfl⟩
    exact ⟨hchecks, slices, hslices, rfl⟩

theorem Reaches.compose {first first' size size' stride : Int} {extent : Nat} (hpos : 1 ≤ size)
    (hstep : 1 ≤ stride) (h' : Reaches first' size' 1 extent)
    (h : Reaches first size stride size'.toNat) : Reaches (first + first') size stride extent := by
  have hsteps : 0 ≤ (size - 1) * stride := mul_nonneg (by omega) (by omega)
  have hnonneg := h.nonneg
  have hnonneg' := h'.nonneg
  have hwithin := h.within
  have hwithin' := h'.within
  have hstop' := h'.stop
  exact ⟨by omega, by omega, by omega, h.width⟩

theorem index_index {first first' stride : Int} {count count' : Nat} (hfirst : 0 ≤ first) (hstep : 0 ≤ stride)
    (i : Nat) : AxisSlice.index ⟨first', 1, count'⟩ (AxisSlice.index ⟨first, stride, count⟩ i) =
      AxisSlice.index ⟨first + first', stride, count⟩ i := by
  have hsteps : 0 ≤ (i : Int) * stride := mul_nonneg (by omega) hstep
  simp only [AxisSlice.index]
  omega

theorem Slices.compose {starts starts' : List Int} {sizes sizes' : Shape}
    {strides strides' : List Int} {extents : List Nat} {slices slices' : List AxisSlice}
    (h' : Slices starts' sizes' strides' extents slices') (hones : ∀ stride ∈ strides', stride = 1)
    (h : Slices starts sizes strides (slices'.map (·.count)) slices)
    (hpos : ∀ size ∈ sizes, 1 ≤ size) (hstep : ∀ stride ∈ strides, 1 ≤ stride) :
    ∃ combined, Slices (List.zipWith (· + ·) starts starts') sizes strides extents combined ∧
      combined.map (·.count) = slices.map (·.count) ∧
        ∀ index : List Nat, (combined.zip index).map (fun (s, i) => s.index i) =
          (slices'.zip ((slices.zip index).map fun (s, i) => s.index i)).map fun (s, i) => s.index i := by
  induction h' generalizing starts sizes strides slices with
  | nil =>
    cases h
    exact ⟨[], .nil, rfl, fun _ => rfl⟩
  | @cons first' size' stride' extent starts' sizes' strides' extents slices' hreaches' _ ih =>
    rw [List.forall_mem_cons] at hones
    obtain ⟨rfl, hones⟩ := hones
    cases h with
    | cons hreaches hrest =>
      rw [List.forall_mem_cons] at hpos hstep
      obtain ⟨combined, hcombined, hcount, hindex⟩ := ih hones hrest hpos.2 hstep.2
      refine ⟨_, .cons (hreaches'.compose hpos.1 hstep.1 hreaches) hcombined,
        congrArg (List.cons _) hcount, fun index => ?_⟩
      cases index with
      | nil => rfl
      | cons i index =>
        exact List.cons_eq_cons.2 ⟨(index_index hreaches.nonneg (by omega) i).symm, hindex index⟩

theorem Slices.fits {starts : List Int} {sizes : Shape} {strides : List Int} {extents : List Nat}
    {slices : List AxisSlice} (h : Slices starts sizes strides extents slices)
    (hpos : ∀ size ∈ sizes, 1 ≤ size) (hstep : ∀ stride ∈ strides, 1 ≤ stride) :
    ∀ first ∈ starts, Checked.Fits first := by
  induction h with
  | nil => simp
  | @cons first size stride _ _ _ _ _ _ hreaches _ ih =>
    rw [List.forall_mem_cons] at hpos hstep ⊢
    refine ⟨?_, ih hpos.2 hstep.2⟩
    have hnonneg := hreaches.nonneg
    have hlast := (hreaches.fits hpos.1 hstep.1).2.2.1
    have hsteps : 0 ≤ (size - 1) * stride := mul_nonneg (by omega) (by omega)
    have hmin : Checked.minValue ≤ 0 := by decide
    exact ⟨by omega, by have := hlast.2; omega⟩

theorem Shows.compose {w w' : Window} {starts starts' : List Int} {source a a' : IndexArray}
    (h' : Shows w' starts' source a) (hones : ∀ stride ∈ w'.strides, stride = 1)
    (h : Shows w starts a a') (hw : Ranked w) (offsets : List Offset) :
    Shows { w with offsets } (List.zipWith (· + ·) starts starts') source a' := by
  obtain ⟨slices', hslices', rfl⟩ := h'
  obtain ⟨slices, hslices, rfl⟩ := h
  obtain ⟨combined, hcombined, hcount, hindex⟩ :=
    hslices'.compose hones hslices hw.size_pos hw.stride_pos
  refine ⟨combined, hcombined, ?_⟩
  simp only [IndexArray.slice, hcount, hindex]

end Window

end KernelLowering
