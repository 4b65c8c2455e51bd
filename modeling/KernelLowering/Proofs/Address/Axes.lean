import KernelLowering.Proofs.Address.Windows

namespace KernelLowering

theorem IndexArray.mem_indices {shape index : List Nat} :
    index ∈ indices shape ↔ List.Forall₂ (· < ·) index shape := by
  induction shape generalizing index with
  | nil => simp [indices]
  | cons extent rest ih =>
    simp only [indices, List.mem_flatMap, List.mem_range, List.mem_map, ih,
      List.forall₂_cons_right_iff]
    constructor
    · rintro ⟨i, hi, tail, htail, rfl⟩
      exact ⟨i, tail, hi, htail, rfl⟩
    · rintro ⟨i, tail, hi, htail, rfl⟩
      exact ⟨i, hi, tail, htail, rfl⟩

/-- How a window shows an axis of its source: from which index on, how many indices, how far from each
other, and how many there are. -/
structure Axis where
  first : Int
  size : Int
  stride : Int
  extent : Nat
  deriving DecidableEq

namespace Axis

variable {x : Axis} {w : Window} {starts : List Int} {axis : Nat}

def index (x : Axis) (i : Nat) : Int := x.first + i * x.stride

def span (x : Axis) : Int := (x.size - 1) * x.stride

def slice (x : Axis) : AxisSlice := ⟨x.first, x.stride, x.size.toNat⟩

/-- A window can be written like this: it has a size and a direction, and nothing overflows. -/
structure Regular (x : Axis) : Prop where
  size_nonneg : 0 ≤ x.size
  stride_ne : x.stride ≠ 0
  steps : Checked.Fits (x.size - 1)
  span : Checked.Fits x.span
  last : Checked.Fits (x.first + x.span)
  stop : Checked.Fits (x.first + x.span + 1)
  width : Checked.Fits x.stride.natAbs

def Inside (x : Axis) : Prop := 0 ≤ x.first ∧ x.first + x.span < x.extent

/-- The end behind the last index is one for a slice of what is shown. Of an axis that shows nothing it is
where it is an index not behind the first, or counts from the end of the axis to one. -/
def Sliceable (x : Axis) : Prop :=
  if x.size = 0 then
    1 ≤ x.stride ∧ x.first ≤ x.extent ∧
      (x.stride ≤ x.first + 1 ∨ x.extent < x.stride ∧ x.stride ≤ x.extent + x.first + 1)
  else x.size = 1 ∨ 1 ≤ x.stride

instance : Decidable x.Regular :=
  decidable_of_iff (0 ≤ x.size ∧ x.stride ≠ 0 ∧ Checked.Fits (x.size - 1) ∧ Checked.Fits x.span ∧
    Checked.Fits (x.first + x.span) ∧ Checked.Fits (x.first + x.span + 1) ∧
      Checked.Fits x.stride.natAbs)
    ⟨fun ⟨h₁, h₂, h₃, h₄, h₅, h₆, h₇⟩ => ⟨h₁, h₂, h₃, h₄, h₅, h₆, h₇⟩,
      fun ⟨h₁, h₂, h₃, h₄, h₅, h₆, h₇⟩ => ⟨h₁, h₂, h₃, h₄, h₅, h₆, h₇⟩⟩

instance : Decidable x.Inside := inferInstanceAs (Decidable (_ ∧ _))

instance : Decidable x.Sliceable := inferInstanceAs (Decidable (ite _ _ _))

theorem span_nonneg (hsize : 1 ≤ x.size) (hstride : 1 ≤ x.stride) : 0 ≤ x.span :=
  mul_nonneg (by omega) (by omega)

theorem span_neg (hsize : 2 ≤ x.size) (hstride : x.stride < 0) : x.span < 0 :=
  mul_neg_of_pos_of_neg (by omega) hstride

theorem span_of_one (h : x.size = 1) : x.span = 0 := by
  rw [span, h, sub_self, zero_mul]

theorem span_of_zero (h : x.size = 0) : x.span = -x.stride := by
  rw [span, h, zero_sub, neg_one_mul]

theorem index_zero : x.index 0 = x.first := by
  simp [index]

theorem index_last (hpos : 1 ≤ x.size) : x.index (x.size - 1).toNat = x.first + x.span := by
  rw [index, Int.toNat_of_nonneg (by omega), span]

theorem index_of_inside (hin : x.Inside) (hslice : x.Sliceable) {i : Nat} (hi : i < x.size) :
    0 ≤ x.index i ∧ x.index i < x.extent := by
  obtain ⟨hfirst, hend⟩ := hin
  rw [Sliceable, if_neg (by omega)] at hslice
  rcases hslice with hone | hstride
  · obtain rfl : i = 0 := by omega
    rw [span_of_one hone] at hend
    rw [index_zero]
    omega
  · have hnonneg : 0 ≤ (i : Int) * x.stride := mul_nonneg (by omega) (by omega)
    have hle : (i : Int) * x.stride ≤ x.span := mul_le_mul_of_nonneg_right (by omega) (by omega)
    rw [index]
    omega

theorem exists_outside (hpos : 1 ≤ x.size) (hnot : ¬ x.Inside) :
    ∃ i : Nat, i < x.size ∧ ¬ (0 ≤ x.index i ∧ x.index i < x.extent) := by
  by_contra hall
  have hfirst := not_and_not_right.1 (not_exists.1 hall 0) (by omega)
  have hlast := not_and_not_right.1 (not_exists.1 hall (x.size - 1).toNat) (by omega)
  rw [index_zero] at hfirst
  rw [index_last hpos] at hlast
  exact hnot ⟨hfirst.1, hlast.2⟩

theorem select_eq_slice (hx : x.Regular) (hin : x.Inside) (hslice : x.Sliceable) :
    AxisSlice.select x.extent x.first (x.first + x.span + 1) x.stride = .ok x.slice := by
  obtain ⟨hfirst, hlast⟩ := hin
  rw [AxisSlice.select_iff hx.stride_ne]
  rw [Sliceable] at hslice
  split at hslice
  · next hzero =>
    obtain ⟨hstride, hextent, hend⟩ := hslice
    rw [span_of_zero hzero]
    -- whichever way the end is read, it is not behind the first index
    obtain ⟨n, hn, hle⟩ : ∃ n, AxisSlice.normalizedEnd x.extent (x.first + -x.stride + 1) = .ok n ∧
        n ≤ x.first := by
      rcases hend with h | h
      · exact ⟨_, AxisSlice.normalizedEnd_eq_ok.2 (.inl ⟨by omega, rfl⟩), by omega⟩
      · by_cases hnonneg : 0 ≤ x.first + -x.stride + 1
        · exact ⟨_, AxisSlice.normalizedEnd_eq_ok.2 (.inl ⟨hnonneg, rfl⟩), by omega⟩
        · exact ⟨_, AxisSlice.normalizedEnd_eq_ok.2 (.inr ⟨by omega, by omega, rfl⟩), by omega⟩
    refine ⟨n, hn, hextent, by rwa [max_eq_right hle], hx.width, ?_⟩
    rw [max_eq_right hle, sub_self, Int.toNat_zero, AxisSlice.stepCount_eq_zero.2 rfl,
      if_neg (by omega), slice, hzero, Int.toNat_zero]
  · next hpos =>
    have hsize := hx.size_nonneg
    rcases hslice with hone | hstride
    · rw [span_of_one hone] at hlast ⊢
      refine ⟨_, AxisSlice.normalizedEnd_eq_ok.2 (.inl ⟨by omega, rfl⟩), by omega, by omega, hx.width, ?_⟩
      have hwidth : 1 ≤ x.stride.natAbs := Int.natAbs_pos.2 hx.stride_ne
      rw [max_eq_left (by omega), show (x.first + 0 + 1 - x.first).toNat = 1 by omega,
        AxisSlice.stepCount_one hwidth, slice, hone]
      simp
    · have hspan := span_nonneg (by omega) hstride
      refine ⟨_, AxisSlice.normalizedEnd_eq_ok.2 (.inl ⟨by omega, rfl⟩), by omega, by omega, hx.width, ?_⟩
      rw [max_eq_left (by omega), if_neg (by omega), slice,
        show x.first + x.span + 1 - x.first = x.span + 1 by omega, span,
        show x.stride.natAbs = x.stride.toNat by omega, AxisSlice.stepCount_eq (by omega) hstride]

theorem sliceable_of_select (hx : x.Regular) (hin : x.Inside) {s : AxisSlice}
    (h : AxisSlice.select x.extent x.first (x.first + x.span + 1) x.stride = .ok s)
    (hcount : (s.count : Int) = x.size) (hlast : 1 ≤ x.size → 0 ≤ x.first + x.span) : x.Sliceable := by
  have hfirst := hin.1
  have hsize := hx.size_nonneg
  have hstride := hx.stride_ne
  obtain ⟨n, hn, hextent, hend, -, rfl⟩ := (AxisSlice.select_iff hstride).1 h
  rw [AxisSlice.normalizedEnd_eq_ok] at hn
  rw [Sliceable]
  split
  · next hzero =>
    rw [span_of_zero hzero] at hn
    rw [hzero, Int.natCast_eq_zero, AxisSlice.stepCount_eq_zero] at hcount
    omega
  · next hpos =>
    -- going down, the end is not behind the first index, so that nothing is shown
    by_contra hnot
    have hspan := span_neg (x := x) (by omega) (by omega)
    have hempty : (max n x.first - x.first).toNat = 0 := by omega
    rw [hempty, AxisSlice.stepCount_eq_zero.2 rfl] at hcount
    exact hpos hcount.symm

section Window

variable (hx : x.Regular) (hsize : w.sizes[axis]? = some x.size)
  (hstride : w.strides[axis]? = some x.stride)

include hx hsize hstride

theorem addressSpan_eq : Address.span w axis = .ok x.span :=
  (Window.span_eq_ok hsize hstride).2 ⟨hx.steps, hx.span, rfl⟩

theorem checkAxis_cases {shape : List Nat} {v : ValueId} (hextent : shape[axis]? = some x.extent) :
    x.Inside ∧ (Address.checkAxis w shape v axis x.first).run = .ok (.ok ()) ∨
      ¬ x.Inside ∧ (Address.checkAxis w shape v axis x.first).run = .ok (.error (.outOfBounds v)) := by
  rw [Address.checkAxis, Found.run_bind (Found.lift_iff.2 (addressSpan_eq hx hsize hstride)),
    Found.run_bind (Found.lift_iff.2 (Checked.add_eq_ok.2 ⟨hx.last, rfl⟩))]
  by_cases hfirst : x.first < 0
  · rw [if_pos hfirst]
    exact .inr ⟨fun hin => by have := hin.1; omega, rfl⟩
  have hread : Address.extentOf shape axis = .ok x.extent := Fault.require_eq_ok.2 hextent
  rw [if_neg hfirst]
  dsimp only
  rw [Found.run_bind (Found.lift_iff.2 hread)]
  by_cases hlast : (x.extent : Int) ≤ x.first + x.span
  · rw [if_pos hlast]
    exact .inr ⟨fun hin => by have := hin.2; omega, rfl⟩
  · rw [if_neg hlast]
    exact .inl ⟨⟨by omega, by omega⟩, rfl⟩

theorem sliceAxis_eq_select (hfirst : starts[axis]? = some x.first) :
    Address.sliceAxis w starts axis x.extent =
      AxisSlice.select x.extent x.first (x.first + x.span + 1) x.stride := by
  simp only [Address.sliceAxis, hfirst, hstride, addressSpan_eq hx hsize hstride, Fault.require_some,
    Fault.ok_bind, Checked.add_eq_ok.2 ⟨hx.last, rfl⟩, Checked.add_eq_ok.2 ⟨hx.stop, rfl⟩]

end Window

section Axes

variable {axes : List Axis} (hregular : ∀ x ∈ axes, x.Regular) (hsizes : w.sizes = axes.map Axis.size)
  (hstrides : w.strides = axes.map Axis.stride) {source : IndexArray}
  (hshape : source.shape = axes.map Axis.extent)

include hregular hsizes hstrides hshape

theorem run_checks_cases {v : ValueId} :
    let checks : Eval Unit := (axes.map Axis.first).zipIdx.forM fun (start, axis) =>
      Address.checkAxis w source.shape v axis start
    (∀ x ∈ axes, x.Inside) ∧ checks.run = .ok (.ok ()) ∨
      (∃ x ∈ axes, ¬ x.Inside) ∧ checks.run = .ok (.error (.outOfBounds v)) := by
  intro checks
  have hstep : ∀ s ∈ (axes.map Axis.first).zipIdx,
      (∃ x, axes[s.2]? = some x ∧ x.Inside) ∧
          (Address.checkAxis w source.shape v s.2 s.1).run = .ok (.ok ()) ∨
        ¬ (∃ x, axes[s.2]? = some x ∧ x.Inside) ∧
          (Address.checkAxis w source.shape v s.2 s.1).run = .ok (.error (.outOfBounds v)) := by
    rintro ⟨start, axis⟩ hmem
    rw [List.mk_mem_zipIdx_iff_getElem?, List.getElem?_map] at hmem
    obtain ⟨x, hx, rfl⟩ := Option.map_eq_some_iff.1 hmem
    have hextent : source.shape[axis]? = some x.extent := by simp [hshape, hx]
    simpa [hx] using checkAxis_cases (hregular x (List.mem_of_getElem? hx)) (by simp [hsizes, hx])
      (by simp [hstrides, hx]) hextent (v := v)
  refine (run_forM_cases hstep).imp (.imp_left fun hall x hx => ?_)
    (.imp_left fun ⟨⟨start, axis⟩, hmem, hnot⟩ => ?_)
  · obtain ⟨i, hi⟩ := List.getElem?_of_mem hx
    obtain ⟨x', hx', hin⟩ := hall (x.first, i) (by simp [List.mk_mem_zipIdx_iff_getElem?, hi])
    exact Option.some.inj (hi.symm.trans hx') ▸ hin
  · rw [List.mk_mem_zipIdx_iff_getElem?, List.getElem?_map] at hmem
    obtain ⟨x, hx, -⟩ := Option.map_eq_some_iff.1 hmem
    exact ⟨x, List.mem_of_getElem? hx, fun hin => hnot ⟨x, hx, hin⟩⟩

theorem windowElements_eq_ok {p : IndexArray} :
    Address.windowElements w (axes.map Axis.first) source = .ok p ↔ ∃ slices, List.Forall₂ (fun x s =>
      AxisSlice.select x.extent x.first (x.first + x.span + 1) x.stride = .ok s) axes slices ∧
        source.slice slices = p := by
  have hslice : ∀ (i : Nat) (hi : i < axes.length),
      Address.sliceAxis w (axes.map Axis.first) i axes[i].extent = AxisSlice.select axes[i].extent
        axes[i].first (axes[i].first + axes[i].span + 1) axes[i].stride := fun i hi =>
    sliceAxis_eq_select (hregular _ (List.getElem_mem hi)) (by simp [hsizes, hi])
      (by simp [hstrides, hi]) (by simp [hi])
  simp only [Address.windowElements, Fault.bind_eq_ok, Fault.mapM_eq_ok]
  refine exists_congr fun slices => and_congr ?_ (by simp [pure, Except.pure])
  simp only [List.forall₂_iff_get, hshape, List.length_zipIdx, List.length_map]
  refine and_congr_right fun _ => forall_congr' fun i => ⟨fun h hi hi' => ?_, fun h hi hi' => ?_⟩
  · simpa [hslice i hi] using h hi hi'
  · simpa [hslice i hi] using h hi hi'

end Axes

theorem coordinates_mem {axes : List Axis} {index : List Nat} (hin : ∀ x ∈ axes, x.Inside)
    (hslice : ∀ x ∈ axes, x.Sliceable)
    (hindex : List.Forall₂ (· < ·) index (axes.map (·.size.toNat))) :
    ∃ coords, List.Forall₂ (· < ·) coords (axes.map Axis.extent) ∧
      coords.map Nat.cast = (axes.zip index).map (fun (x, i) => x.index i) ∧
      coords = ((axes.map slice).zip index).map fun (s, i) => s.index i := by
  induction axes generalizing index with
  | nil => exact ⟨[], by simp⟩
  | cons x axes ih =>
    rw [List.forall_mem_cons] at hin hslice
    obtain ⟨i, index, hi, hrest, rfl⟩ := List.forall₂_cons_right_iff.1 hindex
    obtain ⟨coords, hcoords, hcast, rfl⟩ := ih hin.2 hslice.2 hrest
    have hi : i < x.size.toNat := hi
    have hon := index_of_inside hin.1 hslice.1 (i := i) (by omega)
    refine ⟨(x.index i).toNat :: _, .cons (by omega) hcoords, ?_, rfl⟩
    rw [List.map_cons, hcast, Int.toNat_of_nonneg hon.1]
    rfl

/-- A sub-view stands for what it says: it is out of bounds, or has the sizes of its window and at each
index the element that its source has that many strides from the first. Where it shows something, it is
out of bounds just if one of these elements is. -/
structure Exact (axes : List Axis) (v : ValueId) (source : AddressedElements)
    (result : Except Fault (Except EvalError AddressedElements)) : Prop where
  ends : result = .ok (.error (.outOfBounds v)) ∨ ∃ p, result = .ok (.ok ⟨source.root, p⟩) ∧
    p.shape.map Nat.cast = axes.map Axis.size ∧ ∀ index ∈ IndexArray.indices p.shape,
      ∃ coords ∈ IndexArray.indices source.positions.shape,
        coords.map Nat.cast = (axes.zip index).map (fun (x, i) => x.index i) ∧
          p.element index = source.positions.element coords
  outOfBounds_iff : (∀ x ∈ axes, 1 ≤ x.size) → (result = .ok (.error (.outOfBounds v)) ↔
    ∃ x ∈ axes, ∃ i : Nat, i < x.size ∧ ¬ (0 ≤ x.index i ∧ x.index i < x.extent))

theorem Exact.shape {axes : List Axis} {v : ValueId} {source : AddressedElements}
    {result : Except Fault (Except EvalError AddressedElements)} (h : Exact axes v source result)
    {shape : List Nat} (hshape : result.toOption.map (fun r => r.toOption.map (·.positions.shape)) =
      some (some shape)) : shape.map Nat.cast = axes.map Axis.size := by
  rcases h.ends with rfl | ⟨p, rfl, hsizes, -⟩
  · cases hshape
  · obtain rfl : p.shape = shape := by simpa [Except.toOption] using hshape
    exact hsizes

end Axis

end KernelLowering
