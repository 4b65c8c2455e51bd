import KernelLowering.Proofs.Address.Evaluation
import KernelLowering.Proofs.Layout.Windows
import Mathlib.Algebra.BigOperators.Group.List.Basic

namespace KernelLowering

/-- How far an index lies from the first element of a buffer with these strides. -/
def displacement (strides index : List Int) : Int := (List.zipWith (· * ·) index strides).sum

@[simp] theorem displacement_nil (strides : List Int) : displacement strides [] = 0 := by
  simp [displacement]

@[simp] theorem displacement_cons (stride i : Int) (strides index : List Int) :
    displacement (stride :: strides) (i :: index) = i * stride + displacement strides index := by
  simp [displacement]

namespace Shape

variable {shape : Shape}

def pitches : Shape → List Int
  | [] => []
  | _ :: rest => rest.prod :: pitches rest

@[simp] theorem length_pitches (shape : Shape) : shape.pitches.length = shape.length := by
  induction shape with
  | nil => rfl
  | cons extent rest ih => rw [pitches, List.length_cons, ih, List.length_cons]

theorem rowMajorStrides_eq_ok (h : ∀ pitch ∈ shape.pitches, Checked.Fits pitch) :
    shape.rowMajorStrides = .ok shape.pitches := by
  induction shape with
  | nil => rfl
  | cons extent rest ih =>
    rw [pitches, List.forall_mem_cons] at h
    rw [rowMajorStrides, ih h.2, Fault.ok_bind]
    cases rest with
    | nil => rfl
    | cons extent' rest =>
      have hprod : Checked.mul rest.prod extent' = .ok (extent' :: rest).prod := by
        rw [List.prod_cons, Int.mul_comm] at h ⊢
        exact Checked.mul_eq_ok.2 ⟨h.1, rfl⟩
      simp only [pitches, hprod, Fault.ok_bind]
      rfl

def filled (shape : Shape) : Int := (shape.filter (· ≠ 0)).prod

theorem one_le_filled (h : ∀ extent ∈ shape, 0 ≤ extent) : 1 ≤ shape.filled := by
  induction shape with
  | nil => exact Int.le_refl 1
  | cons extent rest ih =>
    rw [List.forall_mem_cons] at h
    have hrest := ih h.2
    rw [filled, List.filter_cons]
    split
    · next hne =>
      have hpos : 1 ≤ extent := by
        have := of_decide_eq_true hne
        omega
      rw [List.prod_cons]
      exact one_le_mul_of_one_le_of_one_le hpos hrest
    · exact hrest

theorem filled_le_cons {extent : Int} (hextent : 0 ≤ extent) (h : ∀ extent ∈ shape, 0 ≤ extent) :
    filled shape ≤ filled (extent :: shape) := by
  have hone := one_le_filled h
  simp only [filled, List.filter_cons]
  split
  · next hne =>
    have hpos : 1 ≤ extent := by
      have := of_decide_eq_true hne
      omega
    rw [List.prod_cons]
    exact le_mul_of_one_le_left (by rw [filled] at hone; omega) hpos
  · exact le_rfl

theorem prod_le_filled (h : ∀ extent ∈ shape, 0 ≤ extent) :
    0 ≤ shape.prod ∧ shape.prod ≤ shape.filled := by
  induction shape with
  | nil => exact ⟨Int.one_nonneg, le_rfl⟩
  | cons extent rest ih =>
    rw [List.forall_mem_cons] at h
    obtain ⟨hnonneg, hle⟩ := ih h.2
    rw [List.prod_cons]
    refine ⟨mul_nonneg h.1 hnonneg, ?_⟩
    by_cases hzero : extent = 0
    · rw [hzero, zero_mul]
      exact Int.le_trans (by omega) (one_le_filled (List.forall_mem_cons.2 ⟨le_rfl, h.2⟩))
    · rw [filled, List.filter_cons_of_pos (by simpa using hzero), List.prod_cons]
      exact mul_le_mul_of_nonneg_left hle h.1

theorem pitch_le_filled (h : ∀ extent ∈ shape, 0 ≤ extent) :
    ∀ pitch ∈ shape.pitches, 0 ≤ pitch ∧ pitch ≤ shape.filled := by
  induction shape with
  | nil => simp [pitches]
  | cons extent rest ih =>
    rw [List.forall_mem_cons] at h
    have hle := filled_le_cons h.1 h.2
    rw [pitches, List.forall_mem_cons]
    exact ⟨⟨(prod_le_filled h.2).1, (prod_le_filled h.2).2.trans hle⟩,
      fun pitch hp => ⟨(ih h.2 pitch hp).1, (ih h.2 pitch hp).2.trans hle⟩⟩

end Shape

theorem Address.rootShape_eq_ok {shape : Shape} {extents : List Nat}
    (h : rootShape shape = .ok extents) : (∀ extent ∈ shape, 0 ≤ extent) ∧
      shape.filled ≤ Checked.maxValue ∧ shape.map Int.toNat = extents := by
  unfold rootShape at h
  dsimp only at h
  split at h
  · cases h
  · next hcounted =>
    split at h
    · cases h
    · simp only [List.any_eq_true, decide_eq_true_eq, not_or, not_exists, not_and, not_lt] at hcounted
      refine ⟨fun extent he => hcounted.1 extent he, ?_, Except.ok.inj h⟩
      rw [Shape.filled, List.prod_eq_foldl]
      exact hcounted.2

theorem IndexArray.position_eq {shape index : List Nat} (h : index.length = shape.length) :
    (IndexArray.position shape index : Int) =
      displacement (Shape.pitches (shape.map Nat.cast)) (index.map Nat.cast) := by
  have hfold : ∀ first : Nat, (((shape.zip index).foldl (fun position p => position * p.1 + p.2)
      first : Nat) : Int) = first * (shape.map Nat.cast : List Int).prod +
        displacement (Shape.pitches (shape.map Nat.cast)) (index.map Nat.cast) := by
    induction shape generalizing index with
    | nil =>
      obtain rfl := List.eq_nil_of_length_eq_zero h
      simp
    | cons extent shape ih =>
      obtain ⟨i, index, rfl⟩ := List.exists_cons_of_length_eq_add_one h
      intro first
      rw [List.zip_cons_cons, List.foldl_cons, ih (Nat.succ.inj h)]
      simp only [List.map_cons, Shape.pitches, displacement_cons, List.prod_cons]
      push_cast
      ring
  exact (hfold 0).trans (by simp)

namespace Window

variable {w : Window} {starts strides steps : List Int}

theorem Slices.displacement_eq {sizes : Shape} {extents : List Nat} {slices : List AxisSlice}
    (h : Slices starts sizes steps extents slices) (hstep : ∀ step ∈ steps, 1 ≤ step)
    (hlength : strides.length = starts.length) {index : List Nat}
    (hindex : index.length = slices.length) :
    displacement strides (((slices.zip index).map fun (s, i) => s.index i).map Nat.cast) =
      displacement strides starts +
        displacement (List.zipWith (· * ·) strides steps) (index.map Nat.cast) := by
  induction h generalizing strides index with
  | nil =>
    obtain rfl := List.eq_nil_of_length_eq_zero hindex
    simp
  | @cons first size step extent starts sizes steps extents slices hreaches _ ih =>
    obtain ⟨stride, strides, rfl⟩ := List.exists_cons_of_length_eq_add_one hlength
    obtain ⟨i, index, rfl⟩ := List.exists_cons_of_length_eq_add_one hindex
    rw [List.forall_mem_cons] at hstep
    have hfirst : ((AxisSlice.index ⟨first, step, size.toNat⟩ i : Nat) : Int) = first + i * step :=
      Int.toNat_of_nonneg
        (add_nonneg hreaches.nonneg (mul_nonneg (Int.natCast_nonneg i) (Int.le_trans (by omega) hstep.1)))
    have hrest := ih hstep.2 (Nat.succ.inj hlength) (Nat.succ.inj hindex)
    simp only [List.zip_cons_cons, List.map_cons, displacement_cons, List.zipWith_cons_cons, hrest,
      hfirst]
    ring

theorem linearOffset_eq_some {base offset : Int} {offsets : List Offset}
    (h : linearOffset base offsets strides = .ok (some offset))
    (hstarts : List.Forall₂ (fun o start => ∀ n, o = Offset.static n → start = n) offsets starts)
    (hlength : strides.length = starts.length) : offset = base + displacement strides starts := by
  induction hstarts generalizing base strides with
  | nil =>
    obtain rfl := List.eq_nil_of_length_eq_zero hlength
    simpa [linearOffset, eq_comm] using h
  | @cons o start offsets starts hstart _ ih =>
    obtain ⟨stride, strides, rfl⟩ := List.exists_cons_of_length_eq_add_one hlength
    cases o with
    | dynamic => cases h
    | static n =>
      obtain ⟨product, hproduct, hrest⟩ := Fault.bind_eq_ok.1 h
      obtain ⟨moved, hmoved, hrest⟩ := Fault.bind_eq_ok.1 hrest
      obtain rfl := (Checked.mul_eq_ok.1 hproduct).2
      obtain rfl := (Checked.add_eq_ok.1 hmoved).2
      rw [ih hrest (Nat.succ.inj hlength), hstart n rfl, displacement_cons]
      ring

theorem Slices.lengths {sizes : Shape} {extents : List Nat} {slices : List AxisSlice}
    (h : Slices starts sizes steps extents slices) :
    starts.length = extents.length ∧ slices.length = extents.length ∧ steps.length = extents.length ∧
      slices.map (·.count) = sizes.map (·.toNat) := by
  induction h with
  | nil => simp
  | cons _ _ ih => simp [ih]

end Window

structure BufferType.Locates (type : BufferType) (strides : List Int) (base : Int) (a : IndexArray) :
    Prop where
  shape : a.shape.map Nat.cast = type.shape
  layout : type.strides = .ok strides
  rank : strides.length = a.shape.length
  element : ∀ index, index.length = a.shape.length →
    a.element index = base + displacement strides (index.map Nat.cast)
  offset : ∀ offset, type.offset = some offset → base = offset

namespace BufferType.Locates

variable {type source : BufferType} {strides : List Int} {base : Int} {a a' : IndexArray}

theorem rowMajor {shape : List Nat} (hlayout : type.layout = .identity)
    (hshape : Address.rootShape type.shape = .ok shape) :
    type.Locates type.shape.pitches 0 (.rowMajor shape) := by
  obtain ⟨hnonneg, hfilled, rfl⟩ := Address.rootShape_eq_ok hshape
  have hcast : (type.shape.map Int.toNat).map Nat.cast = type.shape := by
    rw [List.map_map]
    exact (List.map_congr_left fun extent he => Int.toNat_of_nonneg (hnonneg extent he)).trans
      (List.map_id _)
  refine ⟨hcast, ?_, by simp [IndexArray.rowMajor], fun index hindex => ?_, fun offset ho => ?_⟩
  · rw [strides, hlayout]
    refine Shape.rowMajorStrides_eq_ok fun pitch hpitch => ?_
    obtain ⟨hlow, hhigh⟩ := Shape.pitch_le_filled hnonneg pitch hpitch
    exact ⟨Int.le_trans (by decide) hlow, Int.le_trans hhigh hfilled⟩
  · have hposition : (IndexArray.position (type.shape.map Int.toNat) index : Int) =
        displacement type.shape.pitches (index.map Nat.cast) :=
      (@IndexArray.position_eq (type.shape.map Int.toNat) index hindex).trans (by rw [hcast])
    exact hposition.trans (Int.zero_add _).symm
  · rw [BufferType.offset, hlayout] at ho
    exact Option.some.inj ho

theorem window {w : Window} {starts : List Int} (h : source.Locates strides base a)
    (htype : w.resultType source = .ok type) (hw : w.Ranked) (hshows : w.Shows starts a a')
    (hstarts : List.Forall₂ (fun o start => ∀ n, o = Offset.static n → start = n) w.offsets starts) :
    type.Locates (List.zipWith (· * ·) strides w.strides) (base + displacement strides starts) a' := by
  obtain ⟨strides', products, offset, hstrides, hproducts, hoffset, rfl⟩ :=
    Window.resultType_eq_ok.1 htype
  obtain rfl := Except.ok.inj (h.layout.symm.trans hstrides)
  obtain ⟨slices, hslices, rfl⟩ := hshows
  obtain ⟨hlstarts, hlslices, hlsteps, hcounts⟩ := hslices.lengths
  obtain rfl := Window.mapM_mul_eq_ok hproducts
  have hrank : strides.length = starts.length := h.rank.trans hlstarts.symm
  refine ⟨?_, rfl, ?_, fun index hindex => ?_, fun n hn => ?_⟩
  · rw [IndexArray.slice, hcounts, List.map_map]
    exact (List.map_congr_left fun size hs =>
      Int.toNat_of_nonneg (Int.le_trans Int.one_nonneg (hw.size_pos size hs))).trans (List.map_id _)
  · simp only [IndexArray.slice, List.length_zipWith, List.length_map]
    omega
  · simp only [IndexArray.slice, List.length_map] at hindex
    rw [IndexArray.slice, h.element _ (by simp; omega),
      hslices.displacement_eq hw.stride_pos hrank hindex, Int.add_assoc]
  · obtain rfl : offset = some n := hn
    rw [Window.start] at hoffset
    cases hbase : source.offset with
    | none =>
      rw [hbase] at hoffset
      cases hoffset
    | some base' =>
      rw [hbase] at hoffset
      rw [h.offset base' hbase]
      exact (Window.linearOffset_eq_some hoffset hstarts hrank).symm

end BufferType.Locates

namespace Address

variable {f : Function} {bindings : Bindings} {v : ValueId}

theorem starts_of_static {offsets : List Offset} {supplied : List ValueId} {starts : List Int}
    (h : List.Forall₂ (fun o start => Found (evalOffset f bindings v o) start)
      (Offset.supply offsets supplied) starts) :
    List.Forall₂ (fun o start => ∀ n, o = Offset.static n → start = n) offsets starts := by
  have hstatic : ∀ {n start : Int}, Found (evalOffset f bindings v (.static n)) start →
      ∀ m, Offset.static n = Offset.static m → start = m := by
    rintro n start ⟨⟩ m ⟨⟩
    rfl
  induction offsets generalizing supplied starts with
  | nil =>
    cases h
    exact .nil
  | cons o offsets ih =>
    cases o with
    | static n =>
      obtain ⟨start, starts, hstart, hrest, rfl⟩ := List.forall₂_cons_left_iff.1 h
      exact .cons (hstatic hstart) (ih hrest)
    | dynamic =>
      cases supplied with
      | nil =>
        obtain ⟨start, starts, -, hrest, rfl⟩ := List.forall₂_cons_left_iff.1 h
        exact .cons (fun _ he => by cases he) (ih hrest)
      | cons u supplied =>
        obtain ⟨start, starts, -, hrest, rfl⟩ := List.forall₂_cons_left_iff.1 h
        exact .cons (fun _ he => by cases he) (ih hrest)

end Address

/-- The value is a window onto a window, and so on, onto a row-major buffer, each with the type that its
source gives it. -/
inductive Function.Windowed (f : Function) : ValueId → BufferType → Prop
  | root {v : ValueId} {type : BufferType} {o : Option Operation}
      (htype : f.bufferType? v = .ok (some type)) (hdef : f.definition? v = .ok o)
      (hkind : o.bind (·.kind.window?) = none) (hlayout : type.layout = .identity) : Windowed f v type
  | window {v source : ValueId} {type sourceType : BufferType} {o : Operation} {w : Window}
      {supplied : List ValueId} (hsource : Windowed f source sourceType)
      (htype : f.bufferType? v = .ok (some type)) (hdef : f.definition? v = .ok (some o))
      (hkind : o.kind = .subView w) (hoperands : o.operands = source :: supplied)
      (hsupplied : w.dynamicCount = supplied.length) (hranked : w.Ranked)
      (hrank : w.offsets.length = sourceType.rank) (hresult : w.resultType sourceType = .ok type) :
      Windowed f v type

theorem Function.Windowed.locates {f : Function} {v : ValueId} {type : BufferType}
    (h : f.Windowed v type) {bindings : Bindings} {d : Nat} {e : AddressedElements}
    (he : Found (Address.addressedTo f bindings d v) e) :
    ∃ strides base, type.Locates strides base e.positions := by
  induction h generalizing d e with
  | root htype hdef hkind hlayout =>
    obtain ⟨d, _, _, rfl, -, -⟩ := Address.exists_of_found he
    obtain ⟨shape, hshape, rfl⟩ := (Address.found_root_iff htype hdef hkind).1 he
    exact ⟨_, 0, .rowMajor hlayout hshape⟩
  | window _ htype hdef hkind hoperands _ hranked _ hresult ih =>
    obtain ⟨d, _, _, rfl, -, -⟩ := Address.exists_of_found he
    obtain ⟨_, _, hops, e', he', starts, hstarts, hchecks, elements, helements, rfl⟩ :=
      (Address.found_window_iff htype hdef hkind).1 he
    obtain ⟨rfl, rfl⟩ := List.cons.inj (hoperands.symm.trans hops)
    obtain ⟨strides, base, hlocates⟩ := ih he'
    have hlength := hstarts.length_eq.symm.trans (Offset.length_supply _ _)
    have hshows := (Window.shows_iff hranked hlength).1 ⟨hchecks, helements⟩
    exact ⟨_, _, hlocates.window hresult hranked hshows (Address.starts_of_static hstarts)⟩

theorem Address.addressed_eq_layout {f : Function} {v : ValueId} {type : BufferType}
    (h : f.Windowed v type) {bindings : Bindings} {e : AddressedElements}
    (he : (addressed f v bindings).run = .ok (.ok e)) :
    e.positions.shape.map Nat.cast = type.shape ∧
      ∃ strides base, type.strides = .ok strides ∧
        (∀ index ∈ IndexArray.indices e.positions.shape,
          e.positions.element index = base + displacement strides (index.map Nat.cast)) ∧
        ∀ offset, type.offset = some offset → base = offset := by
  obtain ⟨strides, base, hlocates⟩ := h.locates he
  exact ⟨hlocates.shape, strides, base, hlocates.layout,
    fun index hindex => hlocates.element index (IndexArray.length_of_mem_indices hindex),
    hlocates.offset⟩

def secondColumns : Function where
  name := "columns"
  ops := #[⟨.subView ⟨[.static 1, .static 2], [4, 3], [1, 2]⟩, [⟨0⟩], some ⟨2⟩, none, [], [], none, true⟩,
    ⟨.subView ⟨[.dynamic, .static 1], [2, 2], [2, 1]⟩, [⟨2⟩, ⟨1⟩], some ⟨3⟩, none, [], [], none, true⟩]
  values := #[⟨.buffer (.rowMajor [6, 8] .float32 .global), .argument 0⟩, ⟨.index, .argument 1⟩,
    ⟨.buffer ⟨[4, 3], .float32, .strided (some 10) [8, 2], .global⟩, .result ⟨0⟩⟩,
    ⟨.buffer ⟨[2, 2], .float32, .strided none [16, 2], .global⟩, .result ⟨1⟩⟩]
  arity := 2
  body := [⟨0⟩, ⟨1⟩]

theorem secondColumns_windowed :
    secondColumns.Windowed ⟨3⟩ ⟨[2, 2], .float32, .strided none [16, 2], .global⟩ := by
  have hroot : secondColumns.Windowed ⟨0⟩ (.rowMajor [6, 8] .float32 .global) :=
    .root (o := none) rfl rfl rfl rfl
  have houter : secondColumns.Windowed ⟨2⟩ ⟨[4, 3], .float32, .strided (some 10) [8, 2], .global⟩ :=
    .window hroot rfl rfl rfl rfl rfl (by decide) rfl rfl
  exact .window houter rfl rfl rfl rfl rfl (by decide) rfl rfl

theorem Address.addressed_eq_layout_secondColumns :
    secondColumns.Windowed ⟨3⟩ ⟨[2, 2], .float32, .strided none [16, 2], .global⟩ ∧
    ∃ e, (addressed secondColumns ⟨3⟩ [(⟨1⟩, 1)]).run = .ok (.ok e) ∧
      e.positions.toList = [20, 22, 36, 38] ∧
        ∃ base, ∀ index ∈ IndexArray.indices e.positions.shape,
          e.positions.element index = base + displacement [16, 2] (index.map Nat.cast) := by
  have hok : (addressed secondColumns ⟨3⟩ [(⟨1⟩, 1)]).run.toOption.map
      (fun r => r.toOption.map (·.positions.toList)) = some (some [20, 22, 36, 38]) := by
    decide +kernel
  have hwindowed := secondColumns_windowed
  generalize secondColumns = f at *
  obtain ⟨r, hrun, hr⟩ := Fault.toOption_map_eq_some.1 hok
  cases r with
  | error reason => cases hr
  | ok e =>
    obtain ⟨-, strides, base, hstrides, helements, -⟩ := addressed_eq_layout hwindowed hrun
    cases hstrides
    exact ⟨hwindowed, e, hrun, Option.some.inj hr, base, helements⟩

end KernelLowering
