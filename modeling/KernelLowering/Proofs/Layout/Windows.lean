import KernelLowering.Buffer.Window
import KernelLowering.Proofs.Yields

namespace KernelLowering

theorem Checked.yields_fit (x : Int) : Yields True (fit x) fun _ => True := by
  unfold fit
  split
  · trivial
  · exact ⟨rfl, trivial⟩

theorem Yields.mapM {α β : Type} {p : Prop} {xs : List α} {g : α → Except Fault β}
    (h : ∀ x ∈ xs, Yields p (g x) fun _ => True) : Yields p (xs.mapM g) fun _ => True := by
  induction xs with
  | nil => trivial
  | cons x xs ih =>
    rw [List.forall_mem_cons] at h
    simp only [List.mapM_cons, Yields.bind_iff, Yields.pure_iff]
    exact h.1.mono fun _ _ _ => ih h.2

theorem Yields.foldlM {α β : Type} {step : β → α → Except Fault β}
    (h : ∀ b a, Yields True (step b a) fun _ => True) (xs : List α) (start : β) :
    Yields True (xs.foldlM step start) fun _ => True := by
  induction xs generalizing start with
  | nil => trivial
  | cons x xs ih =>
    rw [List.foldlM_cons, Yields.bind_iff]
    exact (h start x).mono fun _ _ _ => ih _

theorem Shape.yields_rowMajorStrides (shape : Shape) :
    Yields True shape.rowMajorStrides fun _ => True := by
  induction shape with
  | nil => trivial
  | cons extent rest ih =>
    simp only [rowMajorStrides, Yields.bind_iff]
    refine ih.mono fun inner _ _ => ?_
    split
    · simp only [Yields.bind_iff, Yields.pure_iff]
      exact Checked.yields_fit _
    · trivial

theorem BufferType.yields_strides (type : BufferType) :
    Yields True type.strides fun _ => True := by
  unfold strides
  split
  · exact Shape.yields_rowMajorStrides _
  · trivial

theorem BufferType.yields_bytes (type : BufferType) : Yields True type.bytes fun _ => True := by
  simp only [bytes, Yields.bind_iff]
  exact (Yields.foldlM (fun _ _ => Checked.yields_fit _) _ _).mono fun _ _ _ => Checked.yields_fit _

namespace Window

structure Ranked (w : Window) : Prop where
  sizes : w.sizes.length = w.offsets.length
  strides : w.strides.length = w.offsets.length
  size_pos : ∀ size ∈ w.sizes, 1 ≤ size
  stride_pos : ∀ stride ∈ w.strides, 1 ≤ stride

instance (w : Window) : Decidable w.Ranked :=
  decidable_of_iff (w.sizes.length = w.offsets.length ∧ w.strides.length = w.offsets.length ∧
      (∀ size ∈ w.sizes, 1 ≤ size) ∧ ∀ stride ∈ w.strides, 1 ≤ stride)
    ⟨fun ⟨h₁, h₂, h₃, h₄⟩ => ⟨h₁, h₂, h₃, h₄⟩, fun ⟨h₁, h₂, h₃, h₄⟩ => ⟨h₁, h₂, h₃, h₄⟩⟩

theorem yields_linearOffset (base : Int) (offsets : List Offset) (strides : List Int) :
    Yields True (linearOffset base offsets strides) fun _ => True := by
  fun_induction linearOffset base offsets strides with
  | case1 base v offsets stride strides ih =>
    simp only [Yields.bind_iff]
    exact (Checked.yields_fit _).mono fun _ _ _ => (Checked.yields_fit _).mono fun _ _ _ => ih _
  | case2 => trivial
  | case3 => trivial
  | case4 => trivial

theorem of_resultType {w : Window} {source result : BufferType}
    (h : w.resultType source = .ok result) :
    result.shape = w.sizes ∧ result.element = source.element := by
  simp only [resultType, Fault.bind_eq_ok] at h
  obtain ⟨_, -, _, -, h⟩ := h
  split at h
  · obtain ⟨_, -, h⟩ := Fault.bind_eq_ok.1 h
    cases h
    exact ⟨rfl, rfl⟩
  · cases h
    exact ⟨rfl, rfl⟩

theorem yields_resultType (w : Window) (source : BufferType) :
    Yields True (w.resultType source) fun _ => True := by
  simp only [resultType, Yields.bind_iff]
  refine source.yields_strides.mono fun strides _ _ => ?_
  refine (Yields.mapM fun _ _ => Checked.yields_fit _).mono fun _ _ _ => ?_
  cases source.offset with
  | none => trivial
  | some base =>
    simp only [Yields.bind_iff]
    exact (yields_linearOffset _ _ _).mono fun _ _ _ => trivial

end Window

structure BufferType.Addressable (type : BufferType) : Prop where
  shape : ∀ extent ∈ type.shape, Checked.Fits extent
  strides : ∃ strides, type.strides = .ok strides ∧ ∀ stride ∈ strides, Checked.Fits stride
  offset : ∀ base, type.offset = some base → Checked.Fits base

namespace Window

theorem linearOffset_of_zero {base : Int} {offsets : List Offset} {strides : List Int}
    (hbase : Checked.Fits base) (h : ∀ offset ∈ offsets, offset = .static 0 ∨ offset = .dynamic) :
    ∃ result, linearOffset base offsets strides = .ok result := by
  induction offsets generalizing strides with
  | nil => exact ⟨_, by cases strides <;> rfl⟩
  | cons offset offsets ih =>
    obtain ⟨hfirst, hrest⟩ := List.forall_mem_cons.1 h
    cases strides with
    | nil => exact ⟨_, by cases offset <;> rfl⟩
    | cons stride strides =>
      rcases hfirst with rfl | rfl
      · obtain ⟨result, hresult⟩ : ∃ result, linearOffset base offsets strides = .ok result :=
          ih hrest
        have hmul : Checked.mul 0 stride = .ok 0 :=
          Checked.mul_eq_ok.2 ⟨by rw [Int.zero_mul]; decide, Int.zero_mul _⟩
        have hadd : Checked.add base 0 = .ok base :=
          Checked.add_eq_ok.2 ⟨by rwa [Int.add_zero], Int.add_zero _⟩
        exact ⟨result, by rw [linearOffset, hmul, Fault.ok_bind, hadd, Fault.ok_bind, hresult]⟩
      · exact ⟨_, rfl⟩

theorem mapM_mul_one {strides ones : List Int} (h : ∀ stride ∈ strides, Checked.Fits stride)
    (hones : ∀ one ∈ ones, one = 1) :
    ∃ result, (strides.zip ones).mapM (fun (a, b) => Checked.mul a b) = .ok result := by
  induction strides generalizing ones with
  | nil => exact ⟨[], rfl⟩
  | cons stride strides ih =>
    obtain ⟨hfirst, hrest⟩ := List.forall_mem_cons.1 h
    cases ones with
    | nil => exact ⟨[], rfl⟩
    | cons one ones =>
      obtain ⟨rfl, hones'⟩ := List.forall_mem_cons.1 hones
      obtain ⟨result, hresult⟩ := ih hrest hones'
      have hmul : Checked.mul stride 1 = .ok stride :=
        Checked.mul_eq_ok.2 ⟨by rwa [Int.mul_one], Int.mul_one _⟩
      exact ⟨_, by
        simp only [List.zip_cons_cons, List.mapM_cons, hmul, hresult, Fault.ok_bind]; rfl⟩

theorem mapM_mul_eq_ok {strides steps products : List Int}
    (h : (strides.zip steps).mapM (fun (a, b) => Checked.mul a b) = .ok products) :
    products = List.zipWith (· * ·) strides steps := by
  induction strides generalizing steps products with
  | nil => exact (Except.ok.inj h).symm
  | cons stride strides ih =>
    cases steps with
    | nil => exact (Except.ok.inj h).symm
    | cons step steps =>
      rw [List.zip_cons_cons, List.mapM_cons] at h
      obtain ⟨product, hproduct, hrest⟩ := Fault.bind_eq_ok.1 h
      obtain ⟨rest, hmapM, hpair⟩ := Fault.bind_eq_ok.1 hrest
      obtain rfl := (Checked.mul_eq_ok.1 hproduct).2
      cases hpair
      rw [List.zipWith_cons_cons, ih hmapM]

theorem exists_resultType {w : Window} {type : BufferType} (h : type.Addressable)
    (hoffsets : ∀ offset ∈ w.offsets, offset = .static 0 ∨ offset = .dynamic)
    (hstrides : ∀ stride ∈ w.strides, stride = 1) : ∃ result, w.resultType type = .ok result := by
  obtain ⟨strides, heq, hfit⟩ := h.strides
  obtain ⟨products, hproducts⟩ := mapM_mul_one hfit hstrides
  rw [resultType, heq, Fault.ok_bind]
  simp only [hproducts, Fault.ok_bind]
  cases hoff : type.offset with
  | none => exact ⟨_, rfl⟩
  | some base =>
    obtain ⟨offset, hoffset⟩ : ∃ offset, linearOffset base w.offsets strides = .ok offset :=
      linearOffset_of_zero (h.offset base hoff) hoffsets
    simp only [hoffset]
    exact ⟨_, rfl⟩

theorem yields_resultType_of_zero {w : Window} {type : BufferType}
    (hoffsets : ∀ offset ∈ w.offsets, offset = .static 0 ∨ offset = .dynamic)
    (hstrides : ∀ stride ∈ w.strides, stride = 1) :
    Yields (¬ type.Addressable) (w.resultType type) fun _ => True := by
  by_cases h : type.Addressable
  · obtain ⟨result, hresult⟩ := exists_resultType h hoffsets hstrides
    rw [hresult]
    trivial
  · exact (w.yields_resultType type).weaken fun _ => h

end Window

namespace BufferType

def unplaced (type : BufferType) : BufferType :=
  match type.layout with
  | .identity => type
  | .strided _ strides => { type with layout := .strided none strides }

def Outlines (type type' : BufferType) : Prop := type = type' ∨ type = type'.unplaced

variable {type type' type'' : BufferType}

@[simp] theorem unplaced_unplaced (type : BufferType) : type.unplaced.unplaced = type.unplaced := by
  obtain ⟨shape, element, layout, space⟩ := type
  cases layout <;> rfl

theorem Outlines.refl (type : BufferType) : type.Outlines type := .inl rfl

theorem Outlines.trans (h : type.Outlines type') (h' : type'.Outlines type'') :
    type.Outlines type'' := by
  rcases h with rfl | rfl
  · exact h'
  · rcases h' with rfl | rfl
    · exact .inr rfl
    · exact .inr (unplaced_unplaced _)

end BufferType

namespace Window

variable {w w' : Window} {source source' type type' : BufferType}

def start (w : Window) (source : BufferType) (strides : List Int) : Except Fault (Option Int) :=
  match source.offset with
  | some base => linearOffset base w.offsets strides
  | none => .ok none

theorem resultType_eq_bind : w.resultType source = (do
    let strides ← source.strides
    let products ← (strides.zip w.strides).mapM fun (a, b) => Checked.mul a b
    let offset ← w.start source strides
    return ⟨w.sizes, source.element, .strided offset products, source.space⟩) := by
  simp only [resultType, start]
  cases source.offset <;> rfl

theorem resultType_eq_ok : w.resultType source = .ok type ↔ ∃ strides products offset,
    source.strides = .ok strides ∧
      (strides.zip w.strides).mapM (fun (a, b) => Checked.mul a b) = .ok products ∧
        w.start source strides = .ok offset ∧
          type = ⟨w.sizes, source.element, .strided offset products, source.space⟩ := by
  simp only [resultType_eq_bind, Fault.bind_eq_ok]
  constructor
  · rintro ⟨strides, hstrides, products, hproducts, offset, hoffset, htype⟩
    exact ⟨strides, products, offset, hstrides, hproducts, hoffset, (Except.ok.inj htype).symm⟩
  · rintro ⟨strides, products, offset, hstrides, hproducts, hoffset, rfl⟩
    exact ⟨strides, hstrides, products, hproducts, offset, hoffset, rfl⟩

def Types (w : Window) (source type : BufferType) : Prop :=
  w.resultType source = .ok type ∨ w.resultType source.unplaced = .ok type

instance (w : Window) (source type : BufferType) : Decidable (w.Types source type) :=
  inferInstanceAs (Decidable (_ ∨ _))

theorem Types.outlines (h : w.Types source type) (hs : source.Outlines source') :
    w.Types source' type := by
  rcases hs with rfl | rfl
  · exact h
  · rw [Types, BufferType.unplaced_unplaced, or_self] at h
    exact .inr h

structure Sharpened (w w' : Window) : Prop where
  sizes : w'.sizes = w.sizes
  strides : w'.strides = w.strides
  offsets : List.Forall₂ (fun o o' => o = o' ∨ o = .dynamic) w.offsets w'.offsets

theorem linearOffset_sharpened {base : Int} {offsets offsets' : List Offset} {strides : List Int}
    {offset offset' : Option Int}
    (hs : List.Forall₂ (fun o o' => o = o' ∨ o = .dynamic) offsets offsets')
    (h : linearOffset base offsets strides = .ok offset)
    (h' : linearOffset base offsets' strides = .ok offset') :
    offset = offset' ∨ offset = none := by
  induction hs generalizing base strides with
  | nil => exact .inl (by simpa [linearOffset] using h.symm.trans h')
  | @cons o o' offsets offsets' ho _ ih =>
    cases strides with
    | nil => exact .inl (by cases o <;> cases o' <;> simp_all [linearOffset])
    | cons stride strides =>
      rcases ho with rfl | rfl
      · cases o with
        | dynamic => exact .inr (by simpa [linearOffset] using h.symm)
        | static value =>
          simp only [linearOffset, Fault.bind_eq_ok] at h h'
          obtain ⟨p, hp, q, hq, h⟩ := h
          obtain ⟨p', hp', q', hq', h'⟩ := h'
          obtain rfl : p = p' := by simpa using hp.symm.trans hp'
          obtain rfl : q = q' := by simpa using hq.symm.trans hq'
          exact ih h h'
      · exact .inr (by simpa [linearOffset] using h.symm)

theorem resultType_sharpened (hw : w.Sharpened w') (h : w.resultType source = .ok type)
    (h' : w'.resultType source = .ok type') : type.Outlines type' := by
  obtain ⟨strides, products, offset, hstrides, hproducts, hoffset, rfl⟩ := resultType_eq_ok.1 h
  obtain ⟨strides', products', offset', hstrides', hproducts', hoffset', rfl⟩ :=
    resultType_eq_ok.1 h'
  obtain rfl : strides = strides' := by simpa using hstrides.symm.trans hstrides'
  rw [hw.strides] at hproducts'
  obtain rfl : products = products' := by simpa using hproducts.symm.trans hproducts'
  have hcases : offset = offset' ∨ offset = none := by
    rw [start] at hoffset hoffset'
    cases hbase : source.offset with
    | some base =>
      rw [hbase] at hoffset hoffset'
      exact linearOffset_sharpened hw.offsets hoffset hoffset'
    | none =>
      rw [hbase] at hoffset
      exact .inr (Except.ok.inj hoffset).symm
  rw [hw.sizes]
  exact hcases.imp (fun e => by rw [e]) fun e => by rw [e]; rfl

theorem resultType_unplaced (h : w.resultType source = .ok type) :
    ∃ type', w.resultType source.unplaced = .ok type' ∧ type'.Outlines type := by
  obtain ⟨shape, element, layout, space⟩ := source
  cases layout with
  | identity => exact ⟨type, h, .refl type⟩
  | strided base strides =>
    obtain ⟨strides, products, offset, hstrides, hproducts, -, rfl⟩ := resultType_eq_ok.1 h
    exact ⟨_, resultType_eq_ok.2 ⟨strides, products, none, hstrides, hproducts, rfl, rfl⟩, .inr rfl⟩

theorem Types.sharpened (h : w.Types source type) (hw : w.Sharpened w')
    (h' : w'.resultType source = .ok type') : type.Outlines type' := by
  rcases h with h | h
  · exact resultType_sharpened hw h h'
  · obtain ⟨type'', h'', houtlines⟩ := resultType_unplaced h'
    exact (resultType_sharpened hw h h'').trans houtlines

end Window

end KernelLowering
