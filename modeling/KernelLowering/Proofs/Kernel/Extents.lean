import KernelLowering.Proofs.Kernel.Shapes
import Mathlib.Algebra.Order.Group.Unbundled.Abs

namespace KernelLowering

def Indexes (extents : List Int) : List Nat → Int → Prop
  | [d], extent => extents[d]? = some extent
  | terms, extent => span extents terms ≤ extent

theorem indexes_one {extents : List Int} {d : Nat} {extent : Int} :
    Indexes extents [d] extent ↔ extents[d]? = some extent := Iff.rfl

theorem indexes_sum {extents : List Int} {d d' : Nat} {terms : List Nat} {extent : Int} :
    Indexes extents (d :: d' :: terms) extent ↔ span extents (d :: d' :: terms) ≤ extent := Iff.rfl

namespace KernelKind

/-- Loops of these extents can index the operands as the operand maps have it: each operand has as many
dimensions as its map has entries, and is indexed along each by that entry. -/
structure Suits (kind : KernelKind) (operands : List BufferType) (extents : List Int) : Prop where
  count : operands.length = 3
  dims : List.Forall₂ (fun map type => type.rank = map.length ∧
    List.Forall₂ (Indexes extents) map type.shape) kind.operandMaps operands
  loops : extents.length = kind.loopRank
  pos : ∀ extent ∈ extents, 0 < extent

variable {kind : KernelKind} {operands : List BufferType} {shapes : List Shape} {extents : List Int}

theorem Suits.shaped (h : kind.Suits operands extents) :
    Shaped kind (operands.map (·.shape)) extents := by
  obtain ⟨-, hdims, hloops, hpos⟩ := h
  cases kind with
  | matmul =>
    obtain ⟨m, n, k, rfl⟩ := List.length_eq_three.1 hloops
    obtain ⟨a, ⟨-, ha⟩, b, c, ⟨⟨-, hb⟩, -, hc⟩, rfl⟩ : ∃ a : BufferType,
        (a.rank = 2 ∧ a.shape = [m, k]) ∧ ∃ b c : BufferType, ((b.rank = 2 ∧ b.shape = [k, n]) ∧
          c.rank = 2 ∧ c.shape = [m, n]) ∧ operands = [a, b, c] := by
      simpa [operandMaps, List.forall₂_cons_left_iff, indexes_one] using hdims
    simp only [List.forall_mem_cons] at hpos
    simpa [ha, hb, hc] using Shaped.matmul hpos.1 hpos.2.1 hpos.2.2.1
  | conv2d =>
    obtain ⟨n, f, oh, ow, kh, kw, ch, rfl⟩ := Shaped.exists_of_length_eq_seven hloops
    obtain ⟨a, ⟨-, height, width, ⟨hheight, hwidth⟩, ha⟩, b, c, ⟨⟨-, hb⟩, -, hc⟩, rfl⟩ :
        ∃ a : BufferType, (a.rank = 4 ∧ ∃ height width,
          (oh + kh ≤ height + 1 ∧ ow + kw ≤ width + 1) ∧ a.shape = [n, ch, height, width]) ∧
            ∃ b c : BufferType, ((b.rank = 4 ∧ b.shape = [f, ch, kh, kw]) ∧
              c.rank = 4 ∧ c.shape = [n, f, oh, ow]) ∧ operands = [a, b, c] := by
      simpa [operandMaps, List.forall₂_cons_left_iff, indexes_one, indexes_sum, span] using hdims
    simpa [ha, hb, hc] using
      Shaped.conv2d hpos (h := height) (w := width) (by omega) (by omega)

theorem Suits.of_shaped (h : Shaped kind (operands.map (·.shape)) extents) :
    kind.Suits operands extents := by
  have hcount : operands.length = 3 := by simpa using h.length_shapes
  obtain ⟨a, b, c, rfl⟩ := List.length_eq_three.1 hcount
  refine ⟨rfl, ?_, h.length_extents, h.pos⟩
  generalize hshapes : [a, b, c].map (·.shape) = shapes at h
  cases h with
  | matmul => simp_all [operandMaps, indexes_one, BufferType.rank]
  | conv2d pos height width =>
    simp_all [operandMaps, indexes_one, indexes_sum, span, BufferType.rank]

theorem suits_iff_shaped :
    kind.Suits operands extents ↔ Shaped kind (operands.map (·.shape)) extents :=
  ⟨Suits.shaped, Suits.of_shaped⟩

theorem Shaped.unique {extents' : List Int} (h : Shaped kind shapes extents)
    (h' : Shaped kind shapes extents') : extents = extents' := by
  cases h <;> cases h' <;> rfl

theorem windowExtent_of_small {a b : Int} (ha : |a| < 2 ^ 62) (hb : |b| < 2 ^ 62) :
    windowExtent [a, b] = .ok (a + b - 1) := by
  rw [abs_lt] at ha hb
  rw [windowExtent_eq_ok]
  simp only [Checked.Fits, Checked.minValue, Checked.maxValue, and_true]
  omega

theorem windowExtents_of_small {input : Shape} {filters channels kh kw n f oh ow : Int}
    (hsmall : ∀ shape ∈ [input, [filters, channels, kh, kw], [n, f, oh, ow]],
      ∀ extent ∈ shape, |extent| < 2 ^ 62) :
    windowExtent [oh, kh] = .ok (oh + kh - 1) ∧ windowExtent [ow, kw] = .ok (ow + kw - 1) := by
  simp only [List.forall_mem_cons] at hsmall
  obtain ⟨-, ⟨-, -, hkh, hkw, -⟩, ⟨-, -, hoh, how, -⟩, -⟩ := hsmall
  exact ⟨windowExtent_of_small hoh hkh, windowExtent_of_small how hkw⟩

section Small

variable (hsmall : ∀ shape ∈ shapes, ∀ extent ∈ shape, |extent| < 2 ^ 62)

include hsmall

theorem exists_extentsOf (kind : KernelKind) : ∃ found, kind.extentsOf shapes = .ok found := by
  cases kind with
  | matmul => exact ⟨_, rfl⟩
  | conv2d =>
    suffices h : ∃ found, conv2dExtents shapes = .ok found by
      obtain ⟨found, hfound⟩ := h
      exact ⟨_, by rw [extentsOf, hfound]; rfl⟩
    unfold conv2dExtents
    split
    · obtain ⟨hrows, hcolumns⟩ := windowExtents_of_small hsmall
      simp only [hrows, hcolumns, Fault.ok_bind]
      repeat' split
      all_goals exact ⟨_, rfl⟩
    · exact ⟨none, rfl⟩

theorem Shaped.extentsFit (h : Shaped kind shapes extents) : kind.ExtentsFit extents := by
  cases h with
  | matmul => trivial
  | conv2d =>
    obtain ⟨hrows, hcolumns⟩ := windowExtents_of_small hsmall
    rw [windowExtent_eq_ok] at hrows hcolumns
    exact ⟨⟨hrows.1, hrows.2.1, hrows.2.2.1⟩, hcolumns.1, hcolumns.2.1, hcolumns.2.2.1⟩

end Small

theorem iterationExtents_iff_suits (kind : KernelKind) (operands : List BufferType)
    (hsmall : ∀ type ∈ operands, ∀ extent ∈ type.shape, |extent| < 2 ^ 62) :
    ∃ found, kind.iterationExtents operands = .ok found ∧
      (∀ extents, found = some extents ↔ kind.Suits operands extents) ∧
        ∀ extents extents', kind.Suits operands extents → kind.Suits operands extents' →
          extents = extents' := by
  have hshapes : ∀ shape ∈ operands.map (·.shape), ∀ extent ∈ shape, |extent| < 2 ^ 62 := by
    simpa using hsmall
  obtain ⟨found, hfound⟩ := exists_extentsOf hshapes kind
  refine ⟨found, hfound, fun extents => ?_, fun extents extents' h h' => h.shaped.unique h'.shaped⟩
  rw [suits_iff_shaped]
  constructor
  · rintro rfl
    exact (extentsOf_eq_ok.1 hfound).1
  · intro h
    have hextents := extentsOf_eq_ok.2 ⟨h, h.extentsFit hshapes⟩
    exact Except.ok.inj (hfound.symm.trans hextents)

def fourRows (height : Int) : List BufferType :=
  [.rowMajor [1, 2, height, 6] .float32 .global, .rowMajor [3, 2, 2, 3] .float32 .global,
    .rowMajor [1, 3, 4, 3] .float32 .global]

theorem iterationExtents_iff_suits_fourRows :
    (∀ height ∈ [4, 5], ∀ type ∈ fourRows height, ∀ extent ∈ type.shape, |extent| < 2 ^ 62) ∧
      conv2d.iterationExtents (fourRows 5) = .ok (some [1, 3, 4, 3, 2, 3, 2]) ∧
        conv2d.Suits (fourRows 5) [1, 3, 4, 3, 2, 3, 2] ∧
          conv2d.iterationExtents (fourRows 4) = .ok none ∧
            ∀ extents, ¬ conv2d.Suits (fourRows 4) extents := by
  have hsmall : ∀ height ∈ [4, 5], ∀ type ∈ fourRows height, ∀ extent ∈ type.shape,
      |extent| < 2 ^ 62 := by decide
  have hfive : conv2d.iterationExtents (fourRows 5) = .ok (some [1, 3, 4, 3, 2, 3, 2]) := rfl
  have hfour : conv2d.iterationExtents (fourRows 4) = .ok none := rfl
  obtain ⟨found, hfound, hsuits, -⟩ :=
    iterationExtents_iff_suits .conv2d (fourRows 5) (hsmall 5 (by simp))
  obtain ⟨found', hfound', hsuits', -⟩ :=
    iterationExtents_iff_suits .conv2d (fourRows 4) (hsmall 4 (by simp))
  obtain rfl := Except.ok.inj (hfound.symm.trans hfive)
  obtain rfl := Except.ok.inj (hfound'.symm.trans hfour)
  exact ⟨hsmall, hfive, (hsuits _).1 rfl, hfour, fun extents h => by cases (hsuits' extents).2 h⟩

end KernelKind

end KernelLowering
