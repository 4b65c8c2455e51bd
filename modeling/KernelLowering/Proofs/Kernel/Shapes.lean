import KernelLowering.Kernel.Kind
import KernelLowering.Proofs.Layout.Windows
import Mathlib.Algebra.GroupWithZero.Nat
import Mathlib.Algebra.Order.BigOperators.Group.List
import Mathlib.Algebra.Ring.Int.Defs
import Mathlib.Data.List.Forall2

namespace KernelLowering

def span (extents : List Int) (terms : List Nat) : Int :=
  (terms.map fun d => extents[d]?.getD 0).sum - (terms.length - 1)

namespace KernelKind

inductive Shaped : KernelKind → List Shape → List Int → Prop
  | matmul {m n k : Int} (hm : 0 < m) (hn : 0 < n) (hk : 0 < k) :
      Shaped .matmul [[m, k], [k, n], [m, n]] [m, n, k]
  | conv2d {n c h w f kh kw oh ow : Int}
      (pos : ∀ extent ∈ [n, f, oh, ow, kh, kw, c], 0 < extent)
      (height : oh + kh - 1 ≤ h) (width : ow + kw - 1 ≤ w) :
      Shaped .conv2d [[n, c, h, w], [f, c, kh, kw], [n, f, oh, ow]] [n, f, oh, ow, kh, kw, c]

def SumsFit (kind : KernelKind) (extents : List Int) : Prop :=
  ∀ map ∈ kind.operandMaps, ∀ terms ∈ map,
    (terms.map fun d => extents[d]?.getD 0).sum ≤ Checked.maxValue

def ExtentsFit : KernelKind → List Int → Prop
  | conv2d, [_, _, oh, ow, kh, kw, _] =>
      (Checked.Fits oh ∧ Checked.Fits (oh + kh) ∧ Checked.Fits (oh + kh - 1)) ∧
        Checked.Fits ow ∧ Checked.Fits (ow + kw) ∧ Checked.Fits (ow + kw - 1)
  | _, _ => True

variable {kind : KernelKind} {shapes : List Shape} {extents : List Int}

namespace Shaped

theorem pos (h : Shaped kind shapes extents) : ∀ extent ∈ extents, 0 < extent := by
  cases h with
  | matmul hm hn hk => simp [hm, hn, hk]
  | conv2d pos _ _ => exact pos

theorem length_shapes (h : Shaped kind shapes extents) : shapes.length = 3 := by
  cases h <;> rfl

theorem length_extents (h : Shaped kind shapes extents) : extents.length = kind.loopRank := by
  cases h <;> rfl

theorem exists_of_length_eq_seven {sizes : List Int} (h : sizes.length = 7) :
    ∃ n f oh ow kh kw c, sizes = [n, f, oh, ow, kh, kw, c] := by
  obtain _ | ⟨n, _ | ⟨f, _ | ⟨oh, _ | ⟨ow, _ | ⟨kh, _ | ⟨kw, _ | ⟨c, _ | ⟨d, rest⟩⟩⟩⟩⟩⟩⟩⟩ := sizes
  all_goals simp at h ⊢

theorem ofSizes {sizes : List Int} (hpos : ∀ size ∈ sizes, 0 < size)
    (hlen : sizes.length = kind.loopRank) :
    Shaped kind (kind.operandMaps.map fun map => map.map (span sizes)) sizes := by
  cases kind with
  | matmul =>
    obtain ⟨m, n, k, rfl⟩ := List.length_eq_three.1 hlen
    simp only [List.forall_mem_cons, List.not_mem_nil, false_implies, implies_true] at hpos
    have h := Shaped.matmul hpos.1 hpos.2.1 hpos.2.2.1
    simpa [operandMaps, span] using h
  | conv2d =>
    obtain ⟨n, f, oh, ow, kh, kw, c, rfl⟩ := exists_of_length_eq_seven hlen
    have h := Shaped.conv2d (h := oh + kh - 1) (w := ow + kw - 1) hpos (Int.le_refl _)
      (Int.le_refl _)
    simpa [operandMaps, span] using h

end Shaped

theorem windowExtent_eq_ok {a b size : Int} : windowExtent [a, b] = .ok size ↔
    Checked.Fits a ∧ Checked.Fits (a + b) ∧ Checked.Fits (a + b - 1) ∧ a + b - 1 = size := by
  simp [windowExtent, Checked.sum, List.foldlM_cons, List.foldlM_nil, Fault.bind_eq_ok,
    Checked.add_eq_ok, Checked.sub_eq_ok]

theorem matmulExtents_eq_some : matmulExtents shapes = some extents ↔
    ∃ m n k, shapes = [[m, k], [k, n], [m, n]] ∧ extents = [m, n, k] := by
  constructor
  · intro h
    unfold matmulExtents at h
    split at h
    · split at h
      · rename_i heq
        obtain ⟨rfl, rfl, rfl⟩ := heq
        cases h
        exact ⟨_, _, _, rfl, rfl⟩
      · cases h
    · cases h
  · rintro ⟨m, n, k, rfl, rfl⟩
    simp [matmulExtents]

theorem conv2dExtents_eq_ok : conv2dExtents shapes = .ok (some extents) ↔
    ∃ n c h w f kh kw oh ow, shapes = [[n, c, h, w], [f, c, kh, kw], [n, f, oh, ow]] ∧
      extents = [n, f, oh, ow, kh, kw, c] ∧ oh + kh - 1 ≤ h ∧ ow + kw - 1 ≤ w ∧
      conv2d.ExtentsFit extents := by
  constructor
  · intro hx
    unfold conv2dExtents at hx
    split at hx
    · rename_i n c h w f c' kh kw n' f' oh ow
      split at hx
      · cases hx
      · rename_i heq
        simp only [not_or, ne_eq, Decidable.not_not] at heq
        obtain ⟨rfl, rfl, rfl⟩ := heq
        simp only [Fault.bind_eq_ok] at hx
        obtain ⟨height, hheight, hx⟩ := hx
        split at hx
        · cases hx
        · simp only [Fault.bind_eq_ok] at hx
          obtain ⟨width, hwidth, hx⟩ := hx
          split at hx
          · cases hx
          · cases hx
            rw [windowExtent_eq_ok] at hheight hwidth
            refine ⟨_, _, _, _, _, _, _, _, _, rfl, rfl, ?_, ?_, ?_⟩
            · omega
            · omega
            · exact ⟨⟨hheight.1, hheight.2.1, hheight.2.2.1⟩,
                hwidth.1, hwidth.2.1, hwidth.2.2.1⟩
    · cases hx
  · rintro ⟨n, c, h, w, f, kh, kw, oh, ow, rfl, rfl, hh, hw, ⟨h1, h2, h3⟩, w1, w2, w3⟩
    have hheight := windowExtent_eq_ok.2 ⟨h1, h2, h3, rfl⟩
    have hwidth := windowExtent_eq_ok.2 ⟨w1, w2, w3, rfl⟩
    simp only [conv2dExtents, hheight, hwidth]
    simp only [ne_eq, not_true_eq_false, or_self, if_false]
    show (if h < oh + kh - 1 then .ok none else
      if w < ow + kw - 1 then .ok none else .ok (some _) : Except Fault _) = _
    rw [if_neg (by omega), if_neg (by omega)]

theorem extentsOf_eq_ok : kind.extentsOf shapes = .ok (some extents) ↔
    Shaped kind shapes extents ∧ kind.ExtentsFit extents := by
  cases kind with
  | matmul =>
    show (Except.ok ((matmulExtents shapes).filter _) : Except Fault _) = _ ↔ _
    rw [Except.ok.injEq, Option.filter_eq_some_iff, matmulExtents_eq_some]
    constructor
    · rintro ⟨⟨m, n, k, rfl, rfl⟩, hpos⟩
      simp only [List.all_cons, List.all_nil, Bool.and_true, Bool.and_eq_true,
        decide_eq_true_eq] at hpos
      exact ⟨.matmul hpos.1 hpos.2.1 hpos.2.2, trivial⟩
    · rintro ⟨h, -⟩
      cases h with
      | matmul hm hn hk => exact ⟨⟨_, _, _, rfl, rfl⟩, by simp [hm, hn, hk]⟩
  | conv2d =>
    show (conv2dExtents shapes >>= fun found => .ok (found.filter _)) = _ ↔ _
    simp only [Fault.bind_eq_ok, Except.ok.injEq, Option.filter_eq_some_iff]
    constructor
    · rintro ⟨_, hx, rfl, hpos⟩
      obtain ⟨n, c, h, w, f, kh, kw, oh, ow, rfl, rfl, hh, hw, hfit⟩ := conv2dExtents_eq_ok.1 hx
      exact ⟨.conv2d (by simpa using hpos) hh hw, hfit⟩
    · rintro ⟨h, hfit⟩
      cases h with
      | conv2d pos hh hw =>
        exact ⟨_, conv2dExtents_eq_ok.2 ⟨_, _, _, _, _, _, _, _, _, rfl, rfl, hh, hw, hfit⟩, rfl,
          by simpa using pos⟩

theorem SumsFit.of_shaped (h : Shaped kind shapes extents) (hfit : kind.ExtentsFit extents)
    (hshapes : ∀ shape ∈ shapes, ∀ extent ∈ shape, extent ≤ Checked.maxValue) :
    kind.SumsFit extents := by
  cases h with
  | matmul hm hn hk => simp_all [SumsFit, operandMaps]
  | conv2d pos hh hw =>
    obtain ⟨⟨-, ⟨-, hrows⟩, -⟩, -, ⟨-, hcolumns⟩, -⟩ := hfit
    simp_all [SumsFit, operandMaps]

theorem getD_le {sizes : List Int} (h : List.Forall₂ (· ≤ ·) sizes extents) (d : Nat) :
    sizes[d]?.getD 0 ≤ extents[d]?.getD 0 := by
  induction h generalizing d with
  | nil => exact Int.le_refl _
  | cons hle _ ih =>
    cases d with
    | zero => exact hle
    | succ d => exact ih d

theorem SumsFit.mono {sizes : List Int} (h : kind.SumsFit extents)
    (hle : List.Forall₂ (· ≤ ·) sizes extents) : kind.SumsFit sizes := by
  intro map hm terms ht
  refine Int.le_trans ?_ (h map hm terms ht)
  clear ht
  induction terms with
  | nil => exact Int.le_refl _
  | cons d terms ih =>
    simp only [List.map_cons, List.sum_cons]
    exact Int.add_le_add (getD_le hle d) ih

theorem ExtentsFit.mono {sizes : List Int} (h : kind.ExtentsFit extents)
    (hpos : ∀ size ∈ sizes, 0 < size) (hle : List.Forall₂ (· ≤ ·) sizes extents)
    (hlen : extents.length = kind.loopRank) : kind.ExtentsFit sizes := by
  cases kind with
  | matmul => trivial
  | conv2d =>
    obtain ⟨n, f, oh, ow, kh, kw, c, rfl⟩ := Shaped.exists_of_length_eq_seven hlen
    simp only [List.forall₂_cons_right_iff, List.forall₂_nil_right_iff] at hle
    obtain ⟨n', _, hn, ⟨f', _, hf, ⟨oh', _, hoh, ⟨ow', _, how, ⟨kh', _, hkh, ⟨kw', _, hkw,
      ⟨c', _, hc, rfl, rfl⟩, rfl⟩, rfl⟩, rfl⟩, rfl⟩, rfl⟩, rfl⟩ := hle
    simp only [List.forall_mem_cons] at hpos
    simp only [ExtentsFit, Checked.Fits, Checked.minValue, Checked.maxValue] at h ⊢
    omega

end KernelKind

theorem Checked.yields_add (a b : Int) : Yields (¬ Fits (a + b)) (add a b) (· = a + b) := by
  unfold add fit
  split
  · rfl
  · exact ⟨rfl, ‹_›⟩

theorem Checked.yields_sub (a b : Int) : Yields (¬ Fits (a - b)) (sub a b) (· = a - b) :=
  yields_add a (-b)

theorem Checked.yields_sum {xs : List Int} (hpos : ∀ x ∈ xs, 0 ≤ x) :
    Yields (maxValue < xs.sum) (sum xs) (· = xs.sum) := by
  have hrun : ∀ a, 0 ≤ a → Yields (maxValue < a + xs.sum) (xs.foldlM add a) (· = a + xs.sum) := by
    induction xs with
    | nil => exact fun a _ => by simp
    | cons x xs ih =>
      intro a ha
      rw [List.forall_mem_cons] at hpos
      have hsum : 0 ≤ xs.sum := List.sum_nonneg hpos.2
      rw [List.foldlM_cons, List.sum_cons, Yields.bind_iff, ← Int.add_assoc]
      refine ((yields_add a x).weaken fun h => ?_).mono ?_
      · simp only [Fits, minValue] at h
        omega
      · rintro _ - rfl
        exact ih hpos.2 (a + x) (by omega)
  simpa [sum] using hrun 0 (Int.le_refl 0)

theorem length_le_sum {xs : List Int} (hpos : ∀ x ∈ xs, 0 < x) : (xs.length : Int) ≤ xs.sum := by
  induction xs with
  | nil => simp
  | cons x xs ih =>
    rw [List.forall_mem_cons] at hpos
    have := ih hpos.2
    simp only [List.length_cons, List.sum_cons]
    omega

theorem yields_windowExtent {xs : List Int} (hpos : ∀ x ∈ xs, 0 < x) :
    Yields (Checked.maxValue < xs.sum) (windowExtent xs) (· = xs.sum - (xs.length - 1)) := by
  have hlen := length_le_sum hpos
  rw [windowExtent, Yields.bind_iff]
  refine (Checked.yields_sum fun x hx => Int.le_of_lt (hpos x hx)).mono ?_
  rintro _ - rfl
  by_cases h : Checked.Fits (xs.sum - (xs.length - 1))
  · rw [Checked.sub_eq_ok.2 ⟨h, rfl⟩]
    rfl
  · refine (Checked.yields_fit _).weaken (fun _ => ?_) |>.mono fun _ hok _ => (h (Checked.fit_eq_ok.1 hok).1).elim
    cases xs with
    | nil => exact absurd (by decide) h
    | cons x xs =>
      simp only [List.length_cons, Checked.Fits, Checked.minValue] at hlen h
      omega

end KernelLowering
