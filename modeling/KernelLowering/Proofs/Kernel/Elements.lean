import KernelLowering.Proofs.Kernel.Effect

namespace KernelLowering

theorem linearIndex_bounds {shape i : List Int} (h : i ∈ box shape) :
    0 ≤ linearIndex shape i ∧ linearIndex shape i < shape.prod := by
  rw [mem_box] at h
  induction h with
  | nil => simp [linearIndex]
  | @cons x extent i shape hx _ ih =>
    rw [linearIndex, List.prod_cons]
    have hlow : 0 ≤ x * shape.prod := Int.mul_nonneg hx.1 (by omega)
    have hhigh : (x + 1) * shape.prod ≤ extent * shape.prod :=
      Int.mul_le_mul_of_nonneg_right hx.2 (by omega)
    rw [Int.add_mul] at hhigh
    omega

theorem linearIndex_inj {shape i j : List Int} (hi : i ∈ box shape) (hj : j ∈ box shape)
    (h : linearIndex shape i = linearIndex shape j) : i = j := by
  induction shape generalizing i j with
  | nil =>
    rw [List.length_eq_zero_iff.1 (length_of_mem_box hi),
      List.length_eq_zero_iff.1 (length_of_mem_box hj)]
  | cons extent shape ih =>
    obtain ⟨x, is, -, his, rfl⟩ := List.forall₂_cons_right_iff.1 (mem_box.1 hi)
    obtain ⟨y, js, -, hjs, rfl⟩ := List.forall₂_cons_right_iff.1 (mem_box.1 hj)
    have hi' := linearIndex_bounds (mem_box.2 his)
    have hj' := linearIndex_bounds (mem_box.2 hjs)
    rw [linearIndex, linearIndex] at h
    have hx : x = y := by
      have hdiv := congrArg (· / shape.prod) h
      simp only [Int.add_comm (_ * _)] at hdiv
      rwa [Int.add_mul_ediv_right _ _ (by omega), Int.add_mul_ediv_right _ _ (by omega),
        Int.ediv_eq_zero_of_lt hi'.1 hi'.2, Int.ediv_eq_zero_of_lt hj'.1 hj'.2, Int.zero_add,
        Int.zero_add] at hdiv
    subst y
    rw [ih (mem_box.2 his) (mem_box.2 hjs) (by omega)]

namespace Ref

def Distinct (r : Ref) : Prop := ∀ i ∈ box r.shape, ∀ j ∈ box r.shape, r.cell i = r.cell j → i = j

def Disjoint (r s : Ref) : Prop := ∀ i ∈ box r.shape, ∀ j ∈ box s.shape, r.cell i ≠ s.cell j

variable {r s : Ref}

instance : Decidable r.Distinct :=
  inferInstanceAs (Decidable (∀ i ∈ box r.shape, ∀ j ∈ box r.shape, r.cell i = r.cell j → i = j))

instance : Decidable (r.Disjoint s) :=
  inferInstanceAs (Decidable (∀ i ∈ box r.shape, ∀ j ∈ box s.shape, r.cell i ≠ s.cell j))

theorem Disjoint.symm (h : Disjoint r s) : Disjoint s r := fun i hi j hj e => h j hj i hi e.symm

theorem Disjoint.of_root_ne (h : r.root ≠ s.root) : Disjoint r s :=
  fun _ _ _ _ e => h (congrArg Prod.fst e)

end Ref

namespace Memory

section Copy

variable {m : Memory} {source destination : Ref} {is : List (List Int)}

theorem foldl_write_of_ne {c : Ref.Cell} (h : ∀ i ∈ is, destination.cell i ≠ c) :
    is.foldl (fun m i => m.write (destination.cell i) (m (source.cell i))) m c = m c := by
  induction is generalizing m with
  | nil => rfl
  | cons i is ih =>
    obtain ⟨hi, his⟩ := List.forall_mem_cons.1 h
    rw [List.foldl_cons, ih his, write_of_ne _ _ (Ne.symm hi)]

theorem foldl_write_cell (hinj : ∀ i ∈ is, ∀ j ∈ is, destination.cell i = destination.cell j → i = j)
    (hapart : ∀ i ∈ is, ∀ j ∈ is, source.cell i ≠ destination.cell j) {i : List Int} (hi : i ∈ is) :
    is.foldl (fun m i => m.write (destination.cell i) (m (source.cell i))) m (destination.cell i) =
      m (source.cell i) := by
  induction is generalizing m with
  | nil => cases hi
  | cons j is ih =>
    rw [List.foldl_cons]
    by_cases hmem : i ∈ is
    · rw [ih (fun a ha b hb => hinj a (.tail j ha) b (.tail j hb))
        (fun a ha b hb => hapart a (.tail j ha) b (.tail j hb)) hmem,
        write_of_ne _ _ (hapart i hi j List.mem_cons_self)]
    · obtain rfl : i = j := (List.mem_cons.1 hi).resolve_right hmem
      rw [foldl_write_of_ne fun a ha e => hmem (hinj a (.tail i ha) i hi e ▸ ha), write_self]

theorem copy_of_ne {c : Ref.Cell} (h : ∀ i ∈ box source.shape, destination.cell i ≠ c) :
    m.copy source destination c = m c :=
  foldl_write_of_ne h

theorem copy_cell (hshape : source.shape = destination.shape) (hinj : destination.Distinct)
    (hapart : source.Disjoint destination) {i : List Int} (hi : i ∈ box source.shape) :
    m.copy source destination (destination.cell i) = m (source.cell i) := by
  rw [Ref.Distinct, ← hshape] at hinj
  rw [Ref.Disjoint, ← hshape] at hapart
  exact foldl_write_cell hinj hapart hi

end Copy

section Kernel

variable {m : Memory} {kind : KernelKind} {extents : List Int} {x y z : Ref} {mx my mz : OperandMap}

def gain (m : Memory) (extents : List Int) (x y z : Ref) (mx my mz : OperandMap) (c : Ref.Cell) : Int :=
  ((box extents).map fun p =>
    if z.cell (KernelKind.indexAt mz p) = c then
      m (x.cell (KernelKind.indexAt mx p)) * m (y.cell (KernelKind.indexAt my p))
    else 0).sum

theorem mem_of_mem_box (hmaps : kind.operandMaps = [mx, my, mz])
    (hextents : kind.extentsOf [x.shape, y.shape, z.shape] = .ok (some extents)) {p : List Int}
    (hp : p ∈ box extents) : KernelKind.indexAt mx p ∈ box x.shape ∧
      KernelKind.indexAt my p ∈ box y.shape ∧ KernelKind.indexAt mz p ∈ box z.shape := by
  have hmem := (KernelKind.extentsOf_eq_ok.1 hextents).1.indexAt_mem hp
  rw [hmaps] at hmem
  simpa using hmem

theorem gain_congr {m' : Memory} {x' y' z' : Ref} {c c' : Ref.Cell}
    (hmaps : kind.operandMaps = [mx, my, mz])
    (hextents : kind.extentsOf [x.shape, y.shape, z.shape] = .ok (some extents))
    (hx : ∀ i ∈ box x.shape, m' (x'.cell i) = m (x.cell i))
    (hy : ∀ i ∈ box y.shape, m' (y'.cell i) = m (y.cell i))
    (hz : ∀ i ∈ box z.shape, z'.cell i = c' ↔ z.cell i = c) :
    m'.gain extents x' y' z' mx my mz c' = m.gain extents x y z mx my mz c := by
  refine congrArg List.sum (List.map_congr_left fun p hp => ?_)
  obtain ⟨hxp, hyp, hzp⟩ := mem_of_mem_box hmaps hextents hp
  simp only [hx _ hxp, hy _ hyp, hz _ hzp]

theorem foldl_updates (hmaps : kind.operandMaps = [mx, my, mz])
    (hextents : kind.extentsOf [x.shape, y.shape, z.shape] = .ok (some extents))
    (hx : z.Disjoint x) (hy : z.Disjoint y) (m : Memory) (c : Ref.Cell) :
    (kind.updates [x, y, z]).foldl accumulate m c = m c + m.gain extents x y z mx my mz c := by
  have hupdates : kind.updates [x, y, z] = (box extents).map fun p =>
      [x.cell (KernelKind.indexAt mx p), y.cell (KernelKind.indexAt my p),
        z.cell (KernelKind.indexAt mz p)] := by
    rw [KernelKind.updates, KernelKind.points]
    simp only [List.map_cons, List.map_nil, hextents]
    refine List.map_congr_left fun p _ => ?_
    rw [KernelKind.updateAt, hmaps]
    rfl
  have hapart : Apart (kind.updates [x, y, z]) := by
    rw [hupdates]
    intro a b d a' b' d' hu hw
    obtain ⟨p, hp, hu⟩ := List.mem_map.1 hu
    obtain ⟨q, hq, hw⟩ := List.mem_map.1 hw
    obtain ⟨-, -, hzp⟩ := mem_of_mem_box hmaps hextents hp
    obtain ⟨hxq, hyq, -⟩ := mem_of_mem_box hmaps hextents hq
    cases hu
    cases hw
    exact ⟨hx _ hzp _ hxq, hy _ hzp _ hyq⟩
  rw [foldl_accumulate hapart, hupdates, List.map_map]
  rfl

end Kernel

end Memory

end KernelLowering
