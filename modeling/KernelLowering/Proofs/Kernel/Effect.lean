import Mathlib.Algebra.BigOperators.Group.List.Basic
import KernelLowering.Meaning.Memory
import KernelLowering.Meaning.Trace
import KernelLowering.Proofs.Kernel.Shapes

namespace KernelLowering.KernelKind

variable {kind : KernelKind} {shapes : List Shape} {extents point : List Int}

theorem Shaped.indexAt_mem (h : Shaped kind shapes extents) (hp : point ∈ box extents) :
    List.Forall₂ (fun map shape => indexAt map point ∈ box shape) kind.operandMaps shapes := by
  rw [mem_box] at hp
  cases h with
  | matmul hm hn hk =>
    obtain ⟨a, as, ha, has, rfl⟩ := List.forall₂_cons_right_iff.1 hp
    obtain ⟨b, bs, hb, hbs, rfl⟩ := List.forall₂_cons_right_iff.1 has
    obtain ⟨c, cs, hc, hcs, rfl⟩ := List.forall₂_cons_right_iff.1 hbs
    simp only [operandMaps, indexAt, mem_box]
    simp
    omega
  | conv2d pos height width =>
    obtain ⟨a, as, ha, has, rfl⟩ := List.forall₂_cons_right_iff.1 hp
    obtain ⟨b, bs, hb, hbs, rfl⟩ := List.forall₂_cons_right_iff.1 has
    obtain ⟨c, cs, hc, hcs, rfl⟩ := List.forall₂_cons_right_iff.1 hbs
    obtain ⟨d, ds, hd, hds, rfl⟩ := List.forall₂_cons_right_iff.1 hcs
    obtain ⟨e, es, he, hes, rfl⟩ := List.forall₂_cons_right_iff.1 hds
    obtain ⟨f, fs, hf, hfs, rfl⟩ := List.forall₂_cons_right_iff.1 hes
    obtain ⟨g, gs, hg, hgs, rfl⟩ := List.forall₂_cons_right_iff.1 hfs
    simp only [operandMaps, indexAt, mem_box]
    simp
    omega

end KernelLowering.KernelKind

namespace KernelLowering

namespace Memory

variable {us us' : List Update} {m : Memory} {c : Ref.Cell}

def share (m : Memory) (c : Ref.Cell) : Update → Int
  | [x, y, z] => if z = c then m x * m y else 0
  | _ => 0

def Apart (us : List Update) : Prop :=
  ∀ {x y z x' y' z'}, [x, y, z] ∈ us → [x', y', z'] ∈ us → z ≠ x' ∧ z ≠ y'

theorem Apart.of_subset (h : Apart us) (hs : us' ⊆ us) : Apart us' := fun hu hw =>
  h (hs hu) (hs hw)

theorem accumulate_eq_share (m : Memory) (c : Ref.Cell) (u : Update) :
    m.accumulate u c = m c + m.share c u := by
  match u with
  | [x, y, z] =>
    simp only [accumulate, share]
    by_cases hz : z = c
    · subst z
      rw [write_self, if_pos rfl]
    · rw [write_of_ne _ _ (Ne.symm hz), if_neg hz, Int.add_zero]
  | [] => simp [accumulate, share]
  | [_] => simp [accumulate, share]
  | [_, _] => simp [accumulate, share]
  | _ :: _ :: _ :: _ :: _ => simp [accumulate, share]

theorem share_accumulate {u w : Update} (h : Apart us) (hu : u ∈ us) (hw : w ∈ us) :
    (m.accumulate u).share c w = m.share c w := by
  match u, w with
  | [x, y, z], [x', y', z'] =>
    obtain ⟨hx, hy⟩ := h hu hw
    simp only [share, accumulate]
    rw [write_of_ne _ _ (Ne.symm hx), write_of_ne _ _ (Ne.symm hy)]
  | [], _ => rfl
  | [_], _ => rfl
  | [_, _], _ => rfl
  | _ :: _ :: _ :: _ :: _, _ => rfl
  | _, [] => rfl
  | _, [_] => rfl
  | _, [_, _] => rfl
  | _, _ :: _ :: _ :: _ :: _ => rfl

theorem foldl_accumulate (h : Apart us) :
    us.foldl accumulate m c = m c + (us.map (m.share c)).sum := by
  induction us generalizing m with
  | nil => simp
  | cons u us ih =>
    have hshares : us.map ((m.accumulate u).share c) = us.map (m.share c) :=
      List.map_congr_left fun w hw =>
        share_accumulate h List.mem_cons_self (List.mem_cons_of_mem u hw)
    rw [List.foldl_cons, ih (h.of_subset (List.subset_cons_self u us)), hshares,
      accumulate_eq_share, List.map_cons, List.sum_cons, Int.add_assoc]

theorem foldl_accumulate_perm (h : Apart us) (hp : us'.Perm us) :
    us'.foldl accumulate m = us.foldl accumulate m := by
  funext c
  rw [foldl_accumulate h, foldl_accumulate (h.of_subset hp.subset), (hp.map _).sum_eq]

end Memory

def Ref.Clear : List Ref → Prop
  | x :: y :: z :: _ => z.root ≠ x.root ∧ z.root ≠ y.root
  | _ => True

theorem Ref.Clear.apart {refs : List Ref} (h : Clear refs) (kind : KernelKind) :
    Memory.Apart (kind.updates refs) := by
  intro x y z x' y' z' hu hw
  obtain ⟨p, -, hp⟩ := List.mem_map.1 hu
  obtain ⟨q, -, hq⟩ := List.mem_map.1 hw
  obtain ⟨a, b, c, hmaps⟩ : ∃ a b c : OperandMap, kind.operandMaps = [a, b, c] := by
    cases kind <;> exact ⟨_, _, _, rfl⟩
  rw [KernelKind.updateAt, hmaps] at hp hq
  match refs with
  | [] => cases hp
  | [_] => cases hp
  | [_, _] => cases hp
  | _ :: _ :: _ :: _ =>
    simp only [List.zipWith_cons_cons, List.zipWith_nil_right, List.cons.injEq, and_true] at hp hq
    obtain ⟨-, -, rfl⟩ := hp
    obtain ⟨rfl, rfl, -⟩ := hq
    exact ⟨fun e => h.1 (congrArg Prod.fst e), fun e => h.2 (congrArg Prod.fst e)⟩

end KernelLowering
