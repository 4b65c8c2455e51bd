import KernelLowering.Proofs.Kernel.Effect
import KernelLowering.Proofs.Tiling.Bounds

namespace KernelLowering

theorem zipWith_add_cancel {starts i j : List Int} (hi : i.length = starts.length)
    (hj : j.length = starts.length)
    (h : List.zipWith (· + ·) starts i = List.zipWith (· + ·) starts j) : i = j := by
  induction starts generalizing i j with
  | nil => rw [List.length_eq_zero_iff.1 hi, List.length_eq_zero_iff.1 hj]
  | cons s starts ih =>
    obtain ⟨a, i, rfl⟩ := List.exists_cons_of_length_eq_add_one hi
    obtain ⟨b, j, rfl⟩ := List.exists_cons_of_length_eq_add_one hj
    simp only [List.zipWith_cons_cons, List.cons.injEq] at h
    rw [ih (by simpa using hi) (by simpa using hj) h.2, Int.add_left_cancel h.1]

theorem zipWith_add_mem_box {starts sizes i : List Int} {shape : Shape}
    (h : List.Forall₂ (fun p extent => 0 ≤ p.1 ∧ p.1 + p.2 ≤ extent) (starts.zip sizes) shape)
    (hlen : starts.length = sizes.length) (hi : i ∈ box sizes) :
    List.zipWith (· + ·) starts i ∈ box shape := by
  rw [mem_box] at hi ⊢
  induction hi generalizing starts shape with
  | nil =>
    obtain rfl := List.length_eq_zero_iff.1 hlen
    cases h
    exact .nil
  | @cons x size i sizes hx _ ih =>
    obtain ⟨s, starts, rfl⟩ := List.exists_cons_of_length_eq_add_one hlen
    cases h with
    | @cons _ extent _ shape hs hrest =>
      refine .cons ?_ (ih hrest (by simpa using hlen))
      dsimp only at hs ⊢
      omega

theorem Window.Within.embeds {w : Window} {starts : List Int} {shape : Shape}
    (h : w.Within starts shape) (hlen : w.strides.length = w.sizes.length) : w.Embeds starts shape := by
  have hshift : ∀ i ∈ box w.sizes, w.shift starts i = List.zipWith (· + ·) starts i := fun i hi =>
    w.shift_of_ones h.strides ((length_of_mem_box hi).trans hlen.symm).le
  refine ⟨fun i hi => ?_, fun i hi j hj hij => ?_⟩
  · rw [hshift i hi]
    exact zipWith_add_mem_box h.bounds h.length hi
  · rw [hshift i hi, hshift j hj] at hij
    exact zipWith_add_cancel ((length_of_mem_box hi).trans h.length.symm)
      ((length_of_mem_box hj).trans h.length.symm) hij

namespace Code

theorem throughout_kept (x : Code) (env : Env) :
    x.Throughout (fun _ inner => ∀ u ∉ x.defined, inner u = env u) env := by
  induction x generalizing env with
  | nil => trivial
  | node h body rest ihb ihr =>
    simp only [defined_node, List.mem_append, not_or]
    refine ⟨fun _ _ => rfl, fun i _ => (ihb _).mono fun _ inner hin u hu => ?_,
      (ihr _).mono fun _ inner hin u hu => ?_⟩
    · exact (hin u hu.2.1).trans (env.setAll_of_not_mem fun hm => hu.1 (List.mem_append_right _ hm))
    · exact (hin u hu.2.2).trans (h.bind_of_not_mem env hu.1)

theorem throughout_within_append {p : Node → Env → Prop} {loops : List Node} {y z : Code} {env : Env}
    (hy : (within loops y).Throughout p env) (hz : ∀ hd ∈ z.heads, ∀ env, p hd env) :
    (within loops (y ++ z)).Throughout p env := by
  induction loops generalizing env with
  | nil => exact throughout_append.2 ⟨hy, throughout_of_heads hz _⟩
  | cons h loops ih => exact ⟨hy.1, fun i hi => ih (hy.2.1 i hi), trivial⟩

end Code

namespace Tiling

section Cuts

variable {kind : KernelKind} {sizes start extents : List Int} {refs tiles : List Ref}

def Cuts (refs tiles : List Ref) : Prop :=
  ∀ (k : Nat) (tile : Ref), tiles[k]? = some tile → ∃ r : Ref, refs[k]? = some r ∧ tile.root = r.root ∧
    ∀ i ∈ box tile.shape, ∃ j ∈ box r.shape, r.cell j = tile.cell i

theorem TileRefs.window (h : TileRefs sizes start kind.operandMaps refs tiles)
    (hextents : kind.extentsOf (refs.map (·.shape)) = .ok (some extents))
    (hlen : start.length = sizes.length)
    (hin : List.Forall₂ (fun p extent => 0 ≤ p.1 ∧ 0 < p.2 ∧ p.1 + p.2 ≤ extent)
      (start.zip sizes) extents) {k : Nat} {tile : Ref} (hk : tiles[k]? = some tile) :
    ∃ r map, refs[k]? = some r ∧ kind.operandMaps[k]? = some map ∧ TileRef sizes start map r tile ∧
      ∀ i ∈ box tile.shape,
        List.zipWith (· + ·) (KernelKind.indexAt map start) i ∈ box r.shape ∧
          tile.cell i = r.cell (List.zipWith (· + ·) (KernelKind.indexAt map start) i) := by
  have hwindows := (KernelKind.extentsOf_eq_ok.1 hextents).1.windows_le hlen hin
  obtain ⟨hlt, rfl⟩ := List.getElem?_eq_some_iff.1 hk
  have hlt' := h.length_eq ▸ hlt
  have htile := (List.forall₂_iff_get.1 h).2 k hlt' hlt
  simp only [List.get_eq_getElem, List.getElem_zip] at htile
  rw [List.length_zip, Nat.lt_min] at hlt'
  refine ⟨_, _, List.getElem?_eq_getElem hlt'.1, List.getElem?_eq_getElem hlt'.2, htile, fun i hi => ?_⟩
  have hbounds := (List.forall₂_iff_get.1 hwindows).2 k hlt'.2 (by simpa using hlt'.1)
  simp only [List.get_eq_getElem, List.getElem_map] at hbounds
  rw [htile.shape] at hi
  refine ⟨zipWith_add_mem_box hbounds (by simp [KernelKind.length_indexAt]) hi, ?_⟩
  rw [Ref.cell, Ref.cell, htile.root, htile.place i (by simpa using length_of_mem_box hi)]

theorem TileRefs.cuts (h : TileRefs sizes start kind.operandMaps refs tiles)
    (hextents : kind.extentsOf (refs.map (·.shape)) = .ok (some extents))
    (hlen : start.length = sizes.length)
    (hin : List.Forall₂ (fun p extent => 0 ≤ p.1 ∧ 0 < p.2 ∧ p.1 + p.2 ≤ extent)
      (start.zip sizes) extents) : Cuts refs tiles := by
  intro k tile hk
  obtain ⟨r, map, hr, -, htile, hcells⟩ := h.window hextents hlen hin hk
  exact ⟨r, hr, htile.root, fun i hi => ⟨_, (hcells i hi).1, (hcells i hi).2.symm⟩⟩

theorem TileRefs.fit (h : TileRefs sizes start kind.operandMaps refs tiles)
    (hlen : start.length = sizes.length)
    (hin : List.Forall₂ (fun p extent => 0 ≤ p.1 ∧ 0 < p.2 ∧ p.1 + p.2 ≤ extent)
      (start.zip sizes) extents)
    (hextents : kind.extentsOf (refs.map (·.shape)) = .ok (some extents))
    (hsizes : kind.extentsOf (kind.operandMaps.map fun map => map.map (span sizes)) =
      .ok (some sizes)) (hfit : (Action.kernel kind refs).Fit) : (Action.kernel kind tiles).Fit := by
  have hrefs : refs.length = kind.operandMaps.length := by
    rw [kind.length_operandMaps, ← (KernelKind.extentsOf_eq_ok.1 hextents).1.length_shapes,
      List.length_map]
  obtain ⟨-, hnd, hdistinct⟩ := hfit
  refine ⟨⟨sizes, h.shapes hrefs ▸ hsizes⟩, ?_, fun z' hz' i hi j hj hij => ?_⟩
  · have hroots : tiles.map (·.root) = refs.map (·.root) := by
      refine List.ext_getElem (by simp [← h.length_eq, hrefs]) fun k hk hk' => ?_
      rw [List.length_map] at hk hk'
      obtain ⟨r, map, hr, -, htile, -⟩ := h.window hextents hlen hin (List.getElem?_eq_getElem hk)
      rw [List.getElem?_eq_getElem hk', Option.some.injEq] at hr
      rw [List.getElem_map, List.getElem_map, htile.root, hr]
    exact hroots ▸ hnd
  · obtain ⟨z, map, hz, -, htile, hcells⟩ := h.window hextents hlen hin hz'
    rw [(hcells i hi).2, (hcells j hj).2] at hij
    have hsame := hdistinct z hz _ (hcells i hi).1 _ (hcells j hj).1 hij
    rw [htile.shape] at hi hj
    refine zipWith_add_cancel ?_ ?_ hsame
    · rw [KernelKind.length_indexAt, length_of_mem_box hi, List.length_map]
    · rw [KernelKind.length_indexAt, length_of_mem_box hj, List.length_map]

end Cuts

end Tiling

end KernelLowering
