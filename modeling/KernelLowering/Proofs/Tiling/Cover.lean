import KernelLowering.Proofs.Tiling.Partition

namespace KernelLowering

section Boxes

theorem nodup_tuples {columns : List (List Int)} (h : ∀ column ∈ columns, column.Nodup) :
    (tuples columns).Nodup := by
  induction columns with
  | nil => simp [tuples]
  | cons column columns ih =>
    rw [List.forall_mem_cons] at h
    refine List.nodup_flatMap.2 ⟨fun i _ => (ih h.2).map (List.cons_injective), ?_⟩
    refine h.1.imp fun {i j} hne p hi hj => ?_
    obtain ⟨rest, -, rfl⟩ := List.mem_map.1 hi
    obtain ⟨rest', -, heq⟩ := List.mem_map.1 hj
    exact hne (List.cons.inj heq).1.symm

theorem nodup_box (shape : List Int) : (box shape).Nodup := by
  refine nodup_tuples fun column hcolumn => ?_
  obtain ⟨extent, -, rfl⟩ := List.mem_map.1 hcolumn
  exact List.nodup_range.map fun _ _ => Int.ofNat.inj

end Boxes

/-- A box of the iteration space: in each dimension where it starts and how long it is. -/
structure Tile where
  start : List Int
  sizes : List Int
  deriving DecidableEq, Repr

namespace Tile

variable {tile : Tile} {p extents : List Int}

def sides (tile : Tile) : List (Int × Int) := tile.start.zip tile.sizes

def Holds (tile : Tile) (p : List Int) : Prop :=
  List.Forall₂ (fun x side => side.1 ≤ x ∧ x < side.1 + side.2) p tile.sides

instance (tile : Tile) (p : List Int) : Decidable (tile.Holds p) :=
  inferInstanceAs (Decidable (List.Forall₂ _ _ _))

def Within (tile : Tile) (extents : List Int) : Prop :=
  List.Forall₂ (fun side extent => 0 ≤ side.1 ∧ 0 < side.2 ∧ side.1 + side.2 ≤ extent)
    tile.sides extents

def points (tile : Tile) : List (List Int) :=
  (box tile.sizes).map (List.zipWith (· + ·) tile.start)

theorem mem_points (h : tile.start.length = tile.sizes.length) :
    p ∈ tile.points ↔ tile.Holds p := by
  obtain ⟨start, sizes⟩ := tile
  simp only [points, Holds, sides, List.mem_map, mem_box] at h ⊢
  induction start generalizing sizes p with
  | nil =>
    obtain rfl := List.length_eq_zero_iff.1 h.symm
    simp [eq_comm]
  | cons lo start ih =>
    obtain ⟨size, sizes, rfl⟩ := List.exists_cons_of_length_eq_add_one h.symm
    have hlen : start.length = sizes.length := by simpa using h
    rw [List.zip_cons_cons, List.forall₂_cons_right_iff]
    constructor
    · rintro ⟨_, _ | ⟨hi, hrest⟩, rfl⟩
      refine ⟨_, _, ⟨?_, ?_⟩, (ih _ hlen).1 ⟨_, hrest, rfl⟩, rfl⟩ <;> dsimp only <;> omega
    · rintro ⟨x, rest, hx, hrest, rfl⟩
      obtain ⟨offsets, hoffsets, rfl⟩ := (ih _ hlen).2 hrest
      refine ⟨(x - lo) :: offsets, .cons ⟨by omega, by omega⟩ hoffsets, ?_⟩
      rw [List.zipWith_cons_cons, show lo + (x - lo) = x by omega]

theorem nodup_points (h : tile.start.length = tile.sizes.length) : tile.points.Nodup := by
  refine (nodup_box tile.sizes).map_on fun i hi j hj heq => ?_
  have hi := length_of_mem_box hi
  have hj := length_of_mem_box hj
  refine List.ext_getElem (hi.trans hj.symm) fun d hd hd' => ?_
  have hd := List.getElem_of_eq heq (i := d) (by simp; omega)
  simpa using hd

theorem count_flatMap_points {tiles : List Tile}
    (h : ∀ tile ∈ tiles, tile.start.length = tile.sizes.length) :
    (tiles.flatMap points).count p = tiles.countP (Holds · p) := by
  induction tiles with
  | nil => rfl
  | cons tile tiles ih =>
    rw [List.forall_mem_cons] at h
    rw [List.flatMap_cons, List.count_append, ih h.2, List.countP_cons, Nat.add_comm]
    congr 1
    by_cases hp : tile.Holds p
    · rw [List.count_eq_one_of_mem (nodup_points h.1) ((mem_points h.1).2 hp)]
      simp [hp]
    · rw [List.count_eq_zero_of_not_mem fun hmem => hp ((mem_points h.1).1 hmem)]
      simp [hp]

end Tile

namespace Nest

variable {nest : Nest} {extents : List Int} {split : List Nat}

def tiles (nest : Nest) : List Tile :=
  (tuples (nest.ranges.map LoopRange.values)).map fun start => ⟨start, nest.sizes⟩

theorem points_eq_flatMap (nest : Nest) : nest.points = nest.tiles.flatMap Tile.points := by
  simp only [points, tiles, List.flatMap_map, Tile.points]

theorem mem_tiles {tile : Tile} : tile ∈ nest.tiles ↔
    tile.sizes = nest.sizes ∧
      List.Forall₂ (fun lo range => lo ∈ range.values) tile.start nest.ranges := by
  simp only [tiles, List.mem_map, mem_tuples, List.forall₂_map_right_iff]
  constructor
  · rintro ⟨start, hstart, rfl⟩
    exact ⟨rfl, hstart⟩
  · rintro ⟨hsizes, hstart⟩
    exact ⟨tile.start, hstart, by rw [← hsizes]⟩

structure Bounded (nest : Nest) (extents : List Int) : Prop where
  ranges : List.Forall₂ (fun range extent => 0 ≤ range.lower ∧ range.lower < range.upper ∧
    range.upper ≤ extent ∧ range.step ≤ extent) nest.ranges extents
  sizes : List.Forall₂ (fun size extent => 0 < size ∧ size ≤ extent) nest.sizes extents

theorem Fits.bounded (h : nest.Fits extents split) : nest.Bounded extents := by
  refine ⟨?_, h.sizes_le⟩
  rw [List.forall₂_iff_get]
  refine ⟨h.ranges, fun d hd hd' => ?_⟩
  have he := List.getElem?_eq_getElem hd'
  obtain ⟨piece, hp, hr, -⟩ := h.getElem?_pieces he
  rw [List.getElem?_eq_getElem hd, Option.some.injEq] at hr
  have hstretch := h.stretch he hp
  rw [List.get_eq_getElem, List.get_eq_getElem, hr, hstretch.step]
  exact ⟨hstretch.lower, hstretch.nonempty, hstretch.upper, hstretch.size_le⟩

theorem Bounded.values_ne_nil (h : nest.Bounded extents) {range : LoopRange}
    (hr : range ∈ nest.ranges) : range.values ≠ [] := by
  obtain ⟨d, hd, rfl⟩ := List.mem_iff_getElem.1 hr
  have hd' : d < extents.length := h.ranges.length_eq ▸ hd
  obtain ⟨-, hlt, -⟩ := (List.forall₂_iff_get.1 h.ranges).2 d hd hd'
  exact List.ne_nil_of_mem
    (LoopRange.mem_values.2 ⟨Int.le_refl _, hlt, by rw [Int.sub_self]; exact Int.dvd_zero _⟩)

theorem Fits.within (h : nest.Fits extents split) {tile : Tile} (ht : tile ∈ nest.tiles) :
    tile.Within extents := by
  obtain ⟨hsizes, hstart⟩ := mem_tiles.1 ht
  have hlen : tile.sides.length = extents.length := by
    rw [Tile.sides, List.length_zip, hsizes, hstart.length_eq, h.ranges, h.sizes, Nat.min_self]
  refine List.forall₂_iff_get.2 ⟨hlen, fun d hd hd' => ?_⟩
  have he := List.getElem?_eq_getElem hd'
  obtain ⟨piece, hp, hr, hs⟩ := h.getElem?_pieces he
  obtain ⟨hlo, hsize⟩ := List.getElem?_zip_eq_some.1 (List.getElem?_eq_getElem hd)
  rw [hsizes, hs, Option.some.injEq] at hsize
  obtain ⟨hd₁, hlo⟩ := List.getElem?_eq_some_iff.1 hlo
  obtain ⟨hd₂, hrange⟩ := List.getElem?_eq_some_iff.1 hr
  have hmem := (List.forall₂_iff_get.1 hstart).2 d hd₁ hd₂
  rw [List.get_eq_getElem, List.get_eq_getElem, hlo, hrange] at hmem
  have hstretch := h.stretch he hp
  rw [List.get_eq_getElem, List.get_eq_getElem, ← hsize]
  obtain ⟨hlower, hend⟩ := hstretch.start_mem hmem
  exact ⟨hlower, hstretch.size_pos, hend⟩

end Nest

namespace TilePlan

variable {plan : TilePlan} {split : List Nat} {ns : List Nest}

theorem Covers.countP_holds {extents p : List Int} (h : Covers extents split ns)
    (hp : p ∈ box extents) : (ns.flatMap Nest.tiles).countP (Tile.Holds · p) = 1 := by
  have hlen : ∀ tile ∈ ns.flatMap Nest.tiles, tile.start.length = tile.sizes.length := by
    intro tile htile
    obtain ⟨nest, hnest, htile⟩ := List.mem_flatMap.1 htile
    obtain ⟨hsizes, hstart⟩ := Nest.mem_tiles.1 htile
    rw [hstart.length_eq, hsizes, (h.fits nest hnest).ranges, (h.fits nest hnest).sizes]
  have hpoints : (ns.flatMap Nest.tiles).flatMap Tile.points = ns.flatMap Nest.points := by
    rw [List.flatMap_assoc]
    exact List.flatMap_congr fun nest _ => nest.points_eq_flatMap.symm
  rw [← Tile.count_flatMap_points hlen, hpoints, h.points_perm.count_eq]
  exact List.count_eq_one_of_mem (nodup_box extents) hp

theorem Sound.of_tiles (hpos : ∀ extent ∈ plan.extents, 0 < extent)
    (htiles : List.Forall₂ (fun tile extent => 0 ≤ tile ∧ tile ≤ extent) plan.tiles plan.extents)
    (hnodup : plan.order.Nodup)
    (horder : ∀ d ∈ plan.order, ∃ tile, plan.tiles[d]? = some tile ∧ 0 < tile) : plan.Sound := by
  refine ⟨hpos, hnodup, fun {d} hd => ?_⟩
  obtain ⟨tile, ht, htile⟩ := horder d hd
  obtain ⟨hd, rfl⟩ := List.getElem?_eq_some_iff.1 ht
  have hd' : d < plan.extents.length := htiles.length_eq ▸ hd
  exact ⟨plan.extents[d], _, List.getElem?_eq_getElem hd', ht, htile,
    ((List.forall₂_iff_get.1 htiles).2 d hd hd').2⟩

theorem sub_emod_eq_ok {extent tile : Int} (hextent : Checked.Fits extent) (hpos : 0 < extent)
    (htile : 0 < tile) : Checked.sub extent (extent % tile) = .ok (extent - extent % tile) := by
  have hmod := Int.emod_nonneg extent (Int.ne_of_gt htile)
  have hle : extent % tile ≤ extent := by
    have hdiv := Int.mul_nonneg (Int.le_of_lt htile)
      (Int.ediv_nonneg (Int.le_of_lt hpos) (Int.le_of_lt htile))
    have hsplit := Int.mul_ediv_add_emod extent tile
    omega
  obtain ⟨-, hmax⟩ := hextent
  refine Checked.sub_eq_ok.2 ⟨⟨?_, by omega⟩, rfl⟩
  simp only [Checked.minValue]
  omega

theorem nests_partition (hpos : ∀ extent ∈ plan.extents, 0 < extent)
    (hfits : ∀ extent ∈ plan.extents, Checked.Fits extent)
    (htiles : List.Forall₂ (fun tile extent => 0 ≤ tile ∧ tile ≤ extent) plan.tiles plan.extents)
    (hnodup : plan.order.Nodup)
    (horder : ∀ d ∈ plan.order, ∃ tile, plan.tiles[d]? = some tile ∧ 0 < tile) :
    (∀ d ∈ plan.order, ∃ extent tile, plan.extents[d]? = some extent ∧ plan.tiles[d]? = some tile ∧
      Checked.sub extent (extent % tile) = .ok (extent - extent % tile)) ∧
    ∃ ns, plan.nests = .ok ns ∧
      (∀ nest ∈ ns, nest.Bounded plan.extents ∧ ∀ range ∈ nest.ranges, range.values ≠ []) ∧
      (∀ tile ∈ ns.flatMap Nest.tiles, tile.Within plan.extents) ∧
      ∀ p, List.Forall₂ (fun x extent => 0 ≤ x ∧ x < extent) p plan.extents →
        (ns.flatMap Nest.tiles).countP (Tile.Holds · p) = 1 := by
  have hsound := Sound.of_tiles hpos htiles hnodup horder
  constructor
  · intro d hd
    obtain ⟨extent, tile, he, ht, htile, -⟩ := hsound.tiled hd
    have hmem := List.mem_of_getElem? he
    exact ⟨extent, tile, he, ht, sub_emod_eq_ok (hfits _ hmem) (hpos _ hmem) htile⟩
  · obtain ⟨ns, hns, hcov⟩ := hsound.exists_nests
    refine ⟨ns, hns, fun nest hnest => ?_, fun tile htile => ?_, fun p hp => ?_⟩
    · exact ⟨(hcov.fits nest hnest).bounded, fun range => (hcov.fits nest hnest).bounded.values_ne_nil⟩
    · obtain ⟨nest, hnest, htile⟩ := List.mem_flatMap.1 htile
      exact (hcov.fits nest hnest).within htile
    · exact hcov.countP_holds (mem_box.2 hp)

def sevenByFive : TilePlan := ⟨[], [7, 5, 2], [3, 2, 0], [1, 0]⟩

theorem nests_partition_sevenByFive : ∃ ns, sevenByFive.nests = .ok ns ∧
    ns.map (fun nest => nest.tiles.length) = [4, 2, 2, 1] ∧
      (ns.flatMap Nest.tiles).filter (Tile.Holds · [6, 4, 1]) = [⟨[6, 4, 0], [1, 1, 2]⟩] ∧
        ∀ p ∈ box [7, 5, 2], (ns.flatMap Nest.tiles).countP (Tile.Holds · p) = 1 := by
  obtain ⟨-, ns, hns, -, -, hcount⟩ := @nests_partition sevenByFive (by decide) (by decide)
    (by decide) (by decide) (by decide)
  have hok : sevenByFive.nests.toOption.map (fun ns => (ns.map (fun nest => nest.tiles.length),
      (ns.flatMap Nest.tiles).filter (Tile.Holds · [6, 4, 1]))) =
        some ([4, 2, 2, 1], [⟨[6, 4, 0], [1, 1, 2]⟩]) := by decide +kernel
  rw [hns, Except.toOption, Option.map_some, Option.some.injEq] at hok
  obtain ⟨hlengths, hholds⟩ := Prod.mk.inj hok
  exact ⟨ns, hns, hlengths, hholds, fun p hp => hcount p (mem_box.1 hp)⟩

end TilePlan

end KernelLowering
