import KernelLowering.Meaning.Index
import KernelLowering.Proofs.Inspection
import KernelLowering.Rule.TilePlan
import Mathlib.Data.List.Nodup

namespace KernelLowering

theorem flatMap_comm_perm {α β γ : Type} (xs : List α) (ys : List β) (g : α → β → List γ) :
    (xs.flatMap fun x => ys.flatMap (g x)).Perm (ys.flatMap fun y => xs.flatMap (g · y)) := by
  induction xs with
  | nil => simp
  | cons x xs ih =>
    simp only [List.flatMap_cons]
    exact (ih.append_left _).trans (List.flatMap_append_perm ys _ _)

section Columns

variable {extent : Int}

theorem upTo_add {m n : Int} (hm : 0 ≤ m) (hn : 0 ≤ n) :
    upTo (m + n) = upTo m ++ (upTo n).map (m + ·) := by
  lift m to ℕ using hm
  lift n to ℕ using hn
  have hsum : ((m : Int) + n).toNat = m + n := by omega
  simp only [upTo, hsum, Int.toNat_natCast, List.range_add, List.map_append, List.map_map]
  congr 1

theorem LoopRange.values_eq {r : LoopRange} {n : Nat} (h : r.upper = r.lower + n * r.step) :
    r.values = (List.range n).map fun i : Nat => r.lower + i * r.step := by
  have hcount : (r.upper - r.lower + (r.step - 1)) / r.step = n := by
    have hstep := r.step_pos
    rw [h, show r.lower + n * r.step - r.lower + (r.step - 1) = r.step - 1 + n * r.step by omega,
      Int.add_mul_ediv_right _ _ (by omega), Int.ediv_eq_zero_of_lt (by omega) (by omega)]
    omega
  rw [values, hcount, Int.toNat_natCast]

def column (piece : LoopRange × Int) : List Int :=
  piece.1.values.flatMap fun start => (upTo piece.2).map (start + ·)

theorem column_of_steps {r : LoopRange} {n : Nat} (h : r.upper = r.lower + n * r.step) :
    column (r, r.step) = (upTo (n * r.step)).map (r.lower + ·) := by
  have hstep := r.step_pos
  rw [column, LoopRange.values_eq h, List.flatMap_map]
  clear h
  induction n with
  | zero => simp [upTo]
  | succ n ih =>
    have hmul : 0 ≤ (n : Int) * r.step := Int.mul_nonneg (by omega) (by omega)
    rw [List.range_succ, List.flatMap_append, ih, Int.natCast_succ, Int.add_mul, Int.one_mul,
      upTo_add hmul (by omega), List.map_append, List.map_map]
    congr 1
    simp [Function.comp_def, Int.add_assoc]

theorem values_wholeRange (h : 0 < extent) : (TilePlan.wholeRange extent).values = [0] := by
  have hmax : max extent 1 = extent := by omega
  rw [LoopRange.values_eq (n := 1) (by simp [TilePlan.wholeRange, hmax])]
  simp [TilePlan.wholeRange]

theorem column_wholeRange (h : 0 < extent) :
    column (TilePlan.wholeRange extent, extent) = upTo extent := by
  simp [column, values_wholeRange h]

variable {tile : Int} {ps : List (LoopRange × Int)}

inductive Pieces (extent tile : Int) : List (LoopRange × Int) → Prop
  | even {full : LoopRange} (hf : full.lower = 0 ∧ full.upper = extent ∧ full.step = tile)
      (hr : extent % tile = 0) : Pieces extent tile [(full, tile)]
  | uneven {full rest : LoopRange}
      (hf : full.lower = 0 ∧ full.upper = extent - extent % tile ∧ full.step = tile)
      (hr : rest.lower = extent - extent % tile ∧ rest.upper = extent ∧ rest.step = extent % tile)
      (hp : 0 < extent % tile) :
      Pieces extent tile [(full, tile), (rest, extent % tile)]

theorem TilePlan.exists_pieces (ht : 0 < tile) :
    ∃ ps, TilePlan.pieces extent tile = .ok ps ∧ Pieces extent tile ps := by
  have hmod := Int.emod_nonneg extent (Int.ne_of_gt ht)
  rw [TilePlan.pieces, LoopRange.make, dif_pos ht]
  by_cases hrest : 0 < extent % tile
  · rw [LoopRange.make, dif_pos hrest]
    simp only [hrest, if_true]
    exact ⟨_, rfl, .uneven ⟨rfl, rfl, rfl⟩ ⟨rfl, rfl, rfl⟩ hrest⟩
  · simp only [hrest, if_false]
    have hzero : extent % tile = 0 := by omega
    exact ⟨_, rfl, .even ⟨rfl, by simp [hzero], rfl⟩ hzero⟩

theorem Pieces.columns (h : Pieces extent tile ps) (ht : 0 < tile) (he : 0 < extent) :
    ps.flatMap column = upTo extent := by
  have hdiv : 0 ≤ extent / tile := Int.ediv_nonneg (Int.le_of_lt he) (Int.le_of_lt ht)
  have hsplit := Int.ediv_mul_add_emod extent tile
  obtain ⟨n, hn⟩ := Int.eq_ofNat_of_zero_le hdiv
  rw [hn] at hsplit
  cases h with
  | @even full hf hr =>
    obtain ⟨hl, hu, rfl⟩ := hf
    have hupper : (n : Int) * full.step = extent := by rwa [hr, Int.add_zero] at hsplit
    rw [List.flatMap_cons, List.flatMap_nil, List.append_nil,
      column_of_steps (by rw [hl, hu, Int.zero_add, hupper]), hl, hupper]
    simp
  | @uneven full rest hf hr hp =>
    obtain ⟨hl, hu, rfl⟩ := hf
    obtain ⟨hl', hu', hs'⟩ := hr
    have hupper : (n : Int) * full.step = extent - extent % full.step := by omega
    have hrest := column_of_steps (r := rest) (n := 1) (by rw [hl', hu', hs']; omega)
    rw [hs', hl'] at hrest
    rw [List.flatMap_cons, List.flatMap_cons, List.flatMap_nil, List.append_nil,
      column_of_steps (by rw [hl, hu, Int.zero_add, hupper]), hl, hupper, hrest]
    have hcover := upTo_add (m := extent - extent % full.step) (n := extent % full.step)
      (by rw [← hupper]; exact Int.mul_nonneg (by omega) (Int.le_of_lt ht)) (Int.le_of_lt hp)
    rw [Int.sub_add_cancel] at hcover
    simp [hcover]

end Columns

section Tuples

variable {columns : List (List Int)} {d : Nat}

theorem tuples_set_flatten (xss : List (List Int)) (hd : d < columns.length) :
    (tuples (columns.set d xss.flatten)).Perm
      (xss.flatMap fun xs => tuples (columns.set d xs)) := by
  induction columns generalizing d with
  | nil => simp at hd
  | cons column columns ih =>
    cases d with
    | zero =>
      simp only [List.set_cons_zero, tuples, ← List.flatMap_id, List.flatMap_assoc]
      exact .refl _
    | succ d =>
      simp only [List.set_cons_succ, tuples]
      refine (List.Perm.flatMap_left _ fun i _ => (ih (by simpa using hd)).map (i :: ·)).trans ?_
      simp only [List.map_flatMap]
      exact flatMap_comm_perm _ _ _

theorem tuples_set_flatMap (hd : d < columns.length) (xs : List Int) :
    (tuples (columns.set d xs)).Perm (xs.flatMap fun x => tuples (columns.set d [x])) := by
  have h := tuples_set_flatten (xs.map fun x => [x]) hd
  rwa [List.flatMap_map, ← List.flatMap_def, List.flatMap_singleton'] at h

end Tuples

namespace Nest

def points (nest : Nest) : List (List Int) :=
  (tuples (nest.ranges.map LoopRange.values)).flatMap fun start =>
    (box nest.sizes).map (List.zipWith (· + ·) start)

def pieces (nest : Nest) : List (LoopRange × Int) := nest.ranges.zip nest.sizes

def columns (nest : Nest) : List (List Int) := nest.pieces.map column

theorem points_perm (nest : Nest) (h : nest.ranges.length = nest.sizes.length) :
    nest.points.Perm (tuples nest.columns) := by
  obtain ⟨ranges, sizes⟩ := nest
  simp only [points, columns, pieces]
  induction ranges generalizing sizes with
  | nil =>
    obtain rfl := List.length_eq_zero_iff.1 h.symm
    simp [tuples, box]
  | cons r ranges ih =>
    obtain ⟨size, sizes, rfl⟩ := List.exists_cons_of_length_eq_add_one h.symm
    simp only [List.map_cons, List.zip_cons_cons, tuples, box, column, List.flatMap_assoc,
      List.flatMap_map, List.map_flatMap, List.map_map]
    refine List.Perm.flatMap_left _ fun start _ => ?_
    refine (flatMap_comm_perm _ _ _).trans (List.Perm.flatMap_left _ fun p _ => ?_)
    have hrest := (ih sizes (by simpa using h)).map ((start + p) :: ·)
    simp only [box, List.map_flatMap, List.map_map] at hrest
    exact hrest

@[simp] theorem pieces_restrict (nest : Nest) (d : Nat) (piece : LoopRange × Int) :
    (nest.restrict d piece).pieces = nest.pieces.set d piece := by
  obtain ⟨ranges, sizes⟩ := nest
  simp only [restrict, pieces]
  induction ranges generalizing sizes d with
  | nil => simp
  | cons r ranges ih =>
    cases sizes with
    | nil => simp
    | cons size sizes =>
      cases d with
      | zero => simp
      | succ d => simp [ih]

end Nest

structure Stretch (extent : Int) (piece : LoopRange × Int) : Prop where
  lower : 0 ≤ piece.1.lower
  nonempty : piece.1.lower < piece.1.upper
  upper : piece.1.upper ≤ extent
  step : piece.1.step = piece.2
  whole : piece.2 ∣ piece.1.upper - piece.1.lower

namespace Stretch

variable {extent tile : Int} {piece : LoopRange × Int}

theorem size_pos (h : Stretch extent piece) : 0 < piece.2 := h.step ▸ piece.1.step_pos

theorem size_le (h : Stretch extent piece) : piece.2 ≤ extent := by
  have hle := Int.le_of_dvd (by have := h.nonempty; omega) h.whole
  have := h.lower
  have := h.upper
  omega

theorem start_mem (h : Stretch extent piece) {start : Int} (hs : start ∈ piece.1.values) :
    0 ≤ start ∧ start + piece.2 ≤ extent := by
  obtain ⟨hl, hu, hd⟩ := LoopRange.mem_values.1 hs
  rw [h.step] at hd
  have hle := Int.le_of_dvd (by omega) (Int.dvd_sub h.whole hd)
  have := h.lower
  have := h.upper
  omega

theorem wholeRange (h : 0 < extent) : Stretch extent (TilePlan.wholeRange extent, extent) := by
  refine ⟨Int.le_refl 0, h, Int.le_refl _, ?_, ?_⟩ <;> simp [TilePlan.wholeRange]
  omega

theorem of_mem_pieces {ps : List (LoopRange × Int)} (h : Pieces extent tile ps) (ht : 0 < tile)
    (he : tile ≤ extent) (hp : piece ∈ ps) : Stretch extent piece := by
  have hmod := Int.emod_lt_of_pos extent ht
  have hdvd : tile ∣ extent - extent % tile := Int.dvd_self_sub_emod
  cases h with
  | even hf hr =>
    obtain rfl := List.mem_singleton.1 hp
    obtain ⟨hl, hu, hs⟩ := hf
    rw [hr, Int.sub_zero] at hdvd
    refine ⟨?_, ?_, ?_, hs, by rwa [hl, hu, Int.sub_zero]⟩ <;> dsimp only <;> omega
  | uneven hf hr hrest =>
    simp only [List.mem_cons, List.not_mem_nil, or_false] at hp
    obtain ⟨hl, hu, hs⟩ := hf
    obtain ⟨hl', hu', hs'⟩ := hr
    rcases hp with rfl | rfl
    · refine ⟨?_, ?_, ?_, hs, by rwa [hl, hu, Int.sub_zero]⟩ <;> dsimp only <;> omega
    · refine ⟨?_, ?_, ?_, hs', 1, ?_⟩ <;> dsimp only <;> omega

end Stretch

structure Nest.Fits (nest : Nest) (extents : List Int) (split : List Nat) : Prop where
  ranges : nest.ranges.length = extents.length
  sizes : nest.sizes.length = extents.length
  stretch : ∀ {d : Nat} {extent piece}, extents[d]? = some extent → nest.pieces[d]? = some piece →
    Stretch extent piece
  whole : ∀ {d : Nat} {extent piece}, d ∉ split → extents[d]? = some extent →
    nest.pieces[d]? = some piece → piece = (TilePlan.wholeRange extent, extent)

structure TilePlan.Sound (plan : TilePlan) : Prop where
  positive : ∀ extent ∈ plan.extents, 0 < extent
  order : plan.order.Nodup
  tiled : ∀ {d}, d ∈ plan.order → ∃ extent tile, plan.extents[d]? = some extent ∧
    plan.tiles[d]? = some tile ∧ 0 < tile ∧ tile ≤ extent

namespace Nest

variable {nest : Nest} {extents : List Int} {split : List Nat} {d : Nat} {extent tile : Int}
  {ps : List (LoopRange × Int)}

theorem Fits.length_pieces (h : nest.Fits extents split) : nest.pieces.length = extents.length := by
  rw [pieces, List.length_zip, h.ranges, h.sizes, Nat.min_self]

theorem Fits.getElem?_pieces (h : nest.Fits extents split) {extent : Int}
    (hd : extents[d]? = some extent) : ∃ piece, nest.pieces[d]? = some piece ∧
      nest.ranges[d]? = some piece.1 ∧ nest.sizes[d]? = some piece.2 := by
  have hlt := (List.getElem?_eq_some_iff.1 hd).1
  have hlt' : d < nest.pieces.length := h.length_pieces ▸ hlt
  have hpiece := List.getElem?_eq_getElem hlt'
  exact ⟨nest.pieces[d], hpiece, List.getElem?_zip_eq_some.1 hpiece⟩

theorem Fits.sizes_le (h : nest.Fits extents split) :
    List.Forall₂ (fun size extent => 0 < size ∧ size ≤ extent) nest.sizes extents := by
  rw [List.forall₂_iff_get]
  refine ⟨h.sizes, fun d hd hd' => ?_⟩
  have he := List.getElem?_eq_getElem hd'
  obtain ⟨piece, hp, -, hs⟩ := h.getElem?_pieces he
  rw [List.getElem?_eq_getElem hd, Option.some.injEq] at hs
  have hstretch := h.stretch he hp
  rw [List.get_eq_getElem, List.get_eq_getElem, hs]
  exact ⟨hstretch.size_pos, hstretch.size_le⟩

theorem Fits.restrict (h : nest.Fits extents split) (hd : extents[d]? = some extent)
    {piece : LoopRange × Int} (hp : Stretch extent piece) :
    (nest.restrict d piece).Fits extents (d :: split) := by
  refine ⟨by simp [h.ranges], by simp [h.sizes], ?_, ?_⟩
  · intro d' extent' piece' he hp'
    rw [pieces_restrict, List.getElem?_set] at hp'
    split at hp'
    · subst d'
      split at hp'
      · cases hp'
        rw [hd] at he
        cases he
        exact hp
      · cases hp'
    · exact h.stretch he hp'
  · intro d' extent' piece' hn he hp'
    simp only [List.mem_cons, not_or] at hn
    rw [pieces_restrict, List.getElem?_set_ne (Ne.symm hn.1)] at hp'
    exact h.whole hn.2 he hp'

theorem Fits.split_perm (h : nest.Fits extents split) (hn : d ∉ split)
    (hd : extents[d]? = some extent) (he : 0 < extent) (ht : 0 < tile)
    (hps : Pieces extent tile ps) :
    (ps.flatMap fun piece => tuples (nest.restrict d piece).columns).Perm
      (tuples nest.columns) := by
  have hlt : d < nest.pieces.length := by
    rw [h.length_pieces]
    exact (List.getElem?_eq_some_iff.1 hd).1
  have hpiece := h.whole hn hd (List.getElem?_eq_getElem hlt)
  have hself : nest.columns = nest.columns.set d (ps.map column).flatten := by
    rw [← List.flatMap_def, hps.columns ht he, ← column_wholeRange he, ← hpiece, columns,
      ← List.map_set, List.set_getElem_self]
  have hlt' : d < nest.columns.length := by simpa [columns] using hlt
  have hperm := tuples_set_flatten (ps.map column) hlt'
  rw [← hself, List.flatMap_map] at hperm
  simp only [columns, pieces_restrict, List.map_set] at hperm ⊢
  exact hperm.symm

theorem columns_whole (h : ∀ extent ∈ extents, 0 < extent) :
    (Nest.mk (extents.map TilePlan.wholeRange) extents).columns = extents.map upTo := by
  induction extents with
  | nil => rfl
  | cons extent extents ih =>
    rw [List.forall_mem_cons] at h
    exact congrArg₂ List.cons (column_wholeRange h.1) (ih h.2)

theorem whole_fits (h : ∀ extent ∈ extents, 0 < extent) :
    (Nest.mk (extents.map TilePlan.wholeRange) extents).Fits extents [] := by
  have hpiece : ∀ {d : Nat} {extent piece}, extents[d]? = some extent →
      (Nest.mk (extents.map TilePlan.wholeRange) extents).pieces[d]? = some piece →
      piece = (TilePlan.wholeRange extent, extent) := by
    intro d extent piece he hp
    simp only [pieces, List.getElem?_zip_eq_some, List.getElem?_map, Option.map_eq_some_iff] at hp
    obtain ⟨⟨e, he', hr⟩, hs⟩ := hp
    rw [he] at he' hs
    cases he'
    cases hs
    exact Prod.ext hr.symm rfl
  refine ⟨by simp, rfl, fun he hp => ?_, fun _ he hp => hpiece he hp⟩
  rw [hpiece he hp]
  exact .wholeRange (h _ (List.mem_of_getElem? he))

end Nest

namespace TilingOptions

theorem getElem?_clampedTiles {options : TilingOptions} {extents : List Int} {d : Nat}
    {extent : Int} (h : extents[d]? = some extent) : (options.clampedTiles extents)[d]? =
      some (min (max ((options.tileSizes[d]?).getD 0) 0) extent) := by
  simp [clampedTiles, List.getElem?_map, h]

theorem perm_of_loopOrder? {options : TilingOptions} {rank : Nat} {order : List Nat}
    (h : options.loopOrder? rank = some order) : order.Perm (List.range rank) := by
  unfold loopOrder? at h
  generalize (if options.interchange.isEmpty then List.range rank else options.interchange) = o at h
  by_cases hp : o.isPerm (List.range rank)
  · rw [if_pos hp] at h
    cases h
    exact List.isPerm_iff.1 hp
  · rw [if_neg hp] at h
    cases h

end TilingOptions

namespace TilePlan

variable {plan : TilePlan} {split : List Nat} {d : Nat} {ns : List Nest}

structure Covers (extents : List Int) (split : List Nat) (ns : List Nest) : Prop where
  fits : ∀ nest ∈ ns, nest.Fits extents split
  perm : (ns.flatMap fun nest => tuples nest.columns).Perm (box extents)

theorem splitAlong_eq {extent tile : Int} {ps : List (LoopRange × Int)}
    (he : plan.extents[d]? = some extent) (ht : plan.tiles[d]? = some tile)
    (hps : pieces extent tile = .ok ps) :
    plan.splitAlong ns d = .ok (ns.flatMap fun nest => ps.map (nest.restrict d)) := by
  rw [TilePlan.splitAlong, he, ht, Fault.require_some, Fault.require_some, Fault.ok_bind, Fault.ok_bind,
    hps]
  rfl

theorem Sound.splitAlong (hs : plan.Sound) (hd : d ∈ plan.order) (hn : d ∉ split)
    (h : Covers plan.extents split ns) :
    ∃ ns', plan.splitAlong ns d = .ok ns' ∧ Covers plan.extents (d :: split) ns' := by
  obtain ⟨extent, tile, he, ht, hpos, hle⟩ := hs.tiled hd
  obtain ⟨ps, hps, hpieces⟩ : ∃ ps, pieces extent tile = .ok ps ∧ Pieces extent tile ps :=
    exists_pieces hpos
  refine ⟨_, splitAlong_eq he ht hps, ?_, ?_⟩
  · intro nest' hmem
    obtain ⟨nest, hnest, hmem⟩ := List.mem_flatMap.1 hmem
    obtain ⟨piece, hp, rfl⟩ := List.mem_map.1 hmem
    exact (h.fits nest hnest).restrict he (.of_mem_pieces hpieces hpos hle hp)
  · rw [List.flatMap_assoc]
    simp only [List.flatMap_map]
    refine (List.Perm.flatMap_left _ fun nest hnest => ?_).trans h.perm
    exact (h.fits nest hnest).split_perm hn he (by omega) hpos hpieces

theorem Sound.exists_nests (hs : plan.Sound) :
    ∃ ns, plan.nests = .ok ns ∧ Covers plan.extents plan.order.reverse ns := by
  have hrun : ∀ (dims split : List Nat) (ns : List Nest), dims ⊆ plan.order → dims.Nodup →
      dims.Disjoint split → Covers plan.extents split ns →
      ∃ ns', dims.foldlM plan.splitAlong ns = .ok ns' ∧
        Covers plan.extents (dims.reverse ++ split) ns' := by
    intro dims
    induction dims with
    | nil => exact fun split ns _ _ _ h => ⟨ns, rfl, h⟩
    | cons d dims ih =>
      intro split ns hsub hnd hdis h
      obtain ⟨hd, hnd⟩ := List.nodup_cons.1 hnd
      obtain ⟨hmem, hsub⟩ := List.cons_subset.1 hsub
      rw [List.disjoint_cons_left] at hdis
      obtain ⟨ns', hns, hcov⟩ := hs.splitAlong hmem hdis.1 h
      obtain ⟨ns'', hrun, hcov⟩ := ih (d :: split) ns' hsub hnd
        (List.disjoint_cons_right.2 ⟨hd, hdis.2⟩) hcov
      refine ⟨ns'', ?_, by simpa using hcov⟩
      rw [List.foldlM_cons, hns]
      exact hrun
  have hwhole : Covers plan.extents [] [⟨plan.extents.map wholeRange, plan.extents⟩] := by
    refine ⟨by simpa using Nest.whole_fits hs.positive, ?_⟩
    rw [List.flatMap_singleton, Nest.columns_whole hs.positive, box]
  obtain ⟨ns, hns, hcov⟩ := hrun plan.order [] _ (List.Subset.refl _) hs.order (by simp) hwhole
  exact ⟨ns, hns, by simpa using hcov⟩

theorem Covers.points_perm {extents : List Int} (h : Covers extents split ns) :
    (ns.flatMap Nest.points).Perm (box extents) := by
  refine (List.Perm.flatMap_left _ fun nest hnest => ?_).trans h.perm
  exact nest.points_perm ((h.fits nest hnest).ranges.trans (h.fits nest hnest).sizes.symm)

section Make

variable {kind : KernelKind} {options : TilingOptions} {types : List BufferType}

theorem make_answers : (make kind options types).Answers plan ↔
    plan.operandTypes = types ∧ kind.iterationExtents types = .ok (some plan.extents) ∧
      options.tileSizes.length ≤ plan.extents.length ∧
      plan.tiles = options.clampedTiles plan.extents ∧
      ∃ order, options.loopOrder? plan.extents.length = some order ∧
        plan.order = order.filter fun d => 0 < plan.tiles[d]?.getD 0 := by
  simp only [make, Inspect.answers_bind, Inspect.answers_lift, Inspect.answers_orDecline]
  constructor
  · rintro ⟨extents?, hextents, extents, rfl, h⟩
    split at h
    · simp at h
    · rename_i hrank
      simp only [Inspect.answers_bind, Inspect.answers_pure, Inspect.answers_orDecline] at h
      obtain ⟨order, horder, rfl⟩ := h
      exact ⟨rfl, hextents, Nat.le_of_not_lt hrank, rfl, order, horder, rfl⟩
  · rintro ⟨rfl, hextents, hrank, htiles, order, horder, hfilter⟩
    refine ⟨_, hextents, _, rfl, ?_⟩
    rw [if_neg (by omega)]
    simp only [Inspect.answers_bind, Inspect.answers_pure, Inspect.answers_orDecline]
    refine ⟨order, horder, ?_⟩
    rw [← htiles, ← hfilter]

theorem sound_of_make (h : (make kind options types).Answers plan) : plan.Sound := by
  obtain ⟨-, hextents, -, htiles, order, horder, hfilter⟩ := make_answers.1 h
  have hperm := TilingOptions.perm_of_loopOrder? horder
  refine ⟨KernelKind.pos_of_extentsOf hextents, ?_, fun {d} hd => ?_⟩
  · rw [hfilter]
    exact (hperm.nodup_iff.2 List.nodup_range).filter _
  · rw [hfilter, List.mem_filter] at hd
    obtain ⟨hd, htile⟩ := hd
    have hlt := List.mem_range.1 (hperm.mem_iff.1 hd)
    have he := List.getElem?_eq_getElem hlt
    have ht : (options.clampedTiles plan.extents)[d]? = some _ :=
      TilingOptions.getElem?_clampedTiles he
    rw [htiles, ht] at htile
    exact ⟨_, _, he, htiles ▸ ht, by simpa using htile, Int.min_le_right _ _⟩

end Make

end TilePlan

end KernelLowering
