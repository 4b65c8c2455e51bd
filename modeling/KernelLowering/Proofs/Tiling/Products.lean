import KernelLowering.Proofs.Tiling.Bounds

namespace KernelLowering

structure Grid where
  rows : Int
  columns : Int
  depth : Int
  deriving DecidableEq, Repr

namespace Grid

def toList (g : Grid) : List Int := [g.rows, g.columns, g.depth]

instance : One Grid := ⟨⟨1, 1, 1⟩⟩

instance : Mul Grid := ⟨fun a b => ⟨a.rows * b.rows, a.columns * b.columns, a.depth * b.depth⟩⟩

instance : LE Grid := ⟨fun a b => a.rows ≤ b.rows ∧ a.columns ≤ b.columns ∧ a.depth ≤ b.depth⟩

instance (a b : Grid) : Decidable (a ≤ b) := inferInstanceAs (Decidable (_ ∧ _ ∧ _))

variable {a b : Grid}

theorem one_le_iff : 1 ≤ a ↔ 1 ≤ a.rows ∧ 1 ≤ a.columns ∧ 1 ≤ a.depth := Iff.rfl

@[simp] theorem mul_rows : (a * b).rows = a.rows * b.rows := rfl

@[simp] theorem mul_columns : (a * b).columns = a.columns * b.columns := rfl

@[simp] theorem mul_depth : (a * b).depth = a.depth * b.depth := rfl

theorem one_le_mul (ha : 1 ≤ a) (hb : 1 ≤ b) : 1 ≤ a * b :=
  ⟨Int.mul_pos ha.1 hb.1, Int.mul_pos ha.2.1 hb.2.1, Int.mul_pos ha.2.2 hb.2.2⟩

theorem toList_injective : Function.Injective toList := by
  rintro ⟨a, b, c⟩ ⟨a', b', c'⟩ h
  simpa [toList] using h

end Grid

namespace Pieces

variable {extent tile size count : Int} {ps : List (LoopRange × Int)} {piece : LoopRange × Int}

theorem size_le (h : Pieces extent tile ps) (ht : 0 < tile) (hp : piece ∈ ps) : piece.2 ≤ tile := by
  have hlt := Int.emod_lt_of_pos extent ht
  cases h with
  | even => simp_all
  | uneven =>
    simp only [List.mem_cons, List.not_mem_nil, or_false] at hp
    rcases hp with rfl | rfl
    · exact Int.le_refl _
    · exact Int.le_of_lt hlt

theorem length_values_mul {full : LoopRange} (he : 0 < extent) (ht : 0 < tile)
    (hf : full.lower = 0 ∧ full.upper = extent - extent % tile ∧ full.step = tile) :
    (full.values.length : Int) * tile = extent - extent % tile := by
  obtain ⟨hl, hu, rfl⟩ := hf
  have hdiv : 0 ≤ extent / full.step := Int.ediv_nonneg (Int.le_of_lt he) (Int.le_of_lt ht)
  have hsplit := Int.ediv_mul_add_emod extent full.step
  obtain ⟨n, hn⟩ := Int.eq_ofNat_of_zero_le hdiv
  rw [hn] at hsplit
  rw [LoopRange.values_eq (n := n) (by rw [hl, hu]; omega), List.length_map, List.length_range]
  omega

theorem trips_mul_le (h : Pieces extent tile ps) (ht : 0 < tile) (he : tile ≤ extent)
    (hp : piece ∈ ps) : (piece.1.values.length : Int) * tile ≤ extent := by
  have hmod := Int.emod_nonneg extent (Int.ne_of_gt ht)
  cases h with
  | @even full hf hr =>
    obtain rfl := List.mem_singleton.1 hp
    have hfull : (full.values.length : Int) * tile = extent - extent % tile :=
      length_values_mul (by omega) ht (by rwa [hr, Int.sub_zero])
    dsimp only
    omega
  | @uneven full rest hf hr hrest =>
    simp only [List.mem_cons, List.not_mem_nil, or_false] at hp
    rcases hp with rfl | rfl
    · have hfull := length_values_mul (by omega) ht hf
      dsimp only
      omega
    · obtain ⟨hl, hu, hs⟩ := hr
      rw [LoopRange.values_eq (n := 1) (by rw [hl, hu, hs]; omega)]
      simpa using he

theorem exists_full (h : Pieces extent tile ps) (he : 0 < extent) (ht : 0 < tile) :
    ∃ piece ∈ ps, piece.2 = tile ∧ (piece.1.values.length : Int) * tile = extent - extent % tile := by
  cases h with
  | even hf hr =>
    exact ⟨_, List.mem_cons_self, rfl, length_values_mul he ht (by rwa [hr, Int.sub_zero])⟩
  | uneven hf => exact ⟨_, List.mem_cons_self, rfl, length_values_mul he ht hf⟩

theorem trips_pos (h : Pieces extent tile ps) (ht : 0 < tile) (he : tile ≤ extent) (hp : piece ∈ ps) :
    0 < piece.1.values.length := by
  have hnonempty := (Stretch.of_mem_pieces h ht he hp).nonempty
  exact List.length_pos_of_mem (LoopRange.mem_values.2 ⟨Int.le_refl _, hnonempty, by simp⟩)

theorem trips_le (h : Pieces extent (min size extent) ps) (he : 0 < extent) (hsize : 1 ≤ size)
    (hcount : 1 ≤ count) (hle : extent ≤ size * count) (hp : piece ∈ ps) :
    (piece.1.values.length : Int) ≤ count := by
  have hmul := h.trips_mul_le (by omega) (by omega) hp
  rcases Int.le_total size extent with hmin | hmin
  · rw [Int.min_eq_left hmin] at hmul
    refine Int.le_of_mul_le_mul_right (hmul.trans ?_) (by omega : 0 < size)
    rwa [Int.mul_comm]
  · rw [Int.min_eq_right hmin] at hmul
    refine Int.le_trans (Int.le_of_mul_le_mul_right (b := _) (c := 1) ?_ he) hcount
    rwa [Int.one_mul]

theorem exists_trips_eq (h : Pieces (size * count) (min size (size * count)) ps) (hsize : 1 ≤ size)
    (hcount : 1 ≤ count) : ∃ piece ∈ ps, (piece.1.values.length : Int) = count := by
  have hle : size * 1 ≤ size * count := Int.mul_le_mul_of_nonneg_left hcount (by omega)
  rw [Int.mul_one] at hle
  rw [Int.min_eq_left hle] at h
  obtain ⟨piece, hp, -, htrips⟩ := h.exists_full (by omega) (by omega)
  rw [Int.mul_emod_right, Int.sub_zero, Int.mul_comm size] at htrips
  exact ⟨piece, hp, Int.eq_of_mul_eq_mul_right (by omega) htrips⟩

end Pieces

def Nest.ofPieces (r c d : LoopRange × Int) : Nest := ⟨[r.1, c.1, d.1], [r.2, c.2, d.2]⟩

namespace TilePlan

variable {plan : TilePlan} {pss : List (List (LoopRange × Int))}

theorem mem_choices {α : Type} {xss : List (List α)} {choice : List α} :
    choice ∈ choices xss ↔ List.Forall₂ (· ∈ ·) choice xss := by
  induction xss generalizing choice with
  | nil => simp [choices]
  | cons xs xss ih =>
    simp only [choices, List.mem_flatMap, List.mem_map, List.forall₂_cons_right_iff, ih]
    constructor
    · rintro ⟨x, hx, rest, hrest, rfl⟩
      exact ⟨x, rest, hx, hrest, rfl⟩
    · rintro ⟨x, rest, hx, hrest, rfl⟩
      exact ⟨x, hx, rest, hrest, rfl⟩

theorem mem_nests_of_product (horder : plan.order = [0, 1, 2] ∨ plan.order = [2, 1, 0])
    (hextents : plan.extents.length = 3) (hpss : List.Forall₂ plan.PiecesAlong plan.order pss) :
    ∃ rows columns depth, plan.PiecesAlong 0 rows ∧ plan.PiecesAlong 1 columns ∧
      plan.PiecesAlong 2 depth ∧ ∀ nest, nest ∈ (choices pss).map plan.nestOf ↔
        ∃ r ∈ rows, ∃ c ∈ columns, ∃ d ∈ depth, nest = .ofPieces r c d := by
  obtain ⟨m, n, k, hextents⟩ := List.length_eq_three.1 hextents
  have hnest : ∀ r c d, (plan.order = [0, 1, 2] → plan.nestOf [r, c, d] = .ofPieces r c d) ∧
      (plan.order = [2, 1, 0] → plan.nestOf [d, c, r] = .ofPieces r c d) := fun r c d => by
    constructor <;> intro horder <;> simp [nestOf, horder, hextents, Nest.restrict, Nest.ofPieces]
  rcases horder with horder | horder <;> rw [horder] at hpss <;>
    obtain ⟨ps, qs, rs, rfl⟩ := List.length_eq_three.1 hpss.length_eq.symm <;>
      simp only [List.forall₂_cons] at hpss <;> obtain ⟨hp, hq, hr, -⟩ := hpss
  · refine ⟨ps, qs, rs, hp, hq, hr, fun nest => ?_⟩
    simp only [List.mem_map, mem_choices, List.forall₂_cons_right_iff, List.forall₂_nil_right_iff]
    constructor
    · rintro ⟨-, ⟨r, -, hr, ⟨c, -, hc, ⟨d, -, hd, rfl, rfl⟩, rfl⟩, rfl⟩, rfl⟩
      exact ⟨r, hr, c, hc, d, hd, (hnest r c d).1 horder⟩
    · rintro ⟨r, hr, c, hc, d, hd, rfl⟩
      exact ⟨_, ⟨r, _, hr, ⟨c, _, hc, ⟨d, _, hd, rfl, rfl⟩, rfl⟩, rfl⟩, (hnest r c d).1 horder⟩
  · refine ⟨rs, qs, ps, hr, hq, hp, fun nest => ?_⟩
    simp only [List.mem_map, mem_choices, List.forall₂_cons_right_iff, List.forall₂_nil_right_iff]
    constructor
    · rintro ⟨-, ⟨d, -, hd, ⟨c, -, hc, ⟨r, -, hr, rfl, rfl⟩, rfl⟩, rfl⟩, rfl⟩
      exact ⟨r, hr, c, hc, d, hd, (hnest r c d).2 horder⟩
    · rintro ⟨r, hr, c, hc, d, hd, rfl⟩
      exact ⟨_, ⟨d, _, hd, ⟨c, _, hc, ⟨r, _, hr, rfl, rfl⟩, rfl⟩, rfl⟩, (hnest r c d).2 horder⟩

end TilePlan

namespace KernelKind

theorem exists_grid {types : List BufferType} {extents : List Int}
    (h : matmul.iterationExtents types = .ok (some extents)) :
    ∃ g : Grid, extents = g.toList ∧ 1 ≤ g := by
  have hshaped := (extentsOf_eq_ok.1 h).1
  generalize types.map (·.shape) = shapes at hshaped
  cases hshaped with
  | @matmul m n k hm hn hk => exact ⟨⟨m, n, k⟩, rfl, hm, hn, hk⟩

end KernelKind

def Function.Spans (f : Function) (operands : List ValueId) (extents : Grid) : Prop :=
  ∃ types, f.bufferTypes? operands = .ok (some types) ∧
    KernelKind.matmul.iterationExtents types = .ok (some extents.toList)

theorem Function.Spans.unique {f : Function} {operands : List ValueId} {extents extents' : Grid}
    (h : f.Spans operands extents) (h' : f.Spans operands extents') : extents = extents' := by
  obtain ⟨types, htypes, hextents⟩ := h
  obtain ⟨types', htypes', hextents'⟩ := h'
  rw [htypes, Except.ok.injEq, Option.some.injEq] at htypes'
  subst htypes'
  rw [hextents, Except.ok.injEq, Option.some.injEq] at hextents'
  exact Grid.toList_injective hextents'

namespace Tiling

section Windows

variable {nest : Nest} {vars vars' : LoopVars} {dims : List Nat} {gs : List (List Nat)}
  {loops : List Node} {vs : List ValueId} {dim : Nat} {y : Code}

theorem length_assign : (assign vars dims vs).length = vars.length := by
  induction dims generalizing vars vs with
  | nil => rfl
  | cons first dims ih =>
    cases vs with
    | nil => rfl
    | cons v vs => exact ih.trans List.length_set

theorem isSome_assign (hlen : vs.length = dims.length)
    (h : dim ∈ dims ∧ dim < vars.length ∨ (vars[dim]?).join.isSome = true) :
    ((assign vars dims vs)[dim]?).join.isSome = true := by
  induction dims generalizing vars vs with
  | nil => exact h.resolve_left fun h => List.not_mem_nil h.1
  | cons first dims ih =>
    obtain ⟨v, vs, rfl⟩ := List.exists_cons_of_length_eq_add_one hlen
    refine ih (Nat.succ.inj hlen) ?_
    rw [List.length_set, List.mem_cons] at *
    by_cases hfirst : dim = first
    · subst hfirst
      have hlt : dim < vars.length := by
        by_contra hge
        simp [hge] at h
      exact .inr (by simp [hlt])
    · rw [List.getElem?_set_ne (Ne.symm hfirst)]
      exact h.imp_left fun h => ⟨h.1.resolve_left hfirst, h.2⟩

theorem LoopsOf.isSome (h : LoopsOf nest gs vars loops vars')
    (hdim : dim ∈ gs.flatten ∧ dim < vars.length ∨ (vars[dim]?).join.isSome = true) :
    (vars'[dim]?).join.isSome = true := by
  induction h with
  | nil => exact hdim.resolve_left fun h => by simp at h
  | cons op _ _ hvars _ ih =>
    rw [List.flatten_cons, List.mem_append] at hdim
    rcases hdim with ⟨hdim | hdim, hlt⟩ | hdim
    · exact ih (.inr (isSome_assign hvars (.inl ⟨hdim, hlt⟩)))
    · exact ih (.inl ⟨hdim, length_assign.symm ▸ hlt⟩)
    · exact ih (.inr (isSome_assign hvars (.inr hdim)))

theorem OperandsOf.exists_window {operand : ValueId} {type : BufferType} {map : OperandMap}
    {rest : List (ValueId × BufferType × OperandMap)} {terms : List Nat}
    (h : OperandsOf nest vars ((operand, type, map) :: rest) y vs) (hterms : terms ∈ map)
    (hdim : dim ∈ terms) (hvars : (vars[dim]?).join.isSome = true) :
    ∃ v ∈ vs, ∃ m ∈ y.heads, m.kind.window?.isSome = true ∧ m.result.map (·.1) = some v := by
  cases h with
  | @cons _ v _ _ _ y y' vs hfirst _ =>
    refine ⟨v, List.mem_cons_self, ?_⟩
    cases hfirst with
    | whole hnone =>
      obtain ⟨u, hu⟩ := Option.isSome_iff_exists.1 hvars
      have hmem : u ∈ varsAlong vars terms := List.mem_filterMap.2 ⟨dim, hdim, hu⟩
      rw [hnone terms hterms] at hmem
      cases hmem
    | @window offsets supplied y _ result op =>
      refine ⟨.value op (.subView (windowOf nest map offsets)) (operand :: supplied) v (.buffer result),
        ?_, rfl, rfl⟩
      simp only [Code.heads_append, List.mem_append]
      exact .inl (.inr (List.mem_singleton_self _))

end Windows

variable {t : Tiling} {plan : TilePlan} {f : Function} {operands : List ValueId} {tile : Grid}
  {order : List Nat} {pss : List (List (LoopRange × Int))} {r c d : LoopRange × Int}

structure CutsProducts (t : Tiling) (tile : Grid) (order : List Nat) : Prop where
  kind : t.kind = .matmul
  sizes : t.options.tileSizes = tile.toList
  loops : t.options.loopOrder? 3 = some order
  natural : order = [0, 1, 2] ∨ order = [2, 1, 0]
  one_le : 1 ≤ tile

namespace CutsProducts

variable (ht : t.CutsProducts tile order)

include ht

theorem exists_nests (h : t.Plans f operands plan)
    (hpss : List.Forall₂ plan.PiecesAlong plan.order pss) :
    plan.order = order ∧ ∃ extents, f.Spans operands extents ∧ 1 ≤ extents ∧
      ∃ rows columns depth, Pieces extents.rows (min tile.rows extents.rows) rows ∧
        Pieces extents.columns (min tile.columns extents.columns) columns ∧
        Pieces extents.depth (min tile.depth extents.depth) depth ∧
        ∀ nest, nest ∈ (choices pss).map plan.nestOf ↔
          ∃ r ∈ rows, ∃ c ∈ columns, ∃ d ∈ depth, nest = .ofPieces r c d := by
  obtain ⟨hrows, hcolumns, hdepth⟩ := ht.one_le
  have hspans := ht.kind ▸ h.extents
  obtain ⟨extents, hextents, hone⟩ := KernelKind.exists_grid hspans
  obtain ⟨order', hloops, hplan⟩ := h.order
  have horder : plan.order = order := by
    rw [show plan.extents.length = 3 by rw [hextents]; rfl, ht.loops, Option.some.injEq] at hloops
    subst hloops
    rw [hplan, List.filter_eq_self]
    have hpos : 0 < tile.rows ∧ 0 < tile.columns ∧ 0 < tile.depth := ⟨hrows, hcolumns, hdepth⟩
    rcases ht.natural with rfl | rfl <;> simp [ht.sizes, Grid.toList, hpos]
  have htile : ∀ {dim : Nat} {extent size : Int} {ps}, plan.PiecesAlong dim ps → 1 ≤ size →
      extents.toList[dim]? = some extent → tile.toList[dim]? = some size →
        Pieces extent (min size extent) ps := by
    rintro dim extent size ps ⟨extent', tile', he', ht', hp⟩ hsize he hs
    rw [hextents, he, Option.some.injEq] at he'
    subst he'
    rw [h.tiles, TilingOptions.getElem?_clampedTiles (hextents ▸ he), ht.sizes, hs, Option.getD_some,
      Option.some.injEq, Int.max_eq_left (by omega)] at ht'
    rwa [ht']
  obtain ⟨rows, columns, depth, hr, hc, hd, hnests⟩ := TilePlan.mem_nests_of_product
    (horder ▸ ht.natural) (by rw [hextents]; rfl) hpss
  exact ⟨horder, extents, ⟨_, h.types, hextents ▸ hspans⟩, hone, rows, columns, depth, htile hr hrows rfl rfl,
    htile hc hcolumns rfl rfl, htile hd hdepth rfl rfl, hnests⟩

theorem exists_window {ns : List Nest} {y : Code} (hplan : t.Plans f operands plan)
    (horder : plan.order = order) (h : NestsOf t plan operands ns y) :
    ∀ h ∈ y.heads, h.kind.kernel?.isSome = true →
      ∃ v ∈ h.operands, ∃ m ∈ y.heads, m.kind.window?.isSome = true ∧ m.result.map (·.1) = some v := by
  have hextents := ht.kind ▸ hplan.extents
  obtain ⟨extents, hgrid, -⟩ := KernelKind.exists_grid hextents
  have hrows : 0 ∈ (t.groups plan).flatten ∧ 0 < (plan.extents.map fun _ => (none : Option ValueId)).length := by
    rw [(flatten_groups t plan).mem_iff, horder, List.length_map, hgrid]
    rcases ht.natural with rfl | rfl <;> simp [Grid.toList]
  have hfirst : ∃ operand type rest,
      operands.zip (plan.operandTypes.zip t.kind.operandMaps) = (operand, type, [[0], [2]]) :: rest := by
    have htypes := bufferTypes?_eq_some.1 hplan.types
    have hshaped := (KernelKind.extentsOf_eq_ok.1 hextents).1
    generalize plan.operandTypes = types at htypes hshaped ⊢
    cases htypes with
    | nil => cases hshaped
    | cons => exact ⟨_, _, _, by rw [ht.kind]; rfl⟩
  obtain ⟨operand, type, rest, hfirst⟩ := hfirst
  induction h with
  | nil => simp [Code.heads]
  | @cons nest ns y y' hnest _ ih =>
    rw [Code.heads_append, List.forall_mem_append]
    refine ⟨fun h hh hkernel => ?_, fun h hh hkernel => ?_⟩
    · cases hnest with
      | @intro loops vars y tiled op hloops htiled hkinds =>
        rw [hfirst] at htiled
        obtain ⟨v, hv, m, hm, hw⟩ := htiled.exists_window List.mem_cons_self List.mem_cons_self
          (hloops.isSome (.inl hrows))
        rw [Code.heads_within, Code.heads_append] at hh ⊢
        simp only [List.mem_append] at hh ⊢
        rcases hh with hh | hh | hh
        · have hloop := hloops.isLoop h hh
          cases hkind : h.kind <;> simp_all [OpKind.isLoop, OpKind.kernel?]
        · rcases htiled.kinds h hh with hkind | hwindow
          · simp [hkind, OpKind.kernel?] at hkernel
          · cases hkind : h.kind <;> simp_all [OpKind.window?, OpKind.kernel?]
        · rw [List.mem_singleton.1 hh]
          exact ⟨v, hv, m, .inl (.inr (.inl hm)), hw⟩
    · obtain ⟨v, hv, m, hm, hw⟩ := ih h hh hkernel
      exact ⟨v, hv, m, List.mem_append_right _ hm, hw⟩

theorem check_answers {hd : Node} {extents : Grid}
    (hop : ∃ parent region, f.op? hd.op = some (hd.record parent region))
    (hkind : hd.kind = .kernel .matmul) (hmarker : hd.marker = some t.guard.current)
    (hspans : f.Spans hd.operands extents) : (t.check f hd.op).Answers () := by
  obtain ⟨types, htypes, hextents⟩ := hspans
  obtain ⟨parent, region, hop⟩ := hop
  refine (Tiling.check_answers hop).2 ⟨ht.kind ▸ hkind, hmarker, ?_⟩
  have hlen : extents.toList.length = 3 := rfl
  refine ⟨⟨types, extents.toList, t.options.clampedTiles extents.toList, order.filter fun d =>
    0 < (t.options.clampedTiles extents.toList)[d]?.getD 0⟩, (plan_answers ⟨_, _, hop⟩).2
      ⟨bufferTypes?_eq_some.1 htypes, TilePlan.make_answers.2 ⟨rfl, ht.kind ▸ hextents, ?_, rfl,
        order, hlen ▸ ht.loops, rfl⟩⟩⟩
  rw [ht.sizes]
  exact Nat.le_refl 3

end CutsProducts

theorem loopKinds_sequential (hstyle : t.options.style = .sequential) (horder : plan.order = [2, 1, 0]) :
    t.loopKinds plan (.ofPieces r c d) = [.forLoop d.1, .forLoop c.1, .forLoop r.1] := by
  simp [loopKinds, hstyle, horder, Nest.ofPieces]

theorem loopKinds_parallel (hkind : t.kind = .matmul) (hstyle : t.options.style = .parallel)
    (horder : plan.order = [0, 1, 2]) :
    t.loopKinds plan (.ofPieces r c d) = [.parallelLoop [r.1, c.1], .forLoop d.1] := by
  simp [loopKinds, hstyle, horder, Nest.ofPieces, List.partition_eq_filter_filter, isParallel, hkind,
    KernelKind.iterators]

end Tiling

end KernelLowering
