import KernelLowering.Proofs.Herd.Loops

namespace KernelLowering

variable {f g : Function} {k : Spine} {b x y z : Code} {hd : Node} {herd tile : Grid}
  {enclosed : Bool}

namespace Tiling

variable {t : Tiling} {plan : TilePlan} {operands : List ValueId} {ns : List Nest} {nest : Nest}
  {order : List Nat} {P : Bool → Node → Prop}

def innermost (t : Tiling) (op : OpId) (tiled : List ValueId) : Node :=
  .effect op (.kernel t.kind) tiled (some t.guard.next)

theorem TiledNests.inPlace (h : TiledNests t plan f g operands ns y)
    (hnests : ∀ nest ∈ ns, ∀ loops y tiled op, Tiles t plan f g operands nest loops y tiled →
      (Code.within loops (y ++ .node (t.innermost op tiled) .nil .nil)).InPlace P enclosed) :
    y.InPlace P enclosed := by
  induction h with
  | nil => trivial
  | cons op hfirst _ ih =>
    rw [List.forall_mem_cons] at hnests
    exact Code.inPlace_append.2 ⟨hnests.1 _ _ _ op hfirst, ih hnests.2⟩

theorem TiledNests.exists_tiles (h : TiledNests t plan f g operands ns y) (hn : nest ∈ ns) :
    ∃ loops y' tiled op, Tiles t plan f g operands nest loops y' tiled ∧
      (∀ h ∈ loops, h ∈ y.heads) ∧ t.innermost op tiled ∈ y.heads := by
  induction h with
  | nil => cases hn
  | @cons _ _ loops y y' tiled op hfirst _ ih =>
    simp only [Code.heads_append, Code.heads_within, List.mem_append]
    rcases List.mem_cons.1 hn with rfl | hn
    · exact ⟨loops, y, tiled, op, hfirst, fun h hh => .inl (.inl hh),
        .inl (.inr (.inr (List.mem_singleton_self _)))⟩
    · obtain ⟨loops, y, tiled, op, htiles, hloops, hkernel⟩ := ih hn
      exact ⟨loops, y, tiled, op, htiles, fun h hh => .inr (hloops h hh), .inr hkernel⟩

end Tiling

structure Node.Divided (tile herd : Grid) (f : Function) (enclosed : Bool) (h : Node) : Prop where
  herded : h.kind.Herded herd enclosed
  kernel : h.kind.kernel?.isSome = true → ∀ stage ∈ h.marker, stage < .tiledLocal → enclosed = false ∧
    (.selected < stage → ∃ extents, f.Spans h.operands extents ∧ extents ≤ tile * herd)

theorem Node.Divided.of_other {h : Node} (hloop : h.kind.isLoop = false) (hkernel : h.kind.kernel? = none) :
    h.Divided tile herd f enclosed :=
  ⟨.of_not_loop hloop, fun hk => by simp [hkernel] at hk⟩

namespace Tiling

variable {t : Tiling} {plan : TilePlan} {operands : List ValueId} {extents : Grid}
  {rs cs ds : List (LoopRange × Int)} {ns : List Nest} {order : List Nat}

structure ProductNests (t : Tiling) (tile : Grid) (f g : Function) (operands : List ValueId)
    (plan : TilePlan) (extents : Grid) (rs cs ds : List (LoopRange × Int)) (ns : List Nest)
    (y : Code) : Prop where
  spans : f.Spans operands extents
  one_le : 1 ≤ extents
  rows : Pieces extents.rows (min tile.rows extents.rows) rs
  columns : Pieces extents.columns (min tile.columns extents.columns) cs
  depth : Pieces extents.depth (min tile.depth extents.depth) ds
  mem : ∀ nest, nest ∈ ns ↔ ∃ r ∈ rs, ∃ c ∈ cs, ∃ d ∈ ds, nest = .ofPieces r c d
  nests : TiledNests t plan f g operands ns y
  windows : ∀ h ∈ y.heads, h.kind.kernel?.isSome = true →
    ∃ v ∈ h.operands, ∃ m ∈ y.heads, m.kind.window?.isSome = true ∧ m.result.map (·.1) = some v

theorem CutsProducts.gives_nests (ht : t.CutsProducts tile order) (hops : ∀ v ∈ hd.operands, f.Has v)
    (hr : f.Represents (k.plug (b ++ .node hd x z))) :
    ((Rule.tiling t).apply f hd.op).Gives True fun g => ∃ plan extents rs cs ds ns y,
      plan.order = order ∧ Splice f g k b y z ∧
        ProductNests t tile f g hd.operands plan extents rs cs ds ns y := by
  rw [Rule.apply, Inspect.gives_bind]
  refine (gives_check hops hr).mono ?_
  rintro _ - ⟨plan, hplan⟩
  obtain ⟨hplans, pss, hpss, hyields⟩ := yields_tiledNests hr hplan
  obtain ⟨horder, extents, hspans, hone, rs, cs, ds, hrows, hcolumns, hdepth, hmem⟩ :=
    ht.exists_nests hplans hpss
  rw [Inspect.gives_lift]
  refine (hyields.weaken fun _ => trivial).mono ?_
  rintro g - ⟨y, hsplice, hnests, htiled⟩
  exact ⟨plan, extents, rs, cs, ds, _, y, horder, hsplice, hspans, hone, hrows, hcolumns,
    hdepth, hmem, htiled, ht.exists_window hplans horder hnests⟩

theorem Tiles.spans {loops : List Node} {r c d : LoopRange × Int} {tiled : List ValueId}
    (h : Tiles t plan f g operands (.ofPieces r c d) loops y tiled) (hkind : t.kind = .matmul) :
    g.Spans tiled ⟨r.2, c.2, d.2⟩ := by
  obtain ⟨types, htypes, hextents⟩ := h.extents
  exact ⟨types, htypes, hkind ▸ hextents⟩

theorem Tiles.divided {loops : List Node} {tiled : List ValueId} {op : OpId}
    (h : Tiles t plan f g operands nest loops y tiled)
    (hkernel : (t.innermost op tiled).Divided tile herd g enclosed) :
    (y ++ .node (t.innermost op tiled) .nil .nil).InPlace (Node.Divided tile herd g) enclosed := by
  refine Code.inPlace_append.2 ⟨.of_heads (fun h' hh _ => ?_) _, hkernel, trivial, trivial⟩
  rcases h.kinds h' hh with hkind | hwindow
  · exact .of_other (by rw [hkind]; rfl) (by rw [hkind]; rfl)
  · obtain ⟨w, hw⟩ := Option.isSome_iff_exists.1 hwindow
    exact .of_other (by rw [OpKind.window?_eq_some.1 hw]; rfl) (by rw [OpKind.window?_eq_some.1 hw]; rfl)

theorem divided_loop {h : Node} (hkernel : h.kind.kernel? = none) (hherded : h.kind.Herded herd enclosed) :
    h.Divided tile herd f enclosed :=
  ⟨hherded, fun hk => by simp [hkernel] at hk⟩

namespace ProductNests

theorem divided_sequential (h : ProductNests t (tile * herd) f g operands plan extents rs cs ds ns y)
    (hkind : t.kind = .matmul) (hstyle : t.options.style = .sequential)
    (horder : plan.order = [2, 1, 0]) (htile : 1 ≤ tile * herd) :
    y.InPlace (Node.Divided tile herd g) false := by
  obtain ⟨hrows, hcolumns, hdepth⟩ := Grid.one_le_iff.1 htile
  obtain ⟨hrows', hcolumns', hdepth'⟩ := Grid.one_le_iff.1 h.one_le
  refine h.nests.inPlace fun nest hnest loops y' tiled op htiles => ?_
  obtain ⟨r, hr, c, hc, d, hd, rfl⟩ := (h.mem nest).1 hnest
  refine .within_sequential (htiles.divided ⟨.of_not_loop rfl, fun _ _ _ _ => ⟨rfl, fun _ =>
    ⟨_, htiles.spans hkind, ?_⟩⟩⟩) fun loop hloop => ?_
  · exact ⟨(h.rows.size_le (by omega) hr).trans (min_le_left _ _),
      (h.columns.size_le (by omega) hc).trans (min_le_left _ _),
      (h.depth.size_le (by omega) hd).trans (min_le_left _ _)⟩
  · have hmem : loop.kind ∈ [OpKind.forLoop d.1, .forLoop c.1, .forLoop r.1] := by
      rw [← loopKinds_sequential hstyle horder, ← htiles.nesting]
      exact List.mem_map_of_mem hloop
    have hruns : 0 < d.1.values.length ∧ 0 < c.1.values.length ∧ 0 < r.1.values.length :=
      ⟨h.depth.trips_pos (by omega) (min_le_right _ _) hd,
        h.columns.trips_pos (by omega) (min_le_right _ _) hc,
        h.rows.trips_pos (by omega) (min_le_right _ _) hr⟩
    obtain ⟨range, hrange, hpos⟩ : ∃ range, loop.kind = .forLoop range ∧ 0 < range.values.length := by
      simp only [List.mem_cons, List.not_mem_nil, or_false] at hmem
      rcases hmem with hmem | hmem | hmem
      · exact ⟨_, hmem, hruns.1⟩
      · exact ⟨_, hmem, hruns.2.1⟩
      · exact ⟨_, hmem, hruns.2.2⟩
    exact ⟨divided_loop (by rw [hrange]; rfl) (hrange ▸ .forLoop hpos fun hin => by cases hin),
      by rw [hrange]; rfl⟩

theorem divided_parallel (h : ProductNests t tile f g operands plan extents rs cs ds ns y)
    (hkind : t.kind = .matmul) (hstyle : t.options.style = .parallel)
    (horder : plan.order = [0, 1, 2]) (hnext : ¬ t.guard.next < .tiledLocal) (htile : 1 ≤ tile)
    (hherd : 1 ≤ herd) (hle : extents ≤ tile * herd) : y.InPlace (Node.Divided tile herd g) false := by
  obtain ⟨hrows, hcolumns, hdepth⟩ := Grid.one_le_iff.1 htile
  obtain ⟨hrows', hcolumns', hdepth'⟩ := Grid.one_le_iff.1 h.one_le
  refine h.nests.inPlace fun nest hnest loops y' tiled op htiles => ?_
  obtain ⟨r, hr, c, hc, d, hd, rfl⟩ := (h.mem nest).1 hnest
  have hkinds : loops.map (·.kind) = [.parallelLoop [r.1, c.1], .forLoop d.1] :=
    htiles.nesting.trans (loopKinds_parallel hkind hstyle horder)
  obtain ⟨outer, loops, rfl, houter, hkinds⟩ := List.map_eq_cons_iff.1 hkinds
  obtain ⟨inner, loops, rfl, hinner, hkinds⟩ := List.map_eq_cons_iff.1 hkinds
  obtain rfl := List.map_eq_nil_iff.1 hkinds
  have hkernel : ∀ {enclosed}, (t.innermost op tiled).Divided tile herd g enclosed := fun {enclosed} =>
    ⟨.of_not_loop rfl, fun _ stage hstage hlt => by cases hstage; exact (hnext hlt).elim⟩
  refine ⟨divided_loop (by rw [houter]; rfl) ?_, ⟨divided_loop (by rw [hinner]; rfl) ?_,
    htiles.divided hkernel, trivial⟩, trivial⟩
  · have hr' := h.rows.trips_le (by omega) hrows hherd.1 hle.1 hr
    have hc' := h.columns.trips_le (by omega) hcolumns hherd.2.1 hle.2.1 hc
    have hrpos := h.rows.trips_pos (by omega) (min_le_right _ _) hr
    have hcpos := h.columns.trips_pos (by omega) (min_le_right _ _) hc
    rw [houter]
    refine .parallelLoop ?_ ?_
    · simpa using ⟨hrpos, hcpos⟩
    · simpa using Int.mul_le_mul hr' hc' (Int.natCast_nonneg _) (by omega)
  · rw [hinner]
    exact .forLoop (h.depth.trips_pos (by omega) (min_le_right _ _) hd) fun _ =>
      h.depth.trips_le (by omega) hdepth hherd.2.2 hle.2.2 hd

theorem exists_whole (h : ProductNests t tile f g operands plan extents rs cs ds ns y)
    (hkind : t.kind = .matmul) (htile : 1 ≤ tile) (hle : tile ≤ extents) :
    ∃ h' ∈ y.heads, h'.kind = .kernel .matmul ∧ h'.marker = some t.guard.next ∧
      g.Spans h'.operands tile := by
  obtain ⟨hrows, hcolumns, hdepth⟩ := Grid.one_le_iff.1 htile
  obtain ⟨hrows', hcolumns', hdepth'⟩ := Grid.one_le_iff.1 h.one_le
  obtain ⟨r, hr, hrsize, -⟩ := h.rows.exists_full (by omega) (by omega)
  obtain ⟨c, hc, hcsize, -⟩ := h.columns.exists_full (by omega) (by omega)
  obtain ⟨d, hd, hdsize, -⟩ := h.depth.exists_full (by omega) (by omega)
  obtain ⟨loops, y', tiled, op, htiles, -, hkernel⟩ :=
    h.nests.exists_tiles ((h.mem _).2 ⟨r, hr, c, hc, d, hd, rfl⟩)
  refine ⟨_, hkernel, congrArg _ hkind, rfl, ?_⟩
  have hspans := htiles.spans hkind
  rwa [hrsize, hcsize, hdsize, min_eq_left hle.1, min_eq_left hle.2.1, min_eq_left hle.2.2] at hspans

theorem usesHerd (h : ProductNests t tile f g operands plan extents rs cs ds ns y)
    (hkind : t.kind = .matmul) (hstyle : t.options.style = .parallel)
    (horder : plan.order = [0, 1, 2]) (htile : 1 ≤ tile) (hherd : 1 ≤ herd)
    (heq : extents = tile * herd) : y.UsesHerd herd := by
  subst heq
  obtain ⟨hrows, hcolumns, hdepth⟩ := Grid.one_le_iff.1 h.one_le
  obtain ⟨r, hr, hrtrips⟩ := Pieces.exists_trips_eq h.rows htile.1 hherd.1
  obtain ⟨c, hc, hctrips⟩ := Pieces.exists_trips_eq h.columns htile.2.1 hherd.2.1
  obtain ⟨d, hd, -⟩ := h.depth.exists_full (by omega) (lt_min htile.2.2 hdepth)
  obtain ⟨loops, y', tiled, op, htiles, hloops, -⟩ :=
    h.nests.exists_tiles ((h.mem _).2 ⟨r, hr, c, hc, d, hd, rfl⟩)
  obtain ⟨outer, rest, rfl, houter, -⟩ :=
    List.map_eq_cons_iff.1 (htiles.nesting.trans (loopKinds_parallel hkind hstyle horder))
  refine ⟨outer, hloops outer List.mem_cons_self, by rw [houter]; rfl, ?_⟩
  rw [houter, OpKind.trips_parallelLoop]
  simp [hrtrips, hctrips]

end ProductNests

end Tiling

end KernelLowering
