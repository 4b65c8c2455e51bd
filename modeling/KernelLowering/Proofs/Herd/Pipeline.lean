import KernelLowering.Proofs.Convergence.Fixpoints
import KernelLowering.Proofs.Convergence.Pipeline
import KernelLowering.Proofs.Herd.Division
import KernelLowering.Proofs.Lowering.Pass

namespace KernelLowering

variable {f g : Function} {k : Spine} {b x y z : Code} {hd : Node} {herd tile extents : Grid}

theorem Function.Grows.spans_iff {operands : List ValueId} (hg : f.Grows g)
    (hhas : ∀ v ∈ operands, f.Has v) : g.Spans operands extents ↔ f.Spans operands extents := by
  rw [Spans, Spans, bufferTypes?_congr fun v hv => hg.bufferType?_of_lt (hhas v hv)]

theorem Node.Divided.grows {h : Node} {enclosed : Bool} (hdiv : h.Divided tile herd f enclosed)
    (hg : f.Grows g) (hhas : ∀ v ∈ h.operands, f.Has v) : h.Divided tile herd g enclosed where
  herded := hdiv.herded
  kernel hk stage hstage hlt := by
    obtain ⟨hout, hle⟩ := hdiv.kernel hk stage hstage hlt
    refine ⟨hout, fun htiled => ?_⟩
    obtain ⟨extents, hspans, hle⟩ := hle htiled
    exact ⟨extents, (hg.spans_iff hhas).2 hspans, hle⟩

namespace KernelPlan

variable {plan : KernelPlan} {step : Step} {h : Node} {new : List Node} {full : Prop}
  {maxSweeps : Nat}

theorem Fills.replaces (hfills : plan.Fills tile herd f step h) (hg : f.Replaces g k b .nil z id new)
    (hr : f.Represents (k.plug (b ++ .node hd .nil z))) (hh : h ∈ k.before b ∨ h ∈ k.behind z)
    (hops : ∀ v ∈ h.operands, f.Has v ∧ v ∉ hd.defined) : plan.Fills tile herd g step h := by
  obtain ⟨o, o', halike⟩ := hg.alike hr hh fun v hv => ⟨(hops v hv).1, rfl, (hops v hv).2, by simp⟩
  obtain ⟨extents, hspans, hwhole⟩ := hfills.spans
  refine ⟨halike.check (plan.cleansViews_rule step) ▸ hfills.check, extents, ?_, hwhole⟩
  exact (hg.grows.spans_iff fun v hv => (hops v hv).1).2 hspans

structure Dividing (plan : KernelPlan) (tile herd : Grid) (full : Prop) (f : Function) : Prop where
  orderly : f.Orderly
  divided : f.code.InPlace (Node.Divided tile herd f) false
  fills : full → f.code.UsesHerd herd ∨
    ∃ h ∈ f.code.heads, ∃ step ∈ plan.steps, plan.Fills tile herd f step h

namespace Dividing

theorem divided_splice (h : plan.Dividing tile herd full f)
    (hr : f.Represents (k.plug (b ++ .node hd x z))) (hg : f.Grows g)
    (hrep : g.Represents (k.plug (b ++ (y ++ z)))) (hy : y.InPlace (Node.Divided tile herd g) k.inParallel) :
    g.code.InPlace (Node.Divided tile herd g) false := by
  have hsplice := Spine.inPlace_splice (σ := id) (Q := Node.Divided tile herd g) (hr.code_eq ▸ h.divided)
    (fun h' hh' i hdiv => by
      rw [Node.rename_id]
      exact hdiv.grows hg (h.orderly.has hr h' (Spine.mem_heads_around hh' hd x))) hy
  rw [hrep.code_eq]
  simpa using hsplice

theorem fills_beside (h : plan.Dividing tile herd full f)
    (hr : f.Represents (k.plug (b ++ .node hd .nil z))) (hg : f.Replaces g k b .nil z id new)
    (hloop : hd.kind.isLoop = false) (hunused : ∀ v ∈ hd.defined, ∀ h ∈ f.code.heads, v ∉ h.operands)
    (hfull : full) : g.code.UsesHerd herd ∨
      (∃ h ∈ g.code.heads, ∃ step ∈ plan.steps, plan.Fills tile herd g step h) ∨
        ∃ step ∈ plan.steps, plan.Fills tile herd f step hd := by
  have hbeside : ∀ h ∈ f.code.heads, h = hd ∨ h ∈ k.before b ∨ h ∈ k.behind z := fun h hh => by
    rw [hr.code_eq, Spine.mem_heads_iff] at hh
    simp only [Code.heads, List.not_mem_nil, false_or] at hh
    tauto
  have hkept : ∀ h, h ∈ k.before b ∨ h ∈ k.behind z → h ∈ g.code.heads := fun h hh => by
    simpa using hg.mem_around hh
  rcases h.fills hfull with ⟨loop, hh, hparallel, htrips⟩ | ⟨h', hh, step, hstep, hfills⟩
  · rcases hbeside loop hh with rfl | hh
    · rw [OpKind.isParallel_of_not_loop hloop] at hparallel
      cases hparallel
    · exact .inl ⟨loop, hkept loop hh, hparallel, htrips⟩
  · rcases hbeside h' hh with rfl | hh'
    · exact .inr (.inr ⟨step, hstep, hfills⟩)
    · refine .inr (.inl ⟨h', hkept h' hh', step, hstep, hfills.replaces hg hr hh' fun v hv => ?_⟩)
      exact ⟨h.orderly.has_operand h' hh v hv, fun hdef => hunused v hdef h' hh hv⟩

theorem shed (h : plan.Dividing tile herd full f) (hs : f.Sheds g k b x z hd) :
    plan.Dividing tile herd full g where
  orderly := h.orderly.shed hs
  divided := h.divided_splice (y := .nil) hs.before hs.same.grows (by simpa using hs.after) trivial
  fills hfull := by
    obtain rfl := h.orderly.body_eq_nil hs
    refine (h.fills_beside hs.before hs.replaces (OpKind.isLoop_of_isPure hs.pure)
      (hs.before.code_eq ▸ hs.unused) hfull).imp_right fun hfills => hfills.resolve_right ?_
    rintro ⟨step, -, hfills⟩
    obtain ⟨hkind, -⟩ := of_check
      (hs.before.exists_record (Spine.mem_heads_at k b .nil z hd)) hfills.check
    have hpure := hs.pure
    rw [hkind] at hpure
    cases hpure

theorem change (h : plan.Dividing tile herd full f) (hplan : plan.Divides tile herd)
    (hr : f.Represents (k.plug (b ++ .node hd x z))) (hstep : step ∈ plan.steps) :
    ((plan.rule step).apply f hd.op).Gives True fun g =>
      plan.Dividing tile herd full g ∧ f.Grows g := by
  have hhd := Spine.mem_heads_at k b x z hd
  obtain ⟨-, -, hdiv, -⟩ := Spine.inPlace_at.1 (hr.code_eq ▸ h.divided)
  have hchange := (Staged.mk h.orderly (by simp) : plan.Staged 0 f).change hr hstep
  refine (gives_dividesAt hplan hr hdiv hstep (h.orderly.has hr hd hhd)).mono ?_
  rintro g happly ⟨y, hsplice, hy, hyfills⟩
  obtain ⟨rfl, hdefined, -, -, horderly, -⟩ := hchange.of_answers happly
  refine ⟨⟨horderly, h.divided_splice hr hsplice.grows hsplice.represents hy, fun hfull => ?_⟩,
    hsplice.grows⟩
  have hreplaces : f.Replaces g k b .nil z id y.heads := hsplice.replaces_id
  rw [Rule.apply, Inspect.answers_bind] at happly
  obtain ⟨⟨⟩, hcheck, -⟩ := happly
  obtain ⟨hkind, hmarker⟩ := of_check (hr.exists_record hhd) hcheck
  rcases h.fills_beside hr hreplaces (by rw [hkind]; rfl) (by simp [hdefined]) hfull with
    huses | hfills | ⟨step', hstep', hfills⟩
  · exact .inl huses
  · exact .inr hfills
  · obtain ⟨-, hmarker'⟩ := of_check (hr.exists_record hhd) hfills.check
    have hsource : step.source = step'.source := Option.some.inj (hmarker.symm.trans hmarker')
    obtain rfl : step = step' := by
      have hnext := Step.next?_of_mem hstep
      rw [hsource, Step.next?_of_mem hstep', Option.some.injEq] at hnext
      exact hnext.symm
    rcases hyfills hfills with ⟨loop, hh, huses⟩ | ⟨h', hh, hfills⟩
    · exact .inl ⟨loop, hreplaces.mem_new hh, huses⟩
    · exact .inr ⟨h', hreplaces.mem_new hh, hfills⟩

theorem keeps (hplan : plan.Divides tile herd) :
    Greedy.Keeps (· = .overflow) (plan.Dividing tile herd full) plan.stageRules where
  wellFormed _ h := h.orderly.tidy.wellFormed
  sheds _ _ _ _ _ _ _ h hs := h.shed hs
  rule rule hrule _ _ _ _ _ _ h hr := by
    obtain ⟨step, hstep, rfl⟩ := List.mem_map.1 hrule
    exact ends_overflow.2 <| Yields.mono (h.change hplan hr hstep) fun _ _ hgives g hg =>
      have hchange := hgives g hg
      ⟨hchange.1, hchange.2.ops⟩

theorem herded (h : plan.Dividing tile herd full f)
    (hdone : full → ∀ h ∈ f.code.heads, ∀ step ∈ plan.steps, (plan.rule step).Declines f h.op) :
    f.Herded herd full where
  built := h.orderly.cleanable.built
  fits := h.divided.imp fun _ _ _ hdiv => hdiv.herded
  uses hfull := by
    rcases h.fills hfull with huses | ⟨h', hh, step, hstep, hfills⟩
    · exact huses
    · exact (hdone hfull h' hh step hstep hfills.check).elim

theorem run (h : plan.Dividing tile herd full f) (hplan : plan.Divides tile herd)
    (hmax : full → 4 ≤ maxSweeps) : Yields True (Greedy.run plan.stageRules maxSweeps f).outcome fun r =>
      r.1.Herded herd full := by
  have hstaged : full → Yields True (Greedy.run plan.stageRules maxSweeps f).outcome fun r =>
      plan.Staged plan.steps.length r.1 := fun hfull =>
    ends_overflow.1 ((Staged.converges plan).run_last (fun _ _ h => h.orderly.tidy.wellFormed)
      (Step.length_table_pos _ _) ((Step.length_table_le _ _).trans (hmax hfull)) ⟨h.orderly, by simp⟩)
  refine (ends_overflow.1 ((keeps hplan).run maxSweeps h)).mono fun r hr hdividing => ?_
  refine hdividing.herded fun hfull h' hh step hstep => ?_
  exact ((hstaged hfull).of_ok hr).past h' hh step (by rwa [List.take_length])

end Dividing

end KernelPlan

/-- The options ask for tiles of this size on a herd, and leave it to the herd how large those of the mid
tier are. -/
structure LoweringOptions.Divides (options : LoweringOptions) (tile herd : Grid) : Prop where
  l1Tile : TileSizes.overrideWith TileSizes.defaultL1Tile options.l1TileSize = tile.toList
  herdSize : TileSizes.overrideWith TileSizes.defaultHerd (options.herdSize.map Int.ofNat) = herd.toList
  l2Tile : options.l2TileSize = []
  one_le_tile : 1 ≤ tile
  one_le_herd : 1 ≤ herd
  fits : ∀ size ∈ (tile * herd).toList, Checked.Fits size

theorem LoweringOptions.Divides.exists_plan {options : LoweringOptions} (h : options.Divides tile herd) :
    ∃ plan, (KernelPlan.matmul options).outcome = .ok plan ∧ plan.Divides tile herd := by
  have hscaled : ((tile.toList.zip herd.toList).mapM fun p => (Checked.mul p.1 p.2 : Logged Int)).outcome =
      .ok (tile * herd).toList := by
    obtain ⟨hrows, hcolumns, hdepth⟩ : Checked.Fits (tile.rows * herd.rows) ∧
        Checked.Fits (tile.columns * herd.columns) ∧ Checked.Fits (tile.depth * herd.depth) := by
      simpa [Grid.toList] using h.fits
    simp only [Grid.toList, List.zip_cons_cons, List.zip_nil_left, List.mapM_cons, List.mapM_nil,
      Checked.mul, Checked.fit_of_fits, hrows, hcolumns, hdepth]
    rfl
  refine ⟨⟨.matmul, options.promoteL2, ⟨(tile * herd).toList, [2, 1, 0], .sequential⟩, ⟨none, some .l2⟩,
    ⟨tile.toList, [], .parallel⟩, ⟨none, none⟩⟩, ?_, rfl, rfl, rfl, rfl, h.one_le_tile, h.one_le_herd⟩
  simp only [KernelPlan.matmul, TileSizes.matmul, TileSizes.herd, Logged.outcome_bind,
    TileSizes.outcome_override, Fault.ok_bind, h.l1Tile, h.herdSize, h.l2Tile, hscaled]
  rfl

namespace Function

theorem forest_stripMarker (f : Function) (op : OpId) : (f.stripMarker op).forest = f.forest := by
  have hskeleton : (f.stripMarker op).skeleton = f.skeleton := by
    have hbare : ∀ o : Operation, { o with marker := none }.bare = id o.bare := fun _ => rfl
    have hops : f.skeleton.ops.modify op.index id = f.skeleton.ops :=
      Array.ext (by simp) fun i _ _ => by simp [Array.getElem_modify]
    rw [stripMarker, skeleton_modifyOp hbare, modifyOp, hops]
  rw [forest, forest, ← unfold_skeleton, ← nesting_skeleton, hskeleton, unfold_skeleton,
    nesting_skeleton]
  rfl

theorem kind_stripMarker (f : Function) (op other : OpId) :
    ((f.stripMarker op).head? other).map (·.kind) = (f.head? other).map (·.kind) := by
  rw [head?, head?, stripMarker, op?_modifyOp]
  split <;> simp [Function.comp_def]

end Function

namespace Pipeline

theorem forest_stripMarkers (f : Function) : (stripMarkers f).forest = f.forest := by
  rw [stripMarkers]
  generalize f.collect (·.kind.isLinalg) = ops
  induction ops generalizing f with
  | nil => rfl
  | cons op ops ih => exact (ih (f.stripMarker op)).trans (f.forest_stripMarker op)

theorem kind_stripMarkers (f : Function) (other : OpId) :
    ((stripMarkers f).head? other).map (·.kind) = (f.head? other).map (·.kind) := by
  rw [stripMarkers]
  generalize f.collect (·.kind.isLinalg) = ops
  induction ops generalizing f with
  | nil => rfl
  | cons op ops ih => exact (ih (f.stripMarker op)).trans (f.kind_stripMarker op other)

theorem herded_stripMarkers {full : Prop} (h : f.Herded herd full) :
    (stripMarkers f).code.FitsHerd herd ∧ (full → (stripMarkers f).code.UsesHerd herd) := by
  have hcode : (stripMarkers f).code = f.forest.code (stripMarkers f) := by
    rw [Function.code, forest_stripMarkers]
  rw [hcode]
  refine ⟨Forest.inPlace_code (kind_stripMarkers f) (fun hkind h => hkind ▸ h)
    (h.fits.imp fun _ _ _ h => h.toFitsHerd), fun hfull => ?_⟩
  obtain ⟨h', hh, hparallel, htrips⟩ := h.uses hfull
  have hkind : h'.kind ∈ (f.forest.code (stripMarkers f)).heads.map (·.kind) := by
    rw [Forest.kinds_code (kind_stripMarkers f)]
    exact List.mem_map_of_mem hh
  obtain ⟨h'', hh'', hsame⟩ := List.mem_map.1 hkind
  exact ⟨h'', hh'', hsame ▸ hparallel, hsame ▸ htrips⟩

variable {plan : KernelPlan} {maxSweeps : Nat} {full : Prop}

theorem yields_herded (hf : plan.Dividing tile herd full f) (hplan : plan.Divides tile herd)
    (hmax : full → 4 ≤ maxSweeps) (hfull : full → 2 ≤ herd.rows * herd.columns) :
    Yields True (run plan maxSweeps f).outcome fun r =>
      r.1.code.FitsHerd herd ∧ (full → r.1.code.UsesHerd herd) := by
  have htile : Yields True (runRound plan maxSweeps f .tile).outcome fun r => r.1.Herded herd full :=
    yields_runRound (hf.run hplan hmax)
  have hcleanup : ∀ (round : Round) (g : Function), g.Herded herd full →
      rules plan round ⊆ Rule.canonicalization ++ Rule.viewCleanup →
        Yields True (runRound plan maxSweeps g round).outcome fun r => r.1.Herded herd full :=
    fun _ _ hg hrules =>
      yields_runRound (ends_overflow.1 ((Function.Herded.keeps hfull hrules).run maxSweeps hg))
  simp only [run, Logged.outcome_bind, Yields.bind_iff]
  refine htile.mono fun tiled _ htiled => ?_
  refine (hcleanup .canonicalize _ htiled (List.subset_append_left _ _)).mono fun canonical _ hcanonical => ?_
  refine (hcleanup .foldViews _ hcanonical (List.subset_append_right _ _)).mono fun folded _ hfolded => ?_
  exact herded_stripMarkers hfolded

end Pipeline

theorem Outline.dividing_callee {plan : KernelPlan} {full : Prop} {o : Operation} {name : String}
    {r : OpId × Function} (h : callee f o name (some .selected) = .ok r)
    (hkind : o.kind = .kernel .matmul) (hplan : plan.Divides tile herd)
    (hfull : full → ∃ extents, f.Spans o.operands extents ∧ tile * herd ≤ extents) :
    plan.Dividing tile herd full r.2 := by
  have horderly := orderly_callee h hkind
  obtain ⟨-, -, htypes, inner, op, hinner, hops, -, hmarker, hcode⟩ := represents_callee h
  rw [hkind] at hinner
  have hin : inner ∈ r.2.code.heads := by
    rw [hcode]
    exact List.mem_cons_self
  refine ⟨horderly, ?_, fun hf => .inr ⟨inner, hin, ?_⟩⟩
  · rw [hcode]
    refine ⟨⟨.of_not_loop (by rw [hinner]; rfl), fun _ stage hstage _ => ⟨rfl, fun hlt => ?_⟩⟩, trivial,
      .of_other rfl rfl, trivial, trivial⟩
    cases hmarker.symm.trans hstage
    exact (Nat.lt_irrefl _ hlt).elim
  · obtain ⟨extents, ⟨types, hspans, hextents⟩, hle⟩ := hfull hf
    have hspans' : r.2.Spans inner.operands extents := ⟨types, by rw [hops, htypes, hspans], hextents⟩
    obtain ⟨step, hstep, hsource, htransition⟩ :
        ∃ step ∈ plan.steps, step.source = .selected ∧ step.transition = .tileMid := by
      rw [hplan.steps_eq]
      cases plan.promoteMid <;> decide
    refine ⟨step, hstep, ?_, extents, hspans', .inl ⟨htransition, hle⟩⟩
    simp only [KernelPlan.rule, htransition]
    exact (hplan.cuts_tileMid _).check_answers (horderly.tidy.wellFormed.exists_record hin) hinner
      (hmarker.trans (congrArg some hsource.symm)) hspans'

namespace Pipeline

theorem run_fitsHerd_of_outline {p q : Program} {o : Operation} {caller hint : String} {op : OpId}
    {outlined : Outlined} {options : LoweringOptions} (hf : p.find? caller = some f)
    (ho : f.op op = .ok o) (hkind : o.kind = .kernel .matmul)
    (houtline : (p.outline caller op hint (some .selected)).outcome = .ok (.ok (q, outlined)))
    (hoptions : options.Divides tile herd) : ∃ plan callee,
      (KernelPlan.matmul options).outcome = .ok plan ∧ q.find? outlined.callee = some callee ∧
        Yields True (run plan options.maxSweeps callee).outcome fun r => r.1.code.FitsHerd herd ∧
          (4 ≤ options.maxSweeps → 2 ≤ herd.rows * herd.columns →
            ∀ extents, f.Spans o.operands extents → tile * herd ≤ extents → r.1.code.UsesHerd herd) := by
  obtain ⟨plan, hmade, hplan⟩ := hoptions.exists_plan
  obtain ⟨inner, callee, hcallee, hfound⟩ := Program.exists_callee_of_outline hf ho houtline
  have hdividing : plan.Dividing tile herd ((4 ≤ options.maxSweeps ∧ 2 ≤ herd.rows * herd.columns) ∧
      ∃ extents, f.Spans o.operands extents ∧ tile * herd ≤ extents) callee :=
    Outline.dividing_callee hcallee hkind hplan And.right
  refine ⟨plan, callee, hmade, hfound,
    (yields_herded hdividing hplan (fun h => h.1.1) fun h => h.1.2).mono ?_⟩
  rintro r - ⟨hfits, huses⟩
  exact ⟨hfits, fun hmax hherd extents hspans hle => huses ⟨⟨hmax, hherd⟩, extents, hspans, hle⟩⟩

def rowEach : LoweringOptions where
  viewsOnly := false
  herdSize := [3, 1]
  l1TileSize := [1, 2, 1]
  l2TileSize := []
  l1Size := 32768
  promoteL2 := true
  maxSweeps := 4

theorem run_fitsHerd_of_outline_markedProduct : ∃ q outlined plan callee g outcome,
    ((⟨[Tiling.markedProduct]⟩ : Program).outline "product" ⟨0⟩ "kernel" (some .selected)).outcome =
      .ok (.ok (q, outlined)) ∧ (KernelPlan.matmul rowEach).outcome = .ok plan ∧
        q.find? outlined.callee = some callee ∧
          (run plan rowEach.maxSweeps callee).outcome = .ok (g, outcome) ∧ outcome.changes = 16 ∧
            g.code.FitsHerd ⟨3, 1, 2⟩ ∧ g.code.UsesHerd ⟨3, 1, 2⟩ := by
  have hfound : (⟨[Tiling.markedProduct]⟩ : Program).find? "product" = some Tiling.markedProduct := by
    decide +kernel
  have hop : ∃ o, Tiling.markedProduct.op ⟨0⟩ = .ok o ∧ o.kind = .kernel .matmul ∧
      Tiling.markedProduct.Spans o.operands ⟨3, 2, 2⟩ := ⟨_, rfl, rfl, _, rfl, by decide +kernel⟩
  have hdivides : rowEach.Divides ⟨1, 2, 1⟩ ⟨3, 1, 2⟩ := by constructor <;> decide
  have hplan : (KernelPlan.matmul rowEach).outcome = .ok eachRowPlan := rfl
  have hmax : rowEach.maxSweeps = 4 := rfl
  have hruns := runOutlined_eachRowPlan
  generalize Tiling.markedProduct = f at *
  generalize rowEach = options at *
  obtain ⟨⟨g, outcome⟩, hr, hchanges⟩ := Option.map_eq_some_iff.1 hruns
  obtain ⟨q, outlined, callee, houtline, hcallee, hg⟩ := runOutlined_eq_some.1 hr
  obtain ⟨o, ho, hkind, hspans⟩ := hop
  obtain ⟨plan, callee', hplan', hcallee', hrun⟩ :=
    run_fitsHerd_of_outline hfound ho hkind houtline hdivides
  obtain rfl := Option.some.inj (hcallee.symm.trans hcallee')
  obtain rfl := Except.ok.inj (hplan.symm.trans hplan')
  rw [← hmax] at hg
  obtain ⟨hfits, huses⟩ := hrun.of_ok hg
  exact ⟨q, outlined, eachRowPlan, callee, g, outcome, houtline, hplan, hcallee, hg, hchanges, hfits,
    huses hmax.ge (by decide) _ hspans (by decide)⟩

end Pipeline

end KernelLowering
