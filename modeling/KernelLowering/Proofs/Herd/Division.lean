import KernelLowering.Proofs.Convergence.Staging
import KernelLowering.Proofs.Herd.Nests
import KernelLowering.Proofs.Promotion.Effect

namespace KernelLowering

variable {f g : Function} {k : Spine} {b x y z : Code} {hd : Node} {herd tile extents : Grid}
  {enclosed : Bool}

namespace Step

variable {promoteMid : Bool} {step : Step}

theorem stages_of_mem (h : step ∈ table .matmul promoteMid) :
    (step.source < .tiledLocal ↔ step.transition ≠ .promoteLocal) ∧
      (.selected < step.source ↔ step.transition ≠ .tileMid) ∧
        (step.target < .tiledLocal ↔ step.transition = .tileMid ∨ step.transition = .promoteMid) := by
  revert step
  cases promoteMid <;> decide

theorem exists_next (h : step ∈ table .matmul promoteMid) (htarget : step.target < .tiledLocal) :
    ∃ next ∈ table .matmul promoteMid, next.source = step.target ∧
      (next.transition = .tileLocal ∨ next.transition = .promoteMid ∧ step.transition = .tileMid) := by
  revert step
  cases promoteMid <;> decide

end Step

namespace Promotion

variable {p : Promotion} {positions : List Nat} {operands buffers promoted : List ValueId}

theorem TilesOf.kinds {tiles : List (Nat × BufferType)} (h : TilesOf p tiles operands y buffers promoted) :
    ∀ h ∈ y.heads, h.kind.isLoop = false ∧ h.kind.kernel? = none := by
  induction h with
  | nil => simp [Code.heads]
  | cons hfirst _ ih =>
    rw [Code.heads_append, List.forall_mem_append]
    refine ⟨?_, ih⟩
    cases hfirst <;> simp [Code.heads, Node.value, OpKind.isLoop, OpKind.kernel?]

theorem TilesOf.spans {found : List (Option BufferType)} {y' : Code}
    (h : TilesOf p (positions.zip found.reduceOption) operands y buffers promoted)
    (hfound : TypesAt f operands positions found) (hsplice : Splice f g k b (y ++ y') z)
    (hspans : f.Spans operands extents) : g.Spans promoted extents := by
  obtain ⟨types, htypes, hextents⟩ := hspans
  have htypes := Tiling.bufferTypes?_eq_some.1 htypes
  obtain ⟨types', htypes', hshapes⟩ := h.bufferTypes?_eq (hfound.zip htypes).2 htypes hsplice
  exact ⟨types', htypes', by rwa [KernelKind.iterationExtents, hshapes]⟩

structure Promoted (p : Promotion) (f g : Function) (operands : List ValueId) (y : Code) : Prop where
  loopless : ∀ h ∈ y.heads, h.kind.isLoop = false
  kernels : ∀ h ∈ y.heads, h.kind.kernel?.isSome = true → h.marker = some p.guard.next ∧
    ∀ extents, f.Spans operands extents → g.Spans h.operands extents
  exists_kernel : ∃ h ∈ y.heads, h.kind = .kernel p.kind

theorem gives_promoted (hops : ∀ v ∈ hd.operands, f.Has v)
    (hr : f.Represents (k.plug (b ++ .node hd x z))) :
    ((Rule.promotion p).apply f hd.op).Gives True fun g => ∃ y, Splice f g k b y z ∧
      p.Promoted f g hd.operands y := by
  refine (gives_splice hops hr).mono ?_
  rintro g - ⟨found, _, hfound, ⟨htiles, hactions⟩, hsplice⟩
  rename_i y y' buffers promoted
  refine ⟨y ++ y', hsplice, fun h hh => ?_, fun h hh hkernel => ?_, ?_⟩
  · rw [Code.heads_append, List.mem_append] at hh
    rcases hh with hh | hh
    · exact (htiles.kinds h hh).1
    · obtain ⟨op, a, ha, rfl⟩ := hactions.exists_action h hh
      rcases cases_of_mem_actions ha with ⟨hkind | hkind, -⟩ | rfl
      · simp [Node.effect, hkind, OpKind.isLoop]
      · simp [Node.effect, hkind, OpKind.isLoop]
      · rfl
  · rw [Code.heads_append, List.mem_append] at hh
    rcases hh with hh | hh
    · simp [(htiles.kinds h hh).2] at hkernel
    · obtain ⟨op, a, ha, rfl⟩ := hactions.exists_action h hh
      rcases cases_of_mem_actions ha with ⟨hkind | hkind, -⟩ | rfl
      · simp [Node.effect, hkind, OpKind.kernel?] at hkernel
      · simp [Node.effect, hkind, OpKind.kernel?] at hkernel
      · exact ⟨rfl, fun extents => htiles.spans hfound hsplice⟩
  · obtain ⟨op, hop⟩ := hactions.mem_heads (a := (.kernel p.kind, promoted, some p.guard.next))
      (by simp [actions])
    exact ⟨_, by rw [Code.heads_append]; exact List.mem_append_right _ hop, rfl⟩

theorem check_answers {c : Code} {h m : Node} {v : ValueId} (hr : f.Represents c) (hh : h ∈ c.heads)
    (hops : ∀ v ∈ h.operands, f.Has v) (hkind : h.kind = .kernel p.kind)
    (hmarker : h.marker = some p.guard.current) (hall : p.options.positions = none)
    (hv : v ∈ h.operands) (hm : m ∈ c.heads) (hwindow : m.kind.window?.isSome = true)
    (hres : m.result.map (·.1) = some v) : (p.check f h.op).Answers () := by
  obtain ⟨k, b, hd, x, z, he, hc⟩ := hr.wellFormed.exists_at (hr.isLive_eq hh)
  rw [hr.code_eq] at hc
  subst hc
  obtain rfl := hr.eq_of_op hh (Spine.mem_heads_at k b x z hd) he.symm
  obtain ⟨i, hi, rfl⟩ := List.mem_iff_getElem.1 hv
  obtain ⟨⟨_, t⟩, hres, rfl⟩ := Option.map_eq_some_iff.1 hres
  have htile : i ∈ p.promotable (k.plug (b ++ .node h x z)) h.operands := by
    rw [promotable, hall, Option.getD_none, List.mem_filter, List.mem_range]
    refine ⟨hi, ?_⟩
    rw [isWindow, List.getElem?_eq_getElem hi, Option.bind_some, hr.definer?_eq hm hres]
    exact hwindow
  simp [check, StageGuard.checkKernel, StageGuard.check, hr.record_at, candidates_eq hr (.of_has hops), Node.record,
    hkind, hmarker, List.ne_nil_of_mem htile]

end Promotion

namespace KernelPlan

variable {plan : KernelPlan} {step : Step} {h : Node} {full : Prop}

structure Divides (plan : KernelPlan) (tile herd : Grid) : Prop where
  kind : plan.kind = .matmul
  tileMid : plan.tileMid = ⟨(tile * herd).toList, [2, 1, 0], .sequential⟩
  tileLocal : plan.tileLocal = ⟨tile.toList, [], .parallel⟩
  anywhere : plan.promotionMid.positions = none
  one_le_tile : 1 ≤ tile
  one_le_herd : 1 ≤ herd

structure Fills (plan : KernelPlan) (tile herd : Grid) (f : Function) (step : Step) (h : Node) : Prop where
  check : ((plan.rule step).check f h.op).Answers ()
  spans : ∃ extents, f.Spans h.operands extents ∧ (step.transition = .tileMid ∧ tile * herd ≤ extents ∨
    (step.transition = .promoteMid ∨ step.transition = .tileLocal) ∧ extents = tile * herd)

namespace Divides

variable (hplan : plan.Divides tile herd)

include hplan

theorem steps_eq : plan.steps = Step.table .matmul plan.promoteMid := by rw [steps, hplan.kind]

theorem cuts_tileMid (guard : StageGuard) :
    (⟨plan.kind, plan.tileMid, guard⟩ : Tiling).CutsProducts (tile * herd) [2, 1, 0] where
  kind := hplan.kind
  sizes := by rw [hplan.tileMid]
  loops := by rw [hplan.tileMid]; rfl
  natural := .inr rfl
  one_le := Grid.one_le_mul hplan.one_le_tile hplan.one_le_herd

theorem cuts_tileLocal (guard : StageGuard) :
    (⟨plan.kind, plan.tileLocal, guard⟩ : Tiling).CutsProducts tile [0, 1, 2] where
  kind := hplan.kind
  sizes := by rw [hplan.tileLocal]
  loops := by rw [hplan.tileLocal]; rfl
  natural := .inl rfl
  one_le := hplan.one_le_tile

theorem fills_of_spans {next : Step} (htransition : next.transition = .tileLocal ∨
      next.transition = .promoteMid ∧ ∃ v ∈ h.operands, ∃ m ∈ g.code.heads,
        m.kind.window?.isSome = true ∧ m.result.map (·.1) = some v)
    (hg : g.WellFormed) (hh : h ∈ g.code.heads) (hkind : h.kind = .kernel .matmul)
    (hmarker : h.marker = some next.source)
    (hspans : g.Spans h.operands (tile * herd)) : plan.Fills tile herd g next h := by
  refine ⟨?_, _, hspans, .inr ⟨htransition.symm.imp_left And.left, rfl⟩⟩
  rcases htransition with htransition | ⟨htransition, v, hv, m, hm, hwindow, hres⟩
  · simp only [rule, htransition]
    exact (hplan.cuts_tileLocal _).check_answers (hg.exists_record hh) hkind hmarker hspans
  · obtain ⟨types, htypes, -⟩ := hspans
    have hops := Tiling.index_lt_of_types (Tiling.bufferTypes?_eq_some.1 htypes)
    simp only [rule, htransition]
    exact Promotion.check_answers hg hh hops (hplan.kind ▸ hkind) hmarker hplan.anywhere hv hm hwindow hres

end Divides

def DividesAt (plan : KernelPlan) (tile herd : Grid) (f g : Function) (k : Spine) (b z : Code) (step : Step)
    (hd : Node) : Prop :=
  ∃ y, Splice f g k b y z ∧ y.InPlace (Node.Divided tile herd g) k.inParallel ∧
    (plan.Fills tile herd f step hd →
      y.UsesHerd herd ∨ ∃ h ∈ y.heads, ∃ next ∈ plan.steps, plan.Fills tile herd g next h)

theorem exists_fills (hplan : plan.Divides tile herd) (hstep : step ∈ plan.steps)
    (htarget : step.target < .tiledLocal) (hsplice : Splice f g k b y z) (hh : h ∈ y.heads)
    (hkind : h.kind = .kernel .matmul) (hmarker : h.marker = some step.target)
    (hwindow : step.transition = .tileMid → ∃ v ∈ h.operands, ∃ m ∈ y.heads,
      m.kind.window?.isSome = true ∧ m.result.map (·.1) = some v)
    (hspans : g.Spans h.operands (tile * herd)) :
    ∃ next ∈ plan.steps, plan.Fills tile herd g next h := by
  have hnew : ∀ h ∈ y.heads, h ∈ g.code.heads := fun h hh => by
    rw [hsplice.represents.code_eq]
    simp [Spine.mem_heads_plug, hh]
  rw [hplan.steps_eq] at hstep ⊢
  obtain ⟨next, hnext, hsource, htransition⟩ := Step.exists_next hstep htarget
  refine ⟨next, hnext, hplan.fills_of_spans ?_ hsplice.represents.wellFormed (hnew h hh) hkind
    (hsource ▸ hmarker) hspans⟩
  refine htransition.imp_right fun ⟨hpromote, htile⟩ => ⟨hpromote, ?_⟩
  obtain ⟨v, hv, m, hm, hview⟩ := hwindow htile
  exact ⟨v, hv, m, hnew m hm, hview⟩

section Steps

variable (hplan : plan.Divides tile herd) (hr : f.Represents (k.plug (b ++ .node hd x z)))
  (hhd : hd.Divided tile herd f k.inParallel) (hstep : step ∈ plan.steps)

include hplan hr hhd hstep

theorem outside_of_answers (htransition : step.transition ≠ .promoteLocal)
    (happly : ((plan.rule step).apply f hd.op).Answers g) : k.inParallel = false ∧
      (step.transition ≠ .tileMid → ∃ extents, f.Spans hd.operands extents ∧ extents ≤ tile * herd) := by
  rw [Rule.apply, Inspect.answers_bind] at happly
  obtain ⟨⟨⟩, hcheck, -⟩ := happly
  obtain ⟨hkind, hmarker⟩ := of_check (hr.exists_record (Spine.mem_heads_at k b x z hd)) hcheck
  obtain ⟨hsource, htiled, -⟩ := Step.stages_of_mem (hplan.steps_eq ▸ hstep)
  have hkernel := hhd.kernel (by rw [hkind]; rfl) _ hmarker (hsource.2 htransition)
  exact ⟨hkernel.1, fun hmid => hkernel.2 (htiled.2 hmid)⟩

variable (hops : ∀ v ∈ hd.operands, f.Has v)

include hops

theorem gives_tileMid (htransition : step.transition = .tileMid) :
    ((plan.rule step).apply f hd.op).Gives True fun g =>
      plan.DividesAt tile herd f g k b z step hd := by
  have hcuts := hplan.cuts_tileMid (.ofStep step)
  have hgives := hcuts.gives_nests hops hr
  rw [← show plan.rule step = .tiling ⟨plan.kind, plan.tileMid, .ofStep step⟩ by
    simp only [rule, htransition]] at hgives
  refine hgives.mono ?_
  rintro g happly ⟨tiles, extents, rs, cs, ds, ns, y, horder, hsplice, hnests⟩
  obtain ⟨houtside, -⟩ := outside_of_answers hplan hr hhd hstep (by simp [htransition]) happly
  obtain ⟨-, -, htarget⟩ := Step.stages_of_mem (hplan.steps_eq ▸ hstep)
  refine ⟨y, hsplice, ?_, fun hfills => .inr ?_⟩
  · rw [houtside]
    exact hnests.divided_sequential hplan.kind (by rw [hplan.tileMid]) horder hcuts.one_le
  · obtain ⟨extents', hspans, hwhole⟩ := hfills.spans
    obtain rfl := hspans.unique hnests.spans
    obtain ⟨h, hh, hkind, hmarker, hspans⟩ :=
      hnests.exists_whole hplan.kind hcuts.one_le (by simpa [htransition] using hwhole)
    exact ⟨h, hh, exists_fills hplan hstep (htarget.2 (.inl htransition)) hsplice hh hkind hmarker
      (fun _ => hnests.windows h hh (by rw [hkind]; rfl)) hspans⟩

theorem gives_tileLocal (htransition : step.transition = .tileLocal) :
    ((plan.rule step).apply f hd.op).Gives True fun g =>
      plan.DividesAt tile herd f g k b z step hd := by
  have hcuts := hplan.cuts_tileLocal (.ofStep step)
  have hgives := hcuts.gives_nests hops hr
  rw [← show plan.rule step = .tiling ⟨plan.kind, plan.tileLocal, .ofStep step⟩ by
    simp only [rule, htransition]] at hgives
  refine hgives.mono ?_
  rintro g happly ⟨tiles, extents, rs, cs, ds, ns, y, horder, hsplice, hnests⟩
  obtain ⟨houtside, hle⟩ := outside_of_answers hplan hr hhd hstep (by simp [htransition]) happly
  obtain ⟨extents', hspans, hle⟩ := hle (by simp [htransition])
  obtain rfl := hspans.unique hnests.spans
  obtain ⟨-, -, hnext⟩ := Step.stages_of_mem (hplan.steps_eq ▸ hstep)
  refine ⟨y, hsplice, ?_, fun hfills => .inl ?_⟩
  · rw [houtside]
    exact hnests.divided_parallel hplan.kind (by rw [hplan.tileLocal]) horder
      (by simp [StageGuard.ofStep, hnext, htransition]) hplan.one_le_tile hplan.one_le_herd hle
  · obtain ⟨extents'', hspans', hwhole⟩ := hfills.spans
    obtain rfl := hspans'.unique hspans
    exact hnests.usesHerd hplan.kind (by rw [hplan.tileLocal]) horder hplan.one_le_tile
      hplan.one_le_herd (by simpa [htransition] using hwhole)

theorem gives_promoteMid (htransition : step.transition = .promoteMid) :
    ((plan.rule step).apply f hd.op).Gives True fun g =>
      plan.DividesAt tile herd f g k b z step hd := by
  have hgives := Promotion.gives_promoted (p := ⟨plan.kind, plan.promotionMid, .ofStep step⟩) hops hr
  rw [← show plan.rule step = .promotion ⟨plan.kind, plan.promotionMid, .ofStep step⟩ by
    simp only [rule, htransition]] at hgives
  refine hgives.mono ?_
  rintro g happly ⟨y, hsplice, hpromoted⟩
  obtain ⟨houtside, hle⟩ := outside_of_answers hplan hr hhd hstep (by simp [htransition]) happly
  obtain ⟨extents, hspans, hle⟩ := hle (by simp [htransition])
  obtain ⟨-, -, htarget⟩ := Step.stages_of_mem (hplan.steps_eq ▸ hstep)
  refine ⟨y, hsplice, .of_sequential fun h hh => ⟨⟨.of_not_loop (hpromoted.loopless h hh), ?_⟩, ?_⟩,
    fun hfills => .inr ?_⟩
  · exact fun hkernel _ _ _ => ⟨houtside, fun _ => ⟨_, (hpromoted.kernels h hh hkernel).2 _ hspans, hle⟩⟩
  · exact OpKind.isParallel_of_not_loop (hpromoted.loopless h hh)
  · obtain ⟨extents', hspans', hwhole⟩ := hfills.spans
    obtain rfl := hspans'.unique hspans
    obtain ⟨h, hh, hkind⟩ := hpromoted.exists_kernel
    obtain ⟨hmarker, hsame⟩ := hpromoted.kernels h hh (by rw [hkind]; rfl)
    have hwhole : extents' = tile * herd := by simpa [htransition] using hwhole
    exact ⟨h, hh, exists_fills hplan hstep (htarget.2 (.inr htransition)) hsplice hh
      (hplan.kind ▸ hkind) hmarker (by simp [htransition]) (hwhole ▸ hsame _ hspans)⟩

omit hhd in
theorem gives_promoteLocal (htransition : step.transition = .promoteLocal) :
    ((plan.rule step).apply f hd.op).Gives True fun g =>
      plan.DividesAt tile herd f g k b z step hd := by
  have hgives := Promotion.gives_promoted (p := ⟨plan.kind, plan.promotionLocal, .ofStep step⟩) hops hr
  rw [← show plan.rule step = .promotion ⟨plan.kind, plan.promotionLocal, .ofStep step⟩ by
    simp only [rule, htransition]] at hgives
  refine hgives.mono ?_
  rintro g - ⟨y, hsplice, hpromoted⟩
  obtain ⟨-, -, htarget⟩ := Step.stages_of_mem (hplan.steps_eq ▸ hstep)
  refine ⟨y, hsplice, .of_sequential fun h hh => ⟨⟨.of_not_loop (hpromoted.loopless h hh), ?_⟩, ?_⟩,
    fun hfills => ?_⟩
  · intro hkernel stage hstage hlt
    obtain ⟨hmarker, -⟩ := hpromoted.kernels h hh hkernel
    cases hmarker.symm.trans hstage
    simp [StageGuard.ofStep, htarget, htransition] at hlt
  · exact OpKind.isParallel_of_not_loop (hpromoted.loopless h hh)
  · obtain ⟨extents', -, hwhole⟩ := hfills.spans
    simp [htransition] at hwhole

theorem gives_dividesAt : ((plan.rule step).apply f hd.op).Gives True fun g =>
    plan.DividesAt tile herd f g k b z step hd := by
  cases htransition : step.transition with
  | tileMid => exact gives_tileMid hplan hr hhd hstep hops htransition
  | promoteMid => exact gives_promoteMid hplan hr hhd hstep hops htransition
  | tileLocal => exact gives_tileLocal hplan hr hhd hstep hops htransition
  | promoteLocal => exact gives_promoteLocal hplan hr hstep hops htransition

end Steps

end KernelPlan

end KernelLowering
