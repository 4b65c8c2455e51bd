import KernelLowering.Proofs.Simulation.Rounds

namespace KernelLowering

variable {f : Function} {v : ValueId} {type : BufferType} {op : OpId}

/-- Entered with one memory, the function can leave the other. -/
def Function.Leaves (f : Function) (m m' : Memory) : Prop := Runs (f.code.trace (Env.entry f)) m m'

theorem Env.ref?_entry (hv : v.index < f.arity) (ht : f.bufferType? v = .ok (some type)) :
    (Env.entry f).ref? v = some (.whole v type.shape) := by
  obtain ⟨a, ha, ht⟩ := Fault.map_eq_ok.1 ht
  have ha := Function.value_eq_ok.1 ha
  simp [Env.ref?, Env.entry, hv, ha, ht, Item.ref?]

theorem Env.refs_entry {vs : List ValueId} {types : List BufferType} (hvs : ∀ v ∈ vs, v.index < f.arity)
    (ht : List.Forall₂ (fun v type => f.bufferType? v = .ok (some type)) vs types) : ∃ refs,
      vs.mapM (Env.entry f).ref? = some refs ∧ refs.map (·.shape) = types.map (·.shape) ∧
        refs.map (·.root) = vs ∧ ∀ r ∈ refs, r.Distinct := by
  simp only [Env.mapM_ref?_eq_some]
  induction ht with
  | nil => exact ⟨[], .nil, rfl, rfl, by simp⟩
  | @cons v type vs types ht _ ih =>
    obtain ⟨hv, hvs⟩ := List.forall_mem_cons.1 hvs
    obtain ⟨refs, hrefs, hshapes, hroots, hdistinct⟩ := ih hvs
    refine ⟨.whole v type.shape :: refs, .cons (Env.ref?_entry hv ht) hrefs, congrArg _ hshapes,
      congrArg _ hroots, List.forall_mem_cons.2 ⟨fun i _ j _ hij => congrArg Prod.snd hij, hdistinct⟩⟩

namespace Outline

variable {o : Operation} {name : String} {marker : Option Stage} {r : OpId × Function} {kind : KernelKind}
  {types : List BufferType} {extents : List Int}

theorem sound_callee (h : callee f o name marker = .ok r) (hkind : o.kind = .kernel kind)
    (htypes : f.bufferTypes? o.operands = .ok (some types))
    (hextents : kind.iterationExtents types = .ok (some extents)) : r.2.Sound r.2.code ∧ ∃ refs,
      r.2.arguments.mapM (Env.entry r.2).ref? = some refs ∧ refs.map (·.root) = r.2.arguments ∧
        r.2.code.trace (Env.entry r.2) = [.kernel kind refs] := by
  have hwf : r.2.Represents r.2.code := callee_wellFormed h
  obtain ⟨-, -, hsame, inner, op, hinner, hops, hres, -, hcode⟩ := represents_callee h
  rw [hkind] at hinner
  have harguments := Tiling.bufferTypes?_eq_some.1 (hsame.trans htypes)
  obtain ⟨refs, hrefs, hshapes, hroots, hdistinct⟩ :=
    Env.refs_entry (fun v hv => Function.mem_arguments.1 hv) harguments
  have hactions : inner.actions (Env.entry r.2) = [.kernel kind refs] := by
    simp only [Node.actions, hinner, hops, hrefs]
  have hfit : (Action.kernel kind refs).Fit := by
    refine ⟨⟨extents, by rw [hshapes]; exact hextents⟩, ?_, fun z hz => hdistinct z (List.mem_of_getElem? hz)⟩
    rw [hroots]
    exact List.nodup_range.map fun i j hij => congrArg ValueId.index hij
  have hnode : inner = .effect inner.op (.kernel kind) r.2.arguments inner.marker := by
    have hvars := hwf.vars (h := inner) (by rw [hcode]; exact List.mem_cons_self)
    rw [hinner] at hvars
    obtain ⟨op, k, operands, result, marker, vars⟩ := inner
    simp_all [Node.effect, OpKind.loopRanges]
  have hiter : inner.kind.iterations = [] := by rw [hinner]; rfl
  have hhas : ∀ v ∈ r.2.arguments, r.2.Has v := fun v hv => hwf.has_argument (Function.mem_arguments.1 hv)
  refine ⟨⟨hwf, fun n hn => ?_, ?_, ?_⟩, refs, hrefs, hroots, ?_⟩
  · rw [hcode] at hn
    simp only [Code.heads, List.nil_append, List.mem_cons, List.not_mem_nil, or_false] at hn
    rcases hn with rfl | rfl
    · rw [hnode]
      exact .effect _ _ rfl rfl (by simp) hhas
    · exact .effect op none rfl rfl (by simp) (by simp)
  · rw [hcode]
    refine ⟨⟨fun _ => ⟨_, hactions, hfit⟩, by simp [hinner]⟩, by simp [hiter],
      Node.fit_of_plain rfl rfl _, fun i hi => ?_, trivial⟩
    cases hi
  · rw [hcode]
    exact Code.raceFree_of_loopless (by simp [Code.heads, hinner, OpKind.isLoop, Node.effect]) _
  · rw [hcode]
    simp only [Code.trace, hactions, hiter]
    rfl

end Outline

namespace Pipeline

variable {plan : KernelPlan}

theorem yields_improves (plan : KernelPlan) (maxSweeps : Nat) (hs : f.Sound f.code) (hf : f.Orderly)
    (ht : f.TendsBuffers) (hdead : f.deadOps = []) :
    Yields True (run plan maxSweeps f).outcome fun r => f.Improves r.1 f.code r.1.code := by
  have hround : ∀ (round : Round) (g : Function), Greedy.Keeps (· = .overflow)
      (fun f => f.Orderly ∧ f.TendsBuffers) (rules plan round) →
        (∀ space, .reallocation space ∉ rules plan round) →
          ((g.Orderly ∧ g.TendsBuffers) ∧ f.Improves g f.code g.code) ∧ g.deadOps = [] →
            Yields True (runRound plan maxSweeps g round).outcome fun r =>
              ((r.1.Orderly ∧ r.1.TendsBuffers) ∧ f.Improves r.1 f.code r.1.code) ∧ r.1.deadOps = [] :=
    fun _ _ hkeeps hrules hg => yields_runRound (ends_overflow.1 ((hkeeps.improves hrules f f.code).run_settles
      (Q := fun g => ((g.Orderly ∧ g.TendsBuffers) ∧ f.Improves g f.code g.code) ∧ g.deadOps = [])
      (fun _ h hd => ⟨h, hd⟩) maxSweeps hg.1 hg))
  have hstages : ∀ space, Rule.reallocation space ∉ plan.stageRules := by
    intro space hmem
    obtain ⟨step, -, hrule⟩ := List.mem_map.1 hmem
    simp only [KernelPlan.rule] at hrule
    split at hrule <;> cases hrule
  simp only [run, Logged.outcome_bind, Yields.bind_iff]
  refine (hround .tile f plan.keeps_tended hstages ⟨⟨⟨hf, ht⟩, hs.improves⟩, hdead⟩).mono fun tiled _ htiled => ?_
  refine (hround .canonicalize _ Greedy.keeps_tended (by simp [rules, Rule.canonicalization]) htiled).mono
    fun canonical _ hcanonical => ?_
  obtain ⟨⟨⟨horderly, htended⟩, himproves⟩, -⟩ := hcanonical
  have hcleanup : Yields True (runRound plan maxSweeps canonical.1 .foldViews).outcome fun r =>
      f.Improves r.1 f.code r.1.code :=
    yields_runRound (Greedy.run_improves maxSweeps (horderly.careful htended) himproves)
  exact hcleanup.mono fun folded _ hfolded => hfolded.stripMarkers

theorem run_improves_of_outline {p q : Program} {o : Operation} {caller hint : String} {marker : Option Stage}
    {outlined : Outlined} {types : List BufferType} {extents : List Int} (hf : p.find? caller = some f)
    (ho : f.op op = .ok o) (hkind : o.kind = .kernel plan.kind)
    (htypes : f.bufferTypes? o.operands = .ok (some types))
    (hextents : plan.kind.iterationExtents types = .ok (some extents))
    (houtline : (p.outline caller op hint marker).outcome = .ok (.ok (q, outlined))) (maxSweeps : Nat) :
    ∃ callee refs, q.find? outlined.callee = some callee ∧
      callee.arguments.mapM (Env.entry callee).ref? = some refs ∧ refs.map (·.root) = callee.arguments ∧
        callee.code.trace (Env.entry callee) = [.kernel plan.kind refs] ∧
          Yields True (run plan maxSweeps callee).outcome fun r => callee.Improves r.1 callee.code r.1.code := by
  obtain ⟨inner, callee, hcallee, hfound⟩ := Program.exists_callee_of_outline hf ho houtline
  obtain ⟨ht, hdead⟩ := Outline.tends_callee hcallee hkind
  obtain ⟨hsound, refs, hrefs, hroots, htrace⟩ := Outline.sound_callee hcallee hkind htypes hextents
  exact ⟨callee, refs, hfound, hrefs, hroots, htrace,
    yields_improves plan maxSweeps hsound (Outline.orderly_callee hcallee hkind) ht hdead⟩

theorem run_leaves_of_outline {p q : Program} {o : Operation} {caller hint : String} {marker : Option Stage}
    {outlined : Outlined} {types : List BufferType} {extents : List Int} (hf : p.find? caller = some f)
    (ho : f.op op = .ok o) (hkind : o.kind = .kernel plan.kind)
    (htypes : f.bufferTypes? o.operands = .ok (some types))
    (hextents : plan.kind.iterationExtents types = .ok (some extents))
    (houtline : (p.outline caller op hint marker).outcome = .ok (.ok (q, outlined))) (maxSweeps : Nat) :
    ∃ callee refs, q.find? outlined.callee = some callee ∧
      callee.arguments.mapM (Env.entry callee).ref? = some refs ∧ refs.map (·.root) = callee.arguments ∧
        callee.code.trace (Env.entry callee) = [.kernel plan.kind refs] ∧
          Yields True (run plan maxSweeps callee).outcome fun r =>
            r.1.code.Throughout Node.Fit (Env.entry r.1) ∧ ∀ m m₁ m' m₁' : Memory,
              (∀ c : Ref.Cell, c.1 ∈ callee.arguments → m' c = m c) → callee.Leaves m m₁ →
                r.1.Leaves m' m₁' → ∀ c : Ref.Cell, c.1 ∈ callee.arguments → m₁' c = m₁ c := by
  obtain ⟨callee, refs, hcallee, hrefs, hroots, htrace, hrun⟩ :=
    run_improves_of_outline hf ho hkind htypes hextents houtline maxSweeps
  refine ⟨callee, refs, hcallee, hrefs, hroots, htrace, hrun.mono fun r _ himproves => ?_⟩
  refine ⟨himproves.sound.fit, fun m m₁ m' m₁' hm hold hnew c hc => ?_⟩
  obtain ⟨m₀, m₂, hm₀, hrun₀, hm₂⟩ := himproves.refines m' m₁' hnew
  rw [Function.Leaves, htrace] at hold
  rw [htrace] at hrun₀
  obtain ⟨_, rfl, rfl⟩ := hold
  obtain ⟨_, rfl, rfl⟩ := hrun₀
  rw [hm₂ c (Function.mem_arguments.1 hc)]
  -- what the kernel leaves in the arguments depends on nothing else
  have hmirrors : Mirrors (.keep (· ∉ callee.arguments)) m m₀ := by
    rintro c _ ⟨rfl, hin⟩
    have hin := not_not.1 hin
    rw [← hm₀ c (Function.mem_arguments.1 hin), hm c hin]
  refine hmirrors.foldl_accumulate (Pairing.oneToOne_keep _) (List.forall₂_same.2 fun u hu =>
    List.forall₂_same.2 fun c hc => ⟨rfl, not_not.2 ?_⟩) c c ⟨rfl, not_not.2 hc⟩
  obtain ⟨r, hr, hroot⟩ := Tiling.root_of_updates hu hc
  exact hroot ▸ hroots ▸ List.mem_map_of_mem hr

theorem op_markedProduct : (⟨[Tiling.markedProduct]⟩ : Program).find? "product" = some Tiling.markedProduct ∧
    ∃ o types extents, Tiling.markedProduct.op ⟨0⟩ = .ok o ∧ o.kind = .kernel columnPlan.kind ∧
      Tiling.markedProduct.bufferTypes? o.operands = .ok (some types) ∧
        columnPlan.kind.iterationExtents types = .ok (some extents) :=
  ⟨by decide +kernel, _, _, [3, 2, 2], rfl, rfl, rfl, by decide +kernel⟩

theorem outline_run_markedProduct : ∃ q outlined callee g outcome,
    ((⟨[Tiling.markedProduct]⟩ : Program).outline "product" ⟨0⟩ "kernel" (some .selected)).outcome =
      .ok (.ok (q, outlined)) ∧ q.find? outlined.callee = some callee ∧
        (run columnPlan 5 callee).outcome = .ok (g, outcome) ∧ outcome.changes = 17 ∧
          (g.collect (·.kind.isParallel)).length = 2 := by
  have hruns := runOutlined_columnPlan
  -- The run is not to be unfolded again: from here on the function is any that this holds of.
  generalize Tiling.markedProduct = f at *
  obtain ⟨⟨g, outcome⟩, hr, hmade⟩ := Option.map_eq_some_iff.1 hruns
  obtain ⟨q, outlined, callee, houtline, hcallee, hg⟩ := runOutlined_eq_some.1 hr
  exact ⟨q, outlined, callee, g, outcome, houtline, hcallee, hg, (Prod.mk.inj hmade).1,
    (Prod.mk.inj hmade).2⟩

theorem run_leaves_of_outline_markedProduct : ∃ q outlined callee refs g outcome,
    ((⟨[Tiling.markedProduct]⟩ : Program).outline "product" ⟨0⟩ "kernel" (some .selected)).outcome =
      .ok (.ok (q, outlined)) ∧ q.find? outlined.callee = some callee ∧
        callee.code.trace (Env.entry callee) = [.kernel .matmul refs] ∧
          (run columnPlan 5 callee).outcome = .ok (g, outcome) ∧ outcome.changes = 17 ∧
            g.code.Throughout Node.Fit (Env.entry g) ∧ ∀ m m₁ m' m₁' : Memory,
              (∀ c : Ref.Cell, c.1 ∈ callee.arguments → m' c = m c) → callee.Leaves m m₁ →
                g.Leaves m' m₁' → ∀ c : Ref.Cell, c.1 ∈ callee.arguments → m₁' c = m₁ c := by
  obtain ⟨hfound, o, types, extents, ho, hkind, htypes, hextents⟩ := op_markedProduct
  obtain ⟨q, outlined, callee, g, outcome, houtline, hcallee, hg, hchanges, -⟩ := outline_run_markedProduct
  obtain ⟨callee', refs, hcallee', -, -, htrace, hrun⟩ :=
    run_leaves_of_outline hfound ho hkind htypes hextents houtline 5
  obtain rfl := Option.some.inj (hcallee.symm.trans hcallee')
  exact ⟨q, outlined, callee, refs, g, outcome, houtline, hcallee, htrace, hg, hchanges, hrun.of_ok hg⟩

theorem run_raceFree_of_outline {p q : Program} {o : Operation} {caller hint : String} {marker : Option Stage}
    {outlined : Outlined} {types : List BufferType} {extents : List Int} (hf : p.find? caller = some f)
    (ho : f.op op = .ok o) (hkind : o.kind = .kernel plan.kind)
    (htypes : f.bufferTypes? o.operands = .ok (some types))
    (hextents : plan.kind.iterationExtents types = .ok (some extents))
    (houtline : (p.outline caller op hint marker).outcome = .ok (.ok (q, outlined))) (maxSweeps : Nat) :
    ∃ callee, q.find? outlined.callee = some callee ∧ Yields True (run plan maxSweeps callee).outcome fun r =>
      r.1.code.RaceFree (Env.entry r.1) := by
  obtain ⟨callee, -, hcallee, -, -, -, hrun⟩ :=
    run_improves_of_outline hf ho hkind htypes hextents houtline maxSweeps
  exact ⟨callee, hcallee, hrun.mono fun r _ himproves => himproves.sound.raceFree⟩

theorem run_raceFree_of_outline_markedProduct : ∃ q outlined callee g outcome,
    ((⟨[Tiling.markedProduct]⟩ : Program).outline "product" ⟨0⟩ "kernel" (some .selected)).outcome =
      .ok (.ok (q, outlined)) ∧ q.find? outlined.callee = some callee ∧
        (run columnPlan 5 callee).outcome = .ok (g, outcome) ∧
          (g.collect (·.kind.isParallel)).length = 2 ∧ g.code.RaceFree (Env.entry g) := by
  obtain ⟨hfound, o, types, extents, ho, hkind, htypes, hextents⟩ := op_markedProduct
  obtain ⟨q, outlined, callee, g, outcome, houtline, hcallee, hg, -, hparallel⟩ := outline_run_markedProduct
  obtain ⟨callee', hcallee', hrun⟩ := run_raceFree_of_outline hfound ho hkind htypes hextents houtline 5
  obtain rfl := Option.some.inj (hcallee.symm.trans hcallee')
  exact ⟨q, outlined, callee, g, outcome, houtline, hcallee, hg, hparallel, hrun.of_ok hg⟩

end Pipeline

end KernelLowering
