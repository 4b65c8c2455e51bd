import KernelLowering.Proofs.Arena.Markers
import KernelLowering.Proofs.Convergence.Pipeline
import KernelLowering.Proofs.Lifetime.Emission
import KernelLowering.Proofs.Lifetime.Reallocation

namespace KernelLowering

variable {f : Function} {k : Spine} {b x z c : Code} {hd h : Node} {hs : List Node} {op : OpId}
  {u v : ValueId}

section Markers

theorem Shows.of_unmarked (h : Shows (hs.map (·.unmarked op)) v u) : Shows hs v u := by
  induction h with
  | self => exact .self
  | view hh hkind hu hres _ ih =>
    obtain ⟨h, hmem, rfl⟩ := List.mem_map.1 hh
    exact .view hmem (by simpa using hkind) (by simpa using hu) (by simpa using hres) ih

theorem Node.Touches.of_unmarked (ht : (h.unmarked op).Touches (hs.map (·.unmarked op)) v) :
    h.Touches hs v := by
  obtain ⟨u, hu, hshows⟩ := ht
  exact ⟨u, by simpa using hu, hshows.of_unmarked⟩

theorem Code.Balanced.unmarked (h : c.Balanced) (op : OpId) : (c.unmarked op).Balanced where
  freed a ha halloc := by
    rw [Code.heads_unmarked] at ha
    obtain ⟨a, hmem, rfl⟩ := List.mem_map.1 ha
    obtain ⟨v, t, k, b, m, z, d, hres, hkind, hops, hc, huses⟩ := h.freed a hmem (by simpa using halloc)
    refine ⟨v, t, k.unmarked op, b.unmarked op, m.unmarked op, z.unmarked op, d.unmarked op,
      by simpa using hres, by simpa using hkind, by simpa using hops, ?_, fun user huser ht => ?_⟩
    · rw [hc, Spine.unmarked_plug]
      simp [Code.unmarked]
    · rw [Code.heads_unmarked] at huser ht
      obtain ⟨user, hmem', rfl⟩ := List.mem_map.1 huser
      rcases huses user hmem' ht.of_unmarked with rfl | ⟨hin, hfree⟩
      · exact .inl rfl
      · exact .inr ⟨by rw [Code.heads_unmarked]; exact List.mem_map_of_mem hin, by simpa using hfree⟩
  owned d hd' hkind := by
    rw [Code.heads_unmarked] at hd' ⊢
    obtain ⟨d, hmem, rfl⟩ := List.mem_map.1 hd'
    obtain ⟨a, ha, halloc, v, t, hres, hops⟩ := h.owned d hmem (by simpa using hkind)
    exact ⟨a.unmarked op, List.mem_map_of_mem ha, by simpa using halloc, v, t, by simpa using hres,
      by simpa using hops⟩

end Markers

namespace Greedy

theorem gives_careful {rule : Rule} (hrule : rule ∈ Rule.viewCleanup) (h : f.Careful)
    (hr : f.Represents (k.plug (b ++ .node hd x z))) (hclean : ∀ h ∈ k.before b, h.Clean f.code.heads) :
    (rule.apply f hd.op).Gives True fun g => g.Sorted ∧ g.code.InOrder ∧ g.TendsBuffers := by
  simp only [Rule.viewCleanup, List.mem_cons, List.not_mem_nil, or_false] at hrule
  rcases hrule with rfl | rfl
  · exact Reallocation.gives_careful h hr
  · exact (ViewFolding.gives_careful h hr hclean).mono fun g hg hgives =>
      ⟨(ViewFolding.gives_sorted hr h.sorted).of_answers hg, hgives⟩

theorem settles_careful : Settles (· = .overflow) Rule.viewCleanup fun f done =>
    f.Careful ∧ ∀ h ∈ done, h.Clean f.code.heads where
  wellFormed h := h.1.cleanable.built.wellFormed
  change := by
    rintro f k b hd x z hr ⟨hf, hclean⟩ rule hrule
    refine (settles_viewCleanup.change hr ⟨hf.cleanable, hclean⟩ rule hrule).mono ?_
    rintro g hg ⟨σ, new, hreplaces, hcleanable, hclean'⟩
    obtain ⟨hs, ho, ht⟩ := (gives_careful hrule hf hr hclean).of_answers hg
    exact ⟨σ, new, hreplaces, ⟨hcleanable, hs, ho, ht⟩, hclean'⟩
  skip := by
    rintro f k b hd x z hr ⟨hf, hclean⟩ hdeclines
    exact ⟨hf, (settles_viewCleanup.skip hr ⟨hf.cleanable, hclean⟩ hdeclines).2⟩

theorem run_careful (maxSweeps : Nat) (hf : f.Careful) (hdead : f.deadOps = []) :
    Yields True (run Rule.viewCleanup maxSweeps f).outcome fun r => r.1.Careful ∧ r.1.deadOps = [] :=
  ends_overflow.1 <| run_of_sweep (P := Function.Careful) (Q := fun g => g.Careful ∧ g.deadOps = [])
    (fun _ hf => settles_careful.sweep ⟨hf, by simp⟩ (fun _ h => h.1)
      (fun _ h => h.cleanable.built.wellFormed) fun _ _ _ _ _ _ _ h hs => h.shed hs)
    (fun _ h hd => ⟨h, hd⟩) maxSweeps hf ⟨hf, hdead⟩

end Greedy

theorem Outline.tends_callee {o : Operation} {name : String} {marker : Option Stage} {r : OpId × Function}
    {kind : KernelKind} (h : callee f o name marker = .ok r) (hkind : o.kind = .kernel kind) :
    r.2.TendsBuffers ∧ r.2.deadOps = [] := by
  obtain ⟨-, -, -, inner, op, hinner, -, -, -, hcode⟩ := represents_callee h
  have hkinds : ∀ n ∈ r.2.code.heads, n.kind = .kernel kind ∨ n.kind = .ret := by
    simp [hcode, Code.heads, hinner, hkind, Node.effect]
  refine ⟨.of_plain fun n hn => ?_, List.filter_eq_nil_iff.2 fun op hop => ?_⟩
  · rcases hkinds n hn with hk | hk <;> simp [hk]
  · have hwf : r.2.Represents r.2.code := callee_wellFormed h
    rw [hwf.walk_eq, Code.ops_eq_map_heads] at hop
    obtain ⟨n, hn, rfl⟩ := List.mem_map.1 hop
    obtain ⟨parent, region, hrecord⟩ := hwf.exists_record hn
    rcases hkinds n hn with hk | hk <;> simp [hrecord, Node.record, hk, OpKind.isPure]

namespace Pipeline

variable {plan : KernelPlan} {maxSweeps : Nat}

theorem yields_balanced (plan : KernelPlan) (maxSweeps : Nat) (hf : f.Orderly) (ht : f.TendsBuffers)
    (hdead : f.deadOps = []) : Yields True (run plan maxSweeps f).outcome fun r =>
      r.1.WellFormed ∧ r.1.code.Balanced := by
  have hround : ∀ (round : Round) (g : Function), Greedy.Keeps (· = .overflow)
      (fun f => f.Orderly ∧ f.TendsBuffers) (rules plan round) →
        (g.Orderly ∧ g.TendsBuffers) ∧ g.deadOps = [] →
        Yields True (runRound plan maxSweeps g round).outcome fun r =>
          (r.1.Orderly ∧ r.1.TendsBuffers) ∧ r.1.deadOps = [] := fun _ _ hkeeps hg =>
    yields_runRound (ends_overflow.1 (hkeeps.run_settles
      (Q := fun g => (g.Orderly ∧ g.TendsBuffers) ∧ g.deadOps = []) (fun _ h hd => ⟨h, hd⟩) maxSweeps hg.1 hg))
  simp only [run, Logged.outcome_bind, Yields.bind_iff]
  refine (hround .tile f plan.keeps_tended ⟨⟨hf, ht⟩, hdead⟩).mono fun tiled _ htiled => ?_
  refine (hround .canonicalize _ Greedy.keeps_tended htiled).mono fun canonical _ hcanonical => ?_
  obtain ⟨⟨horderly, htended⟩, hlive⟩ := hcanonical
  have hcleanup : Yields True (runRound plan maxSweeps canonical.1 .foldViews).outcome fun r =>
      r.1.Careful ∧ r.1.deadOps = [] :=
    yields_runRound (Greedy.run_careful maxSweeps (horderly.careful htended) hlive)
  refine hcleanup.mono fun folded _ hfolded => ?_
  obtain ⟨hcareful, hlive⟩ := hfolded
  have hwf := hcareful.cleanable.built.wellFormed
  refine stripMarkers_induction (P := fun g => g.WellFormed ∧ g.code.Balanced) (fun g op hg => ?_)
    ⟨hwf, hcareful.tended.balanced hwf hcareful.sorted hcareful.cleanable.built.nested hcareful.inOrder hlive⟩
  have hstripped := hg.1.stripMarker op
  exact ⟨hstripped.wellFormed, hstripped.code_eq ▸ hg.2.unmarked op⟩

theorem run_balanced_of_outline {p q : Program} {o : Operation} {caller hint : String}
    {marker : Option Stage} {outlined : Outlined} (hf : p.find? caller = some f) (ho : f.op op = .ok o)
    (hkind : o.kind = .kernel plan.kind)
    (houtline : (p.outline caller op hint marker).outcome = .ok (.ok (q, outlined))) (maxSweeps : Nat) :
    ∃ callee, q.find? outlined.callee = some callee ∧ Yields True (run plan maxSweeps callee).outcome fun r =>
      r.1.WellFormed ∧ r.1.code.Balanced := by
  obtain ⟨inner, callee, hcallee, hfound⟩ := Program.exists_callee_of_outline hf ho houtline
  obtain ⟨ht, hdead⟩ := Outline.tends_callee hcallee hkind
  exact ⟨callee, hfound, yields_balanced plan maxSweeps (Outline.orderly_callee hcallee hkind) ht hdead⟩

theorem run_balanced_of_outline_markedProduct : ∃ q outlined callee g outcome,
    ((⟨[Tiling.markedProduct]⟩ : Program).outline "product" ⟨0⟩ "kernel" (some .selected)).outcome =
      .ok (.ok (q, outlined)) ∧ q.find? outlined.callee = some callee ∧
        (run rowPlan 5 callee).outcome = .ok (g, outcome) ∧
          (g.collect (·.kind = .alloc)).length = 4 ∧ g.WellFormed ∧ g.code.Balanced := by
  have hfound : (⟨[Tiling.markedProduct]⟩ : Program).find? "product" = some Tiling.markedProduct := by
    decide +kernel
  have hop : ∃ o, Tiling.markedProduct.op ⟨0⟩ = .ok o ∧ o.kind = .kernel rowPlan.kind := ⟨_, rfl, rfl⟩
  have hruns := runOutlined_rowPlan
  -- The run is not to be unfolded again: from here on the function is any that these hold of.
  generalize Tiling.markedProduct = f at *
  obtain ⟨⟨g, outcome⟩, hr, hmade⟩ := Option.map_eq_some_iff.1 hruns
  obtain ⟨q, outlined, callee, houtline, hcallee, hg⟩ := runOutlined_eq_some.1 hr
  obtain ⟨o, ho, hkind⟩ := hop
  obtain ⟨callee', hcallee', hrun⟩ := run_balanced_of_outline hfound ho hkind houtline 5
  obtain rfl := Option.some.inj (hcallee.symm.trans hcallee')
  exact ⟨q, outlined, callee, g, outcome, houtline, hcallee, hg, (Prod.mk.inj hmade).2, hrun.of_ok hg⟩

end Pipeline

end KernelLowering
