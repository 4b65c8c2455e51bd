import KernelLowering.Proofs.Callees
import KernelLowering.Proofs.Convergence.Canonicalization
import KernelLowering.Proofs.Convergence.Staging
import KernelLowering.Proofs.Convergence.Views

namespace KernelLowering

theorem Outline.orderly_callee {f : Function} {o : Operation} {name : String} {marker : Option Stage}
    {r : OpId × Function} {kind : KernelKind} (h : callee f o name marker = .ok r)
    (hkind : o.kind = .kernel kind) : r.2.Orderly := by
  obtain ⟨-, -, -, inner, op, hinner, hops, hres, -, hcode⟩ := represents_callee h
  rw [hkind] at hinner
  have hheads : r.2.code.heads = [inner, .effect op .ret [] none] := by
    rw [hcode]
    rfl
  refine ⟨⟨callee_wellFormed h, ?_⟩, ?_, ⟨fun _ => 0, ?_⟩, ?_⟩
  · rw [hcode]
    refine .leaf (fun v hv => hops ▸ hv) (fun _ => hres) ?_
    rw [hres]
    exact .effect (by simp) .nil
  · rw [Function.Sorted, hheads]
    simp [Node.Sorted, hinner, hres, OpKind.sorts?, Node.effect]
  · rw [hheads]
    refine List.forall_mem_cons.2 ⟨⟨fun hw => ?_, fun _ _ _ _ _ => Nat.zero_le _⟩,
      List.forall_mem_singleton.2 (.of_other rfl rfl)⟩
    simp [hinner, OpKind.window?] at hw
  · rw [hheads]
    simp [hinner, Node.effect]

namespace Pipeline

variable {plan : KernelPlan} {maxSweeps : Nat} {f : Function}

/-- The rounds, each on what the one before has left, converge within so many sweeps, or overflow. -/
def Converges (plan : KernelPlan) (maxSweeps : Nat) : List (Round × Nat) → Function → Prop
  | [], _ => True
  | (round, sweeps) :: rounds, f => Yields True (runRound plan maxSweeps f round).outcome fun r =>
      r.2.converged = true ∧ r.2.sweeps ≤ sweeps ∧ Converges plan maxSweeps rounds r.1

theorem yields_runRound {round : Round} {q : Function × Greedy.Outcome → Prop}
    (h : Yields True (Greedy.run (rules plan round) maxSweeps f).outcome q) :
    Yields True (runRound plan maxSweeps f round).outcome q := by
  rw [runRound, Logged.outcome_bind, Yields.bind_iff]
  exact h.mono fun r _ hr => hr

theorem converges_of_orderly (plan : KernelPlan) (hf : f.Orderly) (hmax : 5 ≤ maxSweeps) :
    Converges plan maxSweeps
      [(.tile, plan.stageRules.length + 1), (.canonicalize, 2), (.foldViews, 2)] f := by
  have hle := Step.length_table_le plan.kind plan.promoteMid
  refine yields_runRound ((ends_overflow.1 ((KernelPlan.Staged.converges plan).run
    (Step.length_table_pos _ _) (Nat.lt_of_le_of_lt hle hmax) ⟨hf, by simp⟩)).mono ?_)
  rintro ⟨g, tile⟩ - ⟨htile, hsweeps, n, hg⟩
  refine ⟨htile, by simpa [KernelPlan.stageRules] using hsweeps, ?_⟩
  have hcanonical := Greedy.keeps_orderly.converges_canonicalization fun _ h => h.tidy.forward
  refine yields_runRound ((ends_overflow.1 (hcanonical.run Nat.zero_lt_one (by omega)
    ⟨hg.orderly, by simp⟩)).mono ?_)
  rintro ⟨g, canonicalize⟩ - ⟨hcanonicalize, hsweeps, n, hg, -⟩
  refine ⟨hcanonicalize, hsweeps, ?_⟩
  refine yields_runRound ((ends_overflow.1 (Greedy.converges_viewCleanup.run Nat.zero_lt_one
    (by omega) ⟨hg.cleanable, by simp⟩)).mono ?_)
  rintro ⟨g, foldViews⟩ - ⟨hfoldViews, hsweeps, -⟩
  exact ⟨hfoldViews, hsweeps, trivial⟩

theorem Converges.run {t c v : Nat}
    (h : Converges plan maxSweeps [(.tile, t), (.canonicalize, c), (.foldViews, v)] f) :
    Yields True (run plan maxSweeps f).outcome fun r => r.2.converged = true := by
  simp only [Pipeline.run, Logged.outcome_bind, Yields.bind_iff]
  refine h.mono ?_
  rintro tile - ⟨htile, -, h⟩
  refine h.mono ?_
  rintro canonicalize - ⟨hcanonicalize, -, h⟩
  refine h.mono ?_
  rintro foldViews - ⟨hfoldViews, -⟩
  simp [htile, hcanonicalize, hfoldViews]

theorem converges_of_outline {p q : Program} {o : Operation} {caller hint : String} {op : OpId}
    {marker : Option Stage} {outlined : Outlined} (hf : p.find? caller = some f) (ho : f.op op = .ok o)
    (hkind : o.kind = .kernel plan.kind)
    (houtline : (p.outline caller op hint marker).outcome = .ok (.ok (q, outlined)))
    (hmax : 5 ≤ maxSweeps) : ∃ callee, q.find? outlined.callee = some callee ∧
      Converges plan maxSweeps
        [(.tile, plan.stageRules.length + 1), (.canonicalize, 2), (.foldViews, 2)] callee ∧
      Yields True (run plan maxSweeps callee).outcome fun r => r.2.converged = true := by
  obtain ⟨inner, callee, hcallee, hfound⟩ := Program.exists_callee_of_outline hf ho houtline
  have hconverges := converges_of_orderly plan (Outline.orderly_callee hcallee hkind) hmax
  exact ⟨callee, hfound, hconverges, hconverges.run⟩

theorem converges_of_outline_markedProduct : ∃ q outlined callee g outcome,
    ((⟨[Tiling.markedProduct]⟩ : Program).outline "product" ⟨0⟩ "kernel" (some .selected)).outcome =
      .ok (.ok (q, outlined)) ∧ q.find? outlined.callee = some callee ∧
        (run rowPlan 5 callee).outcome = .ok (g, outcome) ∧ outcome.changes = 12 ∧
          outcome.converged = true := by
  have hfound : (⟨[Tiling.markedProduct]⟩ : Program).find? "product" = some Tiling.markedProduct := by
    decide +kernel
  have hop : ∃ o, Tiling.markedProduct.op ⟨0⟩ = .ok o ∧ o.kind = .kernel rowPlan.kind := ⟨_, rfl, rfl⟩
  have hruns := runOutlined_rowPlan
  -- The run is not to be unfolded again: from here on the function is any that these hold of.
  generalize Tiling.markedProduct = f at *
  obtain ⟨⟨g, outcome⟩, hr, hmade⟩ := Option.map_eq_some_iff.1 hruns
  obtain ⟨q, outlined, callee, houtline, hcallee, hg⟩ := runOutlined_eq_some.1 hr
  obtain ⟨o, ho, hkind⟩ := hop
  obtain ⟨callee', hcallee', -, hrun⟩ := converges_of_outline hfound ho hkind houtline le_rfl
  obtain rfl := Option.some.inj (hcallee.symm.trans hcallee')
  exact ⟨q, outlined, callee, g, outcome, houtline, hcallee, hg, (Prod.mk.inj hmade).1, hrun.of_ok hg⟩

end Pipeline

end KernelLowering
