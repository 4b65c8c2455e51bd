import KernelLowering.Proofs.Convergence.Canonicalization

namespace KernelLowering

namespace Function

variable {f g : Function} {k : Spine} {b x z : Code} {hd h : Node}

/-- Every range runs more than once, no addition can be folded, and no constant supplies an offset. -/
structure Normal (f : Function) : Prop where
  ranges : ∀ h ∈ f.code.heads, ∀ r ∈ h.kind.loopRanges, ∃ n, r.tripCount = .ok n ∧ 1 < n
  additions : ∀ h ∈ f.code.heads, h.kind = .addIndex → ∃ lhs rhs rest m n,
    h.operands = lhs :: rhs :: rest ∧ f.constant? lhs = .ok m ∧ f.constant? rhs = .ok n ∧
      (m = none ∨ n = none) ∧ m ≠ some 0 ∧ n ≠ some 0
  offsets : ∀ h ∈ f.code.heads, h.kind.window?.isSome = true →
    ∀ v ∈ h.operands.tail, f.constant? v = .ok none

section Refused

variable {o : Operation} {reason : Declined} (hop : f.op h.op = .ok o)

include hop

theorem ranges_of_refused (hcheck : (TrivialLoops.check f h.op).Refuses reason) :
    ∀ r ∈ o.kind.loopRanges, ∃ n, r.tripCount = .ok n ∧ 1 < n := by
  simp only [TrivialLoops.check, Inspect.refuses_bind, Inspect.not_refuses_lift, Inspect.answers_lift,
    hop, Except.ok.injEq, exists_eq_left', false_or] at hcheck
  split at hcheck
  · next hempty =>
    rw [List.isEmpty_iff.1 hempty]
    simp
  · intro r hr
    rw [Inspect.refuses_bind] at hcheck
    rcases hcheck with hany | ⟨found, hfound, hcheck⟩
    · exact absurd hany (Inspect.not_refuses_anyM fun r _ => by simp)
    · cases found with
      | true => simp at hcheck
      | false =>
        have hone := Inspect.answers_anyM_false hfound r hr
        simp only [Inspect.answers_bind, Inspect.answers_lift, Inspect.answers_pure] at hone
        obtain ⟨n, hn, hone⟩ := hone
        exact ⟨n, hn, not_le.1 (of_decide_eq_false hone)⟩

theorem addition_of_refused (hcheck : (AdditionFolding.check f h.op).Refuses reason)
    (hkind : o.kind = .addIndex) : ∃ lhs rhs rest m n, o.operands = lhs :: rhs :: rest ∧
      f.constant? lhs = .ok m ∧ f.constant? rhs = .ok n ∧
        (m = none ∨ n = none) ∧ m ≠ some 0 ∧ n ≠ some 0 := by
  simp only [AdditionFolding.check, Inspect.refuses_bind, Inspect.not_refuses_lift,
    Inspect.answers_lift, hop, Except.ok.injEq, exists_eq_left', false_or, hkind, ne_eq,
    not_true_eq_false, if_false, Operation.operand, Fault.require_eq_ok] at hcheck
  obtain ⟨lhs, hl, m, hm, rhs, hr, n, hn, hcheck⟩ := hcheck
  obtain ⟨rest, hops⟩ := exists_cons_cons_of_getElem? hl hr
  refine ⟨lhs, rhs, rest, m, n, hops, hm, hn, ?_⟩
  split at hcheck
  · simp at hcheck
  · simp at hcheck
  · simp at hcheck
  · next hboth hl hr =>
    cases m with
    | none => exact ⟨.inl rfl, by simp, fun hzero => hr rfl hzero⟩
    | some m =>
      cases n with
      | none => exact ⟨.inr rfl, fun hzero => hl hzero rfl, by simp⟩
      | some n => exact (hboth m n rfl rfl).elim

theorem offsets_of_refused (hcheck : (OffsetFolding.check f h.op).Refuses reason)
    (hwindow : o.kind.window?.isSome = true) : ∀ v ∈ o.operands.tail, f.constant? v = .ok none := by
  obtain ⟨w, hw⟩ := Option.isSome_iff_exists.1 hwindow
  simp only [OffsetFolding.check, Operation.window, hw, Inspect.refuses_bind, Inspect.not_refuses_lift,
    Inspect.answers_lift, hop, Except.ok.injEq, exists_eq_left', false_or] at hcheck
  rcases hcheck with hwindow | ⟨-, -, supplied, hsupplied, hcheck⟩
  · simp [Inspect.orDecline] at hwindow
  rcases hcheck with hany | ⟨found, hfound, hcheck⟩
  · exact absurd hany (Inspect.not_refuses_anyM fun v _ => by simp)
  cases found with
  | true => simp at hcheck
  | false =>
    rw [Operation.tail_operands hsupplied]
    intro v hv
    have hnone := Inspect.answers_anyM_false hfound v hv
    simp only [Inspect.answers_bind, Inspect.answers_lift, Inspect.answers_pure] at hnone
    obtain ⟨n, hn, hnone⟩ := hnone
    rw [hn, Option.isNone_iff_eq_none.1 (Option.isSome_eq_false_iff.1 hnone)]

end Refused

theorem WellFormed.normal (hwf : f.WellFormed) (hrefused : ∀ op, f.isLive op = .ok true →
    ∀ rule ∈ Rule.canonicalization, ∃ reason, (rule.check f op).Refuses reason) : f.Normal := by
  have hop : ∀ h ∈ f.code.heads, ∃ parent region, f.op h.op = .ok (h.record parent region) := by
    intro h hh
    obtain ⟨parent, region, hop⟩ := Represents.exists_record hwf hh
    exact ⟨parent, region, op_eq_ok.2 hop⟩
  have hrefused : ∀ h ∈ f.code.heads, ∀ rule ∈ Rule.canonicalization,
      ∃ reason, (rule.check f h.op).Refuses reason := fun h hh =>
    hrefused h.op (Represents.isLive_eq hwf hh)
  refine ⟨fun h hh => ?_, fun h hh => ?_, fun h hh => ?_⟩ <;> obtain ⟨parent, region, hop⟩ := hop h hh
  · obtain ⟨reason, hcheck⟩ := hrefused h hh .trivialLoops (by simp [Rule.canonicalization])
    exact ranges_of_refused hop hcheck
  · obtain ⟨reason, hcheck⟩ := hrefused h hh .additionFolding (by simp [Rule.canonicalization])
    exact addition_of_refused hop hcheck
  · obtain ⟨reason, hcheck⟩ := hrefused h hh .offsetFolding (by simp [Rule.canonicalization])
    exact offsets_of_refused hop hcheck

theorem Sheds.reduces (hs : f.Sheds g k b x z hd) (hnested : f.code.Nested) :
    f.Reduces g k b hd x z id [] where
  replaces := hs.replaces
  nested := hs.nested hnested
  fixes _ _ := rfl
  renames _ _ := .inl rfl
  has _ hv := hs.same.grows.has hv
  takes _ hn := by cases hn
  canonical _ hn := by cases hn
  foldable _ := ⟨hs.same.grows.respectsBuffers, fun _ hn => by cases hn⟩

end Function

namespace Greedy

variable {f g : Function}

theorem keeps_forward (made : Prop) : Keeps (fun fault => made → fault = .overflow)
    (fun f => f.Forward ∧ (made → ∀ h ∈ f.code.heads, h.Foldable f)) Rule.canonicalization where
  wellFormed _ hP := hP.1.wellFormed
  sheds _ _ _ _ _ _ _ hP hs :=
    have hred := hs.reduces hP.1.nested
    ⟨hred.forward hP.1 hs.before, fun hmade => hred.foldable_heads hs.before (hP.2 hmade)⟩
  rule rule hrule f k b hd x z hP hr := by
    refine Inspect.endsWith_of_gives (fun hmade => ?_) fun g hg => ?_
    · exact Rule.gives_of_foldable hrule
        (hP.2 hmade hd (hr.code_eq ▸ Spine.mem_heads_at k b x z hd)) hr
    · obtain ⟨σ, new, hred⟩ := Rule.reduces_of_answers hrule hP.1 hr hg
      exact ⟨⟨hred.forward hP.1 hr, fun hmade => hred.foldable_heads hr (hP.2 hmade)⟩,
        hred.replaces.grows.ops⟩

theorem forward_of_sweep {s : Sweep} (hf : f.Forward)
    (h : (sweep Rule.canonicalization f).outcome = .ok s) : s.function.Forward :=
  (((keeps_forward False).sweep ⟨hf, False.elim⟩).of_ok h).1.1

theorem normal_of_run {maxSweeps : Nat} {outcome : Outcome} (hf : f.Forward)
    (h : (run Rule.canonicalization maxSweeps f).outcome = .ok (g, outcome))
    (hconverged : outcome.converged = true) : g.Normal := by
  obtain ⟨f', hf', hsweep⟩ := exists_sweep_of_run (I := Function.Forward) forward_of_sweep hf h hconverged
  have hwf := hf'.wellFormed
  obtain ⟨rfl, hvisit, -⟩ := unchanged_of_sweep (fun _ hop => hwf.isLive_iff_mem_walk.2 hop) hsweep
  exact hwf.normal fun op hop => (visit_unchanged hvisit).2 op (hwf.isLive_iff_mem_walk.1 hop) hop

theorem run_canonicalization {maxSweeps : Nat} (hwf : f.WellFormed) (hscoped : f.Scoped)
    (hnested : f.code.Nested) (hmax : 2 ≤ maxSweeps) :
    Ends (fun fault => (∀ h ∈ f.code.heads, h.Foldable f) → fault = .overflow)
      (run Rule.canonicalization maxSweeps f).outcome fun r =>
        r.2.converged = true ∧ r.2.sweeps ≤ 2 ∧ r.1.Normal := by
  have hf := hwf.forward hscoped hnested
  have hconverges := (keeps_forward (∀ h ∈ f.code.heads, h.Foldable f)).converges_canonicalization
    fun _ h => h.1
  refine (hconverges.run Nat.zero_lt_one (by omega) ⟨⟨hf, id⟩, by simp⟩).mono ?_
  rintro ⟨g, outcome⟩ hrun ⟨hconverged, hsweeps, -⟩
  exact ⟨hconverged, hsweeps, normal_of_run hf hrun hconverged⟩

def doubledOffset : Function where
  name := "doubled"
  ops := #[⟨.forLoop ⟨2, 3, 1, Int.one_pos⟩, [], none, none, [⟨1⟩, ⟨2⟩, ⟨3⟩], [⟨2⟩], none, true⟩,
    ⟨.addIndex, [⟨2⟩, ⟨2⟩], some ⟨3⟩, none, [], [], some ⟨0⟩, true⟩,
    ⟨.subView ⟨[.dynamic], [1], [1]⟩, [⟨0⟩, ⟨3⟩], some ⟨4⟩, none, [], [], some ⟨0⟩, true⟩,
    ⟨.copy, [⟨4⟩, ⟨1⟩], none, none, [], [], some ⟨0⟩, true⟩]
  values := #[⟨.buffer (.rowMajor [8] .float32 .global), .argument 0⟩,
    ⟨.buffer (.rowMajor [1] .float32 .global), .argument 1⟩, ⟨.index, .inductionVar ⟨0⟩ 0⟩,
    ⟨.index, .result ⟨1⟩⟩,
    ⟨.buffer ⟨[1], .float32, .strided none [1], .global⟩, .result ⟨2⟩⟩]
  arity := 2
  body := [⟨0⟩]

theorem run_canonicalization_doubledOffset : doubledOffset.WellFormed ∧ doubledOffset.Scoped ∧
    doubledOffset.code.Nested ∧ (∀ h ∈ doubledOffset.code.heads, h.Foldable doubledOffset) ∧
      ∃ g, (run Rule.canonicalization 2 doubledOffset).outcome = .ok (g, ⟨2, 3, true⟩) ∧
        g.walk.length = 2 ∧ g.Normal := by
  have hwf : doubledOffset.WellFormed := by decide +kernel
  have hscoped : doubledOffset.Scoped := by decide +kernel
  have hnested : doubledOffset.code.Nested := by decide +kernel
  have hfold : ∀ h ∈ doubledOffset.code.heads, h.Foldable doubledOffset := by decide +kernel
  have hok : (run Rule.canonicalization 2 doubledOffset).outcome.toOption.map
      (fun r => (r.2, r.1.walk.length)) = some (⟨2, 3, true⟩, 2) := by decide +kernel
  generalize doubledOffset = f at *
  obtain ⟨⟨g, outcome⟩, hrun, hout⟩ := Fault.toOption_map_eq_some.1 hok
  obtain ⟨rfl, hwalk⟩ := Prod.mk.inj hout
  exact ⟨hwf, hscoped, hnested, hfold, g, hrun, hwalk,
    ((run_canonicalization hwf hscoped hnested (Nat.le_refl 2)).of_ok hrun).2.2⟩

def bareSum : Function where
  name := "bare"
  ops := #[⟨.addIndex, [], none, none, [], [], none, true⟩]
  values := #[]
  arity := 0
  body := [⟨0⟩]

theorem run_canonicalization_faults_bareSum : bareSum.WellFormed ∧ bareSum.Scoped ∧
    bareSum.code.Nested ∧
      (run Rule.canonicalization 2 bareSum).outcome = .error .indexOutOfBounds :=
  ⟨by decide +kernel, by decide +kernel, by decide +kernel, rfl⟩

end Greedy

end KernelLowering
