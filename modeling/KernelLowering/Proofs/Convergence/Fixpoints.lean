import KernelLowering.Proofs.Convergence.Sweeps
import KernelLowering.Proofs.Integrity.Skeleton

namespace KernelLowering

variable {f g : Function} {rules : List Rule} {op : OpId}

theorem Rule.run_check_of_error {rule : Rule} {reason : Declined}
    (h : (rule.apply f op).run = .ok (.error reason)) :
    (rule.check f op).run = .ok (.error reason) := by
  have hrun : (rule.apply f op).run = (rule.check f op).run >>= fun r =>
      match r with
      | .ok () => Except.ok <$> rule.performAt f op
      | .error reason => .ok (.error reason) := by
    show (ExceptT.bind (rule.check f op) _).run = _
    rw [ExceptT.bind, ExceptT.run, ExceptT.mk]
    congr 1
    funext r
    rcases r with reason | ⟨⟨⟩⟩ <;> rfl
  rw [hrun] at h
  obtain ⟨r, hcheck, hr⟩ := Fault.bind_eq_ok.1 h
  rcases r with reason' | ⟨⟨⟩⟩
  · cases hr
    exact hcheck
  · obtain ⟨g, -, hg⟩ := Fault.map_eq_ok.1 hr
    cases hg

namespace Function

section Erasing

variable {I : Function → Prop} (hI : ∀ {f g op}, I f → f.erase op = .ok g → I g)

include hI

theorem eraseLive_keeps {ops : List OpId} {n : Nat} (hf : I f) (h : f.eraseLive ops = .ok (g, n)) :
    I g := by
  induction ops generalizing f n with
  | nil =>
    cases h
    exact hf
  | cons op ops ih =>
    obtain ⟨live, -, hrest⟩ := Fault.bind_eq_ok.1 h
    cases live with
    | false => exact ih hf hrest
    | true =>
      obtain ⟨f₁, herase, hrest⟩ := Fault.bind_eq_ok.1 hrest
      obtain ⟨⟨f₂, count⟩, hmore, hpair⟩ := Fault.bind_eq_ok.1 hrest
      cases hpair
      exact ih (hI hf herase) hmore

theorem eraseDeadRounds_keeps {rounds n : Nat} (hf : I f)
    (h : f.eraseDeadRounds rounds = .ok (g, n)) : I g := by
  induction rounds generalizing f n with
  | zero =>
    cases h
    exact hf
  | succ rounds ih =>
    rw [eraseDeadRounds] at h
    split at h
    · cases h
      exact hf
    · obtain ⟨⟨f₁, count⟩, hround, hrest⟩ := Fault.bind_eq_ok.1 h
      obtain ⟨⟨f₂, more⟩, hmore, hpair⟩ := Fault.bind_eq_ok.1 hrest
      cases hpair
      exact ih (eraseLive_keeps hI hf hround) hmore

end Erasing

theorem deadOps_of_eraseDead (hwalk : ∀ op ∈ f.walk, f.isLive op = .ok true)
    (h : f.eraseDead = .ok (g, 0)) : f.deadOps = [] ∧ g = f := by
  rw [eraseDead, eraseDeadRounds] at h
  cases hdead : f.deadOps with
  | nil =>
    rw [hdead] at h
    cases h
    exact ⟨rfl, rfl⟩
  | cons op ops =>
    rw [hdead] at h
    obtain ⟨⟨f₁, count⟩, hround, hrest⟩ := Fault.bind_eq_ok.1 h
    obtain ⟨⟨f₂, more⟩, -, hpair⟩ := Fault.bind_eq_ok.1 hrest
    have hlive : f.isLive op = .ok true :=
      hwalk op (List.mem_filter.1 (show op ∈ f.deadOps from hdead ▸ List.mem_cons_self)).1
    rw [eraseLive, hlive, Fault.ok_bind, if_pos rfl] at hround
    obtain ⟨f₃, -, hround⟩ := Fault.bind_eq_ok.1 hround
    obtain ⟨⟨f₄, n⟩, -, hround⟩ := Fault.bind_eq_ok.1 hround
    cases hround
    simp only [pure, Except.pure, Except.ok.injEq, Prod.mk.injEq] at hpair
    omega

theorem hasUses_of_deadOps {o : Operation} (hdead : f.deadOps = []) (hop : op ∈ f.walk)
    (ho : f.op? op = some o) (hpure : o.kind.isPure = true) :
    ∃ r, o.result = some r ∧ f.hasUses r = true := by
  have hkept := List.filter_eq_nil_iff.1 hdead op hop
  simpa [ho, hpure, hasUses, Option.all_eq_false] using hkept

end Function

namespace Greedy

theorem applyFirst_eq_none (h : (applyFirst f op rules).outcome = .ok none) :
    ∀ rule ∈ rules, ∃ reason, (rule.check f op).run = .ok (.error reason) := by
  induction rules with
  | nil => simp
  | cons rule rules ih =>
    rw [applyFirst, Logged.outcome_bind, Logged.outcome_lift] at h
    obtain ⟨r, hr, hrest⟩ := Fault.bind_eq_ok.1 h
    cases r with
    | ok g => simp at hrest
    | error reason =>
      rw [Logged.outcome_bind, Logged.outcome_report, Fault.ok_bind] at hrest
      exact List.forall_mem_cons.2 ⟨⟨reason, Rule.run_check_of_error hr⟩, ih hrest⟩

theorem applyFirst_eq_some (h : (applyFirst f op rules).outcome = .ok (some g)) :
    ∃ rule ∈ rules, (rule.apply f op).Answers g := by
  induction rules with
  | nil => simp [applyFirst] at h
  | cons rule rules ih =>
    rw [applyFirst, Logged.outcome_bind, Logged.outcome_lift] at h
    obtain ⟨r, hr, hrest⟩ := Fault.bind_eq_ok.1 h
    cases r with
    | ok g' =>
      simp only [Logged.outcome_bind, Logged.outcome_report, Fault.ok_bind, Logged.outcome_pure,
        Except.ok.injEq, Option.some.injEq] at hrest
      exact ⟨rule, List.mem_cons_self, hrest ▸ hr⟩
    | error reason =>
      rw [Logged.outcome_bind, Logged.outcome_report, Fault.ok_bind] at hrest
      obtain ⟨rule', hmem, hrule⟩ := ih hrest
      exact ⟨rule', List.mem_cons_of_mem _ hmem, hrule⟩

theorem visit_keeps {I : Function → Prop} {ops : List OpId} {n : Nat}
    (hI : ∀ {rule : Rule} {f g op}, I f → f.isLive op = .ok true → (rule.apply f op).Answers g → I g)
    (hf : I f) (h : (visit rules f ops).outcome = .ok (g, n)) : I g := by
  induction ops generalizing f n with
  | nil =>
    cases h
    exact hf
  | cons op ops ih =>
    rw [visit, Logged.outcome_bind, Logged.outcome_lift] at h
    obtain ⟨live, hlive, hrest⟩ := Fault.bind_eq_ok.1 h
    cases live with
    | false => exact ih hf hrest
    | true =>
      rw [if_pos rfl, Logged.outcome_bind] at hrest
      obtain ⟨r, hr, hrest⟩ := Fault.bind_eq_ok.1 hrest
      cases r with
      | none => exact ih hf hrest
      | some f₁ =>
        rw [Logged.outcome_bind] at hrest
        obtain ⟨⟨f₂, m⟩, hmore, hpair⟩ := Fault.bind_eq_ok.1 hrest
        cases hpair
        obtain ⟨rule, -, happly⟩ := applyFirst_eq_some hr
        exact ih (hI hf hlive happly) hmore

theorem visit_unchanged {ops : List OpId} (h : (visit rules f ops).outcome = .ok (g, 0)) :
    g = f ∧ ∀ op ∈ ops, f.isLive op = .ok true →
      ∀ rule ∈ rules, ∃ reason, (rule.check f op).run = .ok (.error reason) := by
  induction ops with
  | nil =>
    cases h
    exact ⟨rfl, by simp⟩
  | cons op ops ih =>
    rw [visit, Logged.outcome_bind, Logged.outcome_lift] at h
    obtain ⟨live, hlive, hrest⟩ := Fault.bind_eq_ok.1 h
    cases live with
    | false =>
      obtain ⟨hg, hops⟩ := ih hrest
      refine ⟨hg, List.forall_mem_cons.2 ⟨fun hl => ?_, hops⟩⟩
      rw [hlive] at hl
      cases hl
    | true =>
      rw [if_pos rfl, Logged.outcome_bind] at hrest
      obtain ⟨r, hr, hrest⟩ := Fault.bind_eq_ok.1 hrest
      cases r with
      | none =>
        obtain ⟨hg, hops⟩ := ih hrest
        exact ⟨hg, List.forall_mem_cons.2 ⟨fun _ => applyFirst_eq_none hr, hops⟩⟩
      | some f₁ =>
        rw [Logged.outcome_bind] at hrest
        obtain ⟨⟨f₂, m⟩, -, hpair⟩ := Fault.bind_eq_ok.1 hrest
        cases hpair

theorem sweep_keeps_skeleton {s : Sweep} (hf : f.skeleton.Intact)
    (h : (sweep rules f).outcome = .ok s) : s.function.skeleton.Intact := by
  rw [sweep, Logged.outcome_bind] at h
  obtain ⟨⟨f₁, n⟩, hvisit, hrest⟩ := Fault.bind_eq_ok.1 h
  rw [Logged.outcome_bind, Logged.outcome_lift] at hrest
  obtain ⟨⟨f₂, m⟩, herase, hpair⟩ := Fault.bind_eq_ok.1 hrest
  cases hpair
  exact Function.eraseDeadRounds_keeps (I := fun g => g.skeleton.Intact)
    (fun hI hg => hI.erase (Function.erase_skeleton hg))
    (visit_keeps (I := fun g => g.skeleton.Intact) Rule.intact_skeleton_of_answers hf hvisit) herase

structure Idle (rules : List Rule) (f : Function) : Prop where
  skeleton : f.skeleton.Intact
  visit : (visit rules f f.walk).outcome = .ok (f, 0)
  eraseDead : f.eraseDead = .ok (f, 0)

theorem unchanged_of_sweep (hwalk : ∀ op ∈ f.walk, f.isLive op = .ok true)
    (h : (sweep rules f).outcome = .ok ⟨g, 0, 0⟩) :
    g = f ∧ (visit rules f f.walk).outcome = .ok (f, 0) ∧ f.eraseDead = .ok (f, 0) := by
  rw [sweep, Logged.outcome_bind] at h
  obtain ⟨⟨f₁, n⟩, hvisit, hrest⟩ := Fault.bind_eq_ok.1 h
  rw [Logged.outcome_bind, Logged.outcome_lift] at hrest
  obtain ⟨⟨f₂, m⟩, herase, hpair⟩ := Fault.bind_eq_ok.1 hrest
  cases hpair
  obtain ⟨rfl, -⟩ := visit_unchanged hvisit
  obtain ⟨-, rfl⟩ := Function.deadOps_of_eraseDead hwalk herase
  exact ⟨rfl, hvisit, herase⟩

namespace Converges

variable {faults : Fault → Prop} {last n maxSweeps remaining : Nat} {P : Nat → Function → Prop}
  (h : Converges faults rules last P) (hwf : ∀ n f, P n f → f.WellFormed)

include h hwf

theorem of_unchanged {s : Sweep} (hP : P n f) (hn : n ≤ last)
    (hsweep : (Greedy.sweep rules f).outcome = .ok s) (hchanges : s.changes = 0) (herased : s.erased = 0) :
    P last s.function := by
  obtain ⟨g, changes, erased⟩ := s
  subst hchanges herased
  obtain ⟨rfl, -⟩ := unchanged_of_sweep (fun op hop => (hwf n f hP).isLive_iff_mem_walk.2 hop) hsweep
  induction hn using Nat.decreasingInduction with
  | self => exact hP
  | of_succ m hm ih => exact ih ((h.sweep m _ hm hP).of_ok hsweep).1

theorem sweepUpTo_last (outcome : Outcome) (hP : P n f) (hn : n ≤ last)
    (hdead : n = last → f.deadOps = []) (hle : last ≤ n + remaining) :
    Ends faults (Greedy.sweepUpTo rules remaining outcome f).outcome fun r => P last r.1 := by
  induction remaining generalizing f n outcome with
  | zero =>
    obtain rfl : n = last := by omega
    exact hP
  | succ remaining ih =>
    rw [Greedy.sweepUpTo, Logged.outcome_bind, Ends.bind_iff]
    rcases Nat.lt_or_eq_of_le hn with hlast | rfl
    · refine (h.sweep n f hlast hP).mono fun s hsweep hs => ?_
      split
      · next hnone => exact h.of_unchanged hwf hP hn hsweep hnone.1 hnone.2
      · exact ih _ hs.1 hlast (fun _ => hs.2) (by omega)
    · refine ((h.settled f hP).sweep (h.wellFormed f hP) (hdead rfl)).mono ?_
      rintro _ - rfl
      exact hP

theorem run_last (hlast : 0 < last) (hmax : last ≤ maxSweeps) (hP : P 0 f) :
    Ends faults (Greedy.run rules maxSweeps f).outcome fun r => P last r.1 := by
  rw [Greedy.run, Logged.outcome_bind, Ends.bind_iff]
  refine (h.sweepUpTo_last hwf _ hP (Nat.zero_le _) (by omega) (by omega)).mono ?_
  rintro ⟨g, outcome⟩ - hg
  dsimp only
  split <;> exact hg

end Converges

section LastSweep

variable {I : Function → Prop} {n : Nat} {outcome outcome' : Outcome}
  (hI : ∀ {f s}, I f → (sweep rules f).outcome = .ok s → I s.function)

include hI

theorem exists_sweep_of_sweepUpTo (hf : I f) (hstart : outcome.converged = false)
    (h : (sweepUpTo rules n outcome f).outcome = .ok (g, outcome'))
    (hconverged : outcome'.converged = true) :
    ∃ f', I f' ∧ (sweep rules f').outcome = .ok ⟨g, 0, 0⟩ := by
  induction n generalizing f outcome with
  | zero =>
    cases h
    rw [hstart] at hconverged
    cases hconverged
  | succ n ih =>
    rw [sweepUpTo, Logged.outcome_bind] at h
    obtain ⟨⟨f₁, changes, erased⟩, hsweep, hrest⟩ := Fault.bind_eq_ok.1 h
    dsimp only at hrest
    split at hrest
    · next hnone =>
      obtain ⟨rfl, rfl⟩ := hnone
      cases hrest
      exact ⟨f, hf, hsweep⟩
    · exact ih (hI hf hsweep) rfl hrest

theorem exists_sweep_of_run (hf : I f) (h : (run rules n f).outcome = .ok (g, outcome))
    (hconverged : outcome.converged = true) :
    ∃ f', I f' ∧ (sweep rules f').outcome = .ok ⟨g, 0, 0⟩ := by
  rw [run, Logged.outcome_bind] at h
  obtain ⟨⟨f₁, outcome'⟩, hsweeps, hrest⟩ := Fault.bind_eq_ok.1 h
  have hpair : (f₁, outcome') = (g, outcome) := by
    dsimp only at hrest
    split at hrest <;>
      simpa only [Logged.outcome_bind, Logged.outcome_report, Fault.ok_bind, Logged.outcome_pure,
        Except.ok.injEq] using hrest
  cases hpair
  exact exists_sweep_of_sweepUpTo hI hf rfl hsweeps hconverged

end LastSweep

theorem idle_of_run {n : Nat} {outcome : Outcome} (hf : f.skeleton.Intact)
    (h : (run rules n f).outcome = .ok (g, outcome)) (hconverged : outcome.converged = true) :
    Idle rules g := by
  obtain ⟨f', hf', hsweep⟩ := exists_sweep_of_run (I := fun f => f.skeleton.Intact)
    sweep_keeps_skeleton hf h hconverged
  obtain ⟨rfl, hvisit, herase⟩ :=
    unchanged_of_sweep (fun op hop => (Function.isLive_iff_mem_walk hf').2 hop) hsweep
  exact ⟨hf', hvisit, herase⟩

namespace Idle

theorem declines (h : Idle rules f) (hop : f.isLive op = .ok true) :
    ∀ rule ∈ rules, ∃ reason, (rule.check f op).run = .ok (.error reason) :=
  (visit_unchanged h.visit).2 op ((Function.isLive_iff_mem_walk h.skeleton).1 hop) hop

theorem deadOps (h : Idle rules f) : f.deadOps = [] :=
  (Function.deadOps_of_eraseDead
    (fun _ hop => (Function.isLive_iff_mem_walk h.skeleton).2 hop) h.eraseDead).1

theorem run (h : Idle rules f) {n : Nat} (hn : 0 < n) :
    (Greedy.run rules n f).outcome = .ok (f, ⟨1, 0, true⟩) := by
  have hsweep : (sweep rules f).outcome = .ok ⟨f, 0, 0⟩ := by
    rw [sweep, Logged.outcome_bind, h.visit, Fault.ok_bind, Logged.outcome_bind,
      Logged.outcome_lift, h.eraseDead]
    rfl
  obtain ⟨n, rfl⟩ : ∃ m, n = m + 1 := ⟨n - 1, by omega⟩
  have hsweeps : (sweepUpTo rules (n + 1) ⟨0, 0, false⟩ f).outcome = .ok (f, ⟨1, 0, true⟩) := by
    rw [sweepUpTo, Logged.outcome_bind, hsweep]
    rfl
  rw [Greedy.run, Logged.outcome_bind, hsweeps]
  rfl

end Idle

theorem run_converged_fixpoint {maxSweeps : Nat} {outcome : Outcome} (hf : f.Housed)
    (hrun : (run rules maxSweeps f).outcome = .ok (g, outcome)) (hconverged : outcome.converged = true) :
    (∀ op, g.isLive op = .ok true →
      ∀ rule ∈ rules, ∃ reason, (rule.check g op).run = .ok (.error reason)) ∧
    (∀ op o, g.op? op = some o → o.live = true → o.kind.isPure = true →
      ∃ r, o.result = some r ∧ g.hasUses r = true) ∧
    ∀ n, 0 < n → (run rules n g).outcome = .ok (g, ⟨1, 0, true⟩) := by
  have hidle := idle_of_run hf.intact_skeleton hrun hconverged
  refine ⟨fun op hop => hidle.declines hop, fun op o ho hlive hpure => ?_, fun n hn => hidle.run hn⟩
  have hop : op ∈ g.walk :=
    (Function.isLive_iff_mem_walk hidle.skeleton).1 (Function.isLive_eq_ok.2 ⟨o, ho, hlive⟩)
  exact Function.hasUses_of_deadOps hidle.deadOps hop ho hpure

def freedOnce : Function where
  name := "freed"
  ops := #[⟨.alloc, [], some ⟨0⟩, none, [], [], none, true⟩,
    ⟨.forLoop ⟨0, 1, 1, Int.one_pos⟩, [], none, none, [⟨2⟩], [⟨1⟩], none, true⟩,
    ⟨.dealloc, [⟨0⟩], none, none, [], [], some ⟨1⟩, true⟩]
  values := #[⟨.buffer (.rowMajor [4] .float32 .l1), .result ⟨0⟩⟩, ⟨.index, .inductionVar ⟨1⟩ 0⟩]
  arity := 0
  body := [⟨0⟩, ⟨1⟩]

theorem run_converged_fixpoint_freedOnce : freedOnce.Housed ∧ ∃ g,
    (run Rule.canonicalization 10 freedOnce).outcome = .ok (g, ⟨2, 1, true⟩) ∧
      g.walk = [⟨0⟩, ⟨2⟩] ∧ (run Rule.canonicalization 1 g).outcome = .ok (g, ⟨1, 0, true⟩) := by
  have hok : (run Rule.canonicalization 10 freedOnce).outcome.toOption.map
      (fun r => (r.2, r.1.walk)) = some (⟨2, 1, true⟩, [⟨0⟩, ⟨2⟩]) := by decide +kernel
  have hwf : freedOnce.WellFormed := by decide +kernel
  have hnested : freedOnce.Housed := hwf.housed (by simp [freedOnce, Operation.Clear])
  generalize freedOnce = f at *
  obtain ⟨⟨g, outcome⟩, hrun, hout⟩ := Fault.toOption_map_eq_some.1 hok
  obtain ⟨rfl, hwalk⟩ := Prod.mk.inj hout
  exact ⟨hnested, g, hrun, hwalk,
    (run_converged_fixpoint hnested hrun rfl).2.2 1 Nat.one_pos⟩

variable {faults : Fault → Prop} {P : Function → Prop} {measure : Function → Nat}

structure Counts (faults : Fault → Prop) (P : Nat → Function → Prop) (rules : List Rule) : Prop where
  wellFormed : ∀ n f, P n f → f.WellFormed
  sheds : ∀ n f g k b x z hd, P n f → Function.Sheds f g k b x z hd → P n g
  rule : ∀ {n f k b hd x z}, P n f → f.Represents (Spine.plug k (b ++ .node hd x z)) → ∀ rule ∈ rules,
    (rule.apply f hd.op).EndsWith faults fun g => P (n + 1) g ∧ f.ops.size ≤ g.ops.size

namespace Counts

variable {P : Nat → Function → Prop} {n : Nat} (h : Counts faults P rules)

include h

theorem visit {ops : List OpId} (hP : P n f) (hops : ∀ op ∈ ops, op.index < f.ops.size) :
    Ends faults (visit rules f ops).outcome fun r => P (n + r.2) r.1 := by
  induction ops generalizing f n with
  | nil => exact hP
  | cons op ops ih =>
    rw [List.forall_mem_cons] at hops
    obtain ⟨live, hlive⟩ : ∃ live, f.isLive op = .ok live :=
      ⟨_, Fault.map_eq_ok.2 ⟨_, Function.op_eq_ok.2 (Array.getElem?_eq_getElem hops.1), rfl⟩⟩
    rw [Greedy.visit, Logged.outcome_bind, Logged.outcome_lift, hlive, Fault.ok_bind]
    cases live with
    | false => exact ih hP hops.2
    | true =>
      obtain ⟨k, b, hd, x, z, rfl, hc⟩ := (h.wellFormed n f hP).exists_at hlive
      have hr : f.Represents (k.plug (b ++ .node hd x z)) := hc ▸ h.wellFormed n f hP
      rw [if_pos rfl, Logged.outcome_bind, Ends.bind_iff]
      refine (ends_applyFirst (h.rule hP hr)).mono ?_
      rintro r - (⟨rfl, -⟩ | ⟨g, rfl, hPg, hsize⟩)
      · exact ih hP hops.2
      · rw [Logged.outcome_bind, Ends.bind_iff]
        refine (ih hPg fun op ho => Nat.lt_of_lt_of_le (hops.2 op ho) hsize).mono ?_
        rintro r - hPr
        rwa [Nat.add_assoc, Nat.add_comm 1] at hPr

theorem sweep (hP : P n f) : Ends faults (sweep rules f).outcome fun s =>
    P (n + s.changes) s.function ∧ s.function.deadOps = [] ∧
      (f.deadOps = [] → s.changes = 0 → s.erased = 0) := by
  have hwf := h.wellFormed n f hP
  rw [Greedy.sweep, Logged.outcome_bind, Ends.bind_iff]
  refine (h.visit hP fun op ho => hwf.index_lt (hwf.walk_eq ▸ ho)).mono ?_
  rintro ⟨g, changes⟩ hvisit hPg
  obtain ⟨g', erased, hg', hPg'⟩ := Function.eraseDead_preserves (h.wellFormed _) (h.sheds _) hPg
  obtain ⟨g'', erased', hg'', hnone⟩ := Function.eraseDead_deadOps (h.wellFormed _ g hPg)
  obtain ⟨rfl, rfl⟩ : g' = g'' ∧ erased = erased' := by simpa using hg'.symm.trans hg''
  rw [Logged.outcome_bind, Logged.outcome_lift, hg', Fault.ok_bind]
  refine ⟨hPg', hnone, fun hdead hzero => ?_⟩
  obtain rfl : changes = 0 := hzero
  obtain ⟨rfl, -⟩ := visit_unchanged hvisit
  rw [Function.eraseDead, Function.eraseDeadRounds, hdead] at hg'
  cases hg'
  rfl

theorem sweepUpTo (remaining : Nat) (outcome : Outcome) (hP : P outcome.changes f) :
    Ends faults (sweepUpTo rules remaining outcome f).outcome fun r => P r.2.changes r.1 := by
  induction remaining generalizing f outcome with
  | zero => exact hP
  | succ remaining ih =>
    rw [Greedy.sweepUpTo, Logged.outcome_bind, Ends.bind_iff]
    refine (h.sweep hP).mono ?_
    rintro s - ⟨hPs, -⟩
    dsimp only
    split
    · exact hPs
    · exact ih _ hPs

theorem run (maxSweeps : Nat) (hP : P 0 f) :
    Ends faults (run rules maxSweeps f).outcome fun r => P r.2.changes r.1 := by
  rw [Greedy.run, Logged.outcome_bind, Ends.bind_iff]
  refine (h.sweepUpTo maxSweeps ⟨0, 0, false⟩ hP).mono ?_
  rintro ⟨g, outcome⟩ - hPg
  dsimp only
  split <;> exact hPg

end Counts

structure Lowers (faults : Fault → Prop) (P : Function → Prop) (measure : Function → Nat)
    (rules : List Rule) : Prop where
  wellFormed : ∀ f, P f → f.WellFormed
  sheds : ∀ f g k b x z hd, P f → Function.Sheds f g k b x z hd → P g ∧ measure g ≤ measure f
  rule : ∀ {f k b hd x z}, P f → f.Represents (Spine.plug k (b ++ .node hd x z)) → ∀ rule ∈ rules,
    (rule.apply f hd.op).EndsWith faults fun g =>
      (P g ∧ f.ops.size ≤ g.ops.size) ∧ measure g < measure f

namespace Lowers

variable (h : Lowers faults P measure rules)

include h

theorem counts (bound : Nat) : Counts faults (fun n f => P f ∧ n + measure f ≤ bound) rules where
  wellFormed _ f hP := h.wellFormed f hP.1
  sheds n f g k b x z hd hP hs := by
    obtain ⟨hPg, hle⟩ := h.sheds f g k b x z hd hP.1 hs
    exact ⟨hPg, (Nat.add_le_add_left hle n).trans hP.2⟩
  rule hP hr rule hrule := (h.rule hP.1 hr rule hrule).mono fun g _ hg => by
    have hle := hP.2
    exact ⟨⟨hg.1.1, by omega⟩, hg.1.2⟩

theorem sweepUpTo (remaining : Nat) (outcome : Outcome) (hP : P f) :
    Ends faults (sweepUpTo rules remaining outcome f).outcome fun r =>
      r.2.changes + measure r.1 ≤ outcome.changes + measure f ∧
        (measure f + 2 ≤ remaining ∨ f.deadOps = [] ∧ measure f + 1 ≤ remaining →
          r.2.converged = true) := by
  induction remaining generalizing f outcome with
  | zero => exact ⟨le_rfl, by omega⟩
  | succ remaining ih =>
    rw [Greedy.sweepUpTo, Logged.outcome_bind, Ends.bind_iff]
    refine ((h.counts (measure f)).sweep ⟨hP, (Nat.zero_add _).le⟩).mono ?_
    rintro s - ⟨⟨hPs, hle⟩, hnone, hidle⟩
    dsimp only
    split
    · exact ⟨by dsimp only; omega, fun _ => rfl⟩
    · next hbusy =>
      refine (ih _ hPs).mono ?_
      rintro r - ⟨hchanges, hconverged⟩
      dsimp only at hchanges
      refine ⟨by omega, fun hmax => hconverged (.inr ⟨hnone, ?_⟩)⟩
      rcases hmax with hmax | ⟨hdead, hmax⟩
      · omega
      · have : s.changes ≠ 0 := fun hzero => hbusy ⟨hzero, hidle hdead hzero⟩
        omega

theorem run (maxSweeps : Nat) (hP : P f) : Ends faults (run rules maxSweeps f).outcome fun r =>
    r.2.changes ≤ measure f ∧ (measure f + 2 ≤ maxSweeps → r.2.converged = true) := by
  rw [Greedy.run, Logged.outcome_bind, Ends.bind_iff]
  refine (h.sweepUpTo maxSweeps ⟨0, 0, false⟩ hP).mono ?_
  rintro ⟨g, outcome⟩ - ⟨hchanges, hconverged⟩
  dsimp only at hchanges hconverged ⊢
  have hresult : outcome.changes ≤ measure f ∧ (measure f + 2 ≤ maxSweeps → outcome.converged = true) :=
    ⟨by omega, fun hmax => hconverged (.inl hmax)⟩
  split <;> exact hresult

end Lowers

end Greedy

end KernelLowering
