import KernelLowering.Proofs.Arena.DeadCode
import KernelLowering.Rule.Greedy

namespace KernelLowering

variable {faults : Fault → Prop} {P : Function → Prop}

def Rule.Keeps (faults : Fault → Prop) (P : Function → Prop) (rule : Rule) : Prop :=
  ∀ {f k b hd x z}, P f → f.Represents (Spine.plug k (b ++ .node hd x z)) →
    Ends faults (rule.apply f hd.op).run fun r =>
      ∀ g, r = .ok g → P g ∧ f.ops.size ≤ g.ops.size

structure Greedy.Keeps (faults : Fault → Prop) (P : Function → Prop) (rules : List Rule) : Prop where
  wellFormed : ∀ f, P f → f.WellFormed
  sheds : ∀ f g k b x z hd, P f → Function.Sheds f g k b x z hd → P g
  rule : ∀ rule ∈ rules, rule.Keeps faults P

namespace Greedy.Keeps

variable {f : Function} {rules : List Rule}

theorem applyFirst {k : Spine} {b x z : Code} {hd : Node} (h : Keeps faults P rules) (hP : P f)
    (hr : f.Represents (k.plug (b ++ .node hd x z))) :
    Ends faults (applyFirst f hd.op rules).outcome fun r =>
      ∀ g, r = some g → P g ∧ f.ops.size ≤ g.ops.size := by
  obtain ⟨hwf, hsheds, hrules⟩ := h
  induction rules with
  | nil => simp [Greedy.applyFirst]
  | cons rule rules ih =>
    rw [List.forall_mem_cons] at hrules
    simp only [Greedy.applyFirst, Logged.outcome_bind, Logged.outcome_lift, Ends.bind_iff]
    refine (hrules.1 hP hr).mono fun r _ hg => ?_
    cases r with
    | ok g => simpa using hg g rfl
    | error reason => simpa using ih hrules.2

theorem visit (h : Keeps faults P rules) {ops : List OpId} (hP : P f)
    (hops : ∀ op ∈ ops, op.index < f.ops.size) :
    Ends faults (visit rules f ops).outcome fun r => P r.1 := by
  induction ops generalizing f with
  | nil => exact hP
  | cons op ops ih =>
    rw [List.forall_mem_cons] at hops
    obtain ⟨live, hlive⟩ : ∃ live, f.isLive op = .ok live :=
      ⟨_, Fault.map_eq_ok.2 ⟨_, Function.op_eq_ok.2 (Array.getElem?_eq_getElem hops.1), rfl⟩⟩
    rw [Greedy.visit, Logged.outcome_bind, Logged.outcome_lift, hlive, Fault.ok_bind]
    cases live with
    | false => exact ih hP hops.2
    | true =>
      obtain ⟨k, b, hd, x, z, rfl, hc⟩ := (h.wellFormed f hP).exists_at hlive
      have hr : f.Represents (k.plug (b ++ .node hd x z)) := hc ▸ h.wellFormed f hP
      rw [if_pos rfl, Logged.outcome_bind, Ends.bind_iff]
      refine (h.applyFirst hP hr).mono fun r _ hg => ?_
      cases r with
      | none => exact ih hP hops.2
      | some g =>
        obtain ⟨hPg, hsize⟩ := hg g rfl
        rw [Logged.outcome_bind, Ends.bind_iff]
        exact (ih hPg fun op ho => Nat.lt_of_lt_of_le (hops.2 op ho) hsize).mono fun r _ hr => hr

theorem sweep (h : Keeps faults P rules) (hP : P f) :
    Ends faults (sweep rules f).outcome fun s => P s.function ∧ s.function.deadOps = [] := by
  have hwf := h.wellFormed f hP
  rw [Greedy.sweep, Logged.outcome_bind, Ends.bind_iff]
  refine (h.visit hP fun op ho => hwf.index_lt (hwf.walk_eq ▸ ho)).mono fun r _ hr => ?_
  obtain ⟨g, n, hg, hPg⟩ := Function.eraseDead_preserves h.wellFormed h.sheds hr
  obtain ⟨g', n', hg', hnone⟩ := Function.eraseDead_deadOps (h.wellFormed r.1 hr)
  obtain ⟨rfl, rfl⟩ : g = g' ∧ n = n' := by simpa using hg.symm.trans hg'
  rw [Logged.outcome_bind, Logged.outcome_lift, hg, Fault.ok_bind]
  exact ⟨hPg, hnone⟩

end Greedy.Keeps

namespace Greedy

variable {Q : Function → Prop} {f : Function} {rules : List Rule}

theorem sweepUpTo_of_sweep (hsweep : ∀ f, P f → Ends faults (sweep rules f).outcome fun s =>
      P s.function ∧ s.function.deadOps = [])
    (hQ : ∀ g, P g → g.deadOps = [] → Q g) (remaining : Nat) (outcome : Outcome) (hP : P f) (hf : Q f) :
    Ends faults (sweepUpTo rules remaining outcome f).outcome fun r => Q r.1 := by
  induction remaining generalizing f outcome with
  | zero => exact hf
  | succ remaining ih =>
    rw [sweepUpTo, Logged.outcome_bind, Ends.bind_iff]
    refine (hsweep f hP).mono fun s _ hs => ?_
    split
    · exact hQ _ hs.1 hs.2
    · exact ih _ hs.1 (hQ _ hs.1 hs.2)

theorem run_of_sweep (hsweep : ∀ f, P f → Ends faults (sweep rules f).outcome fun s =>
      P s.function ∧ s.function.deadOps = [])
    (hQ : ∀ g, P g → g.deadOps = [] → Q g) (maxSweeps : Nat) (hP : P f) (hf : Q f) :
    Ends faults (run rules maxSweeps f).outcome fun r => Q r.1 := by
  rw [run, Logged.outcome_bind, Ends.bind_iff]
  refine (sweepUpTo_of_sweep hsweep hQ maxSweeps _ hP hf).mono fun r _ hr => ?_
  obtain ⟨g, outcome⟩ := r
  dsimp only
  split <;> exact hr

theorem Keeps.run_settles (h : Keeps faults P rules) (hQ : ∀ g, P g → g.deadOps = [] → Q g)
    (maxSweeps : Nat) (hP : P f) (hf : Q f) :
    Ends faults (run rules maxSweeps f).outcome fun r => Q r.1 :=
  run_of_sweep (fun _ hP => h.sweep hP) hQ maxSweeps hP hf

theorem Keeps.run (h : Keeps faults P rules) (maxSweeps : Nat) (hP : P f) :
    Ends faults (run rules maxSweeps f).outcome fun r => P r.1 :=
  h.run_settles (fun _ hg _ => hg) maxSweeps hP hP

end Greedy

end KernelLowering
