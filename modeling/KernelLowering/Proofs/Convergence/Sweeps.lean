import KernelLowering.Proofs.Convergence.Replacements
import KernelLowering.Proofs.Greedy
import KernelLowering.Proofs.Inspection

namespace KernelLowering

variable {f g : Function} {rules : List Rule} {faults : Fault → Prop}

def Rule.Declines (rule : Rule) (f : Function) (op : OpId) : Prop := ¬ (rule.check f op).Answers ()

theorem Rule.declines_of_error {rule : Rule} {op : OpId} {reason : Declined}
    (h : (rule.apply f op).run = .ok (.error reason)) : rule.Declines f op := by
  intro hcheck
  have hrun : (rule.apply f op).run = Except.ok <$> rule.performAt f op := by
    show (ExceptT.bind (rule.check f op) _).run = _
    rw [ExceptT.bind, ExceptT.run, ExceptT.mk, show rule.check f op = .ok (.ok ()) from hcheck]
    rfl
  rw [hrun] at h
  obtain ⟨g, -, hg⟩ := Fault.map_eq_ok.1 h
  cases hg

theorem Rule.endsWith_false {rule : Rule} {op : OpId} {q : Function → Prop}
    (h : (rule.apply f op).EndsWith faults q) (hd : rule.Declines f op) :
    (rule.apply f op).EndsWith faults fun _ => False := by
  refine h.mono fun g hg _ => hd ?_
  rw [apply, Inspect.answers_bind] at hg
  obtain ⟨⟨⟩, hcheck, -⟩ := hg
  exact hcheck

namespace Greedy

structure Passed (f : Function) (done : List Node) (todo : List OpId) : Prop where
  split : ∃ rest, f.code.heads = done ++ rest ∧ (rest.map (·.op)).Sublist todo
  apart : ∀ h ∈ done, h.op ∉ todo
  nodup : todo.Nodup
  lt : ∀ op ∈ todo, op.index < f.ops.size

namespace Passed

variable {done : List Node} {todo : List OpId} {op : OpId} {k : Spine} {b x z : Code} {hd : Node}

theorem start (h : f.WellFormed) : Passed f [] f.walk := by
  rw [h.walk_eq]
  exact ⟨⟨f.code.heads, rfl, by rw [Code.ops_eq_map_heads]⟩, by simp, h.nodup, fun _ => h.index_lt⟩

theorem eq_heads (h : Passed f done []) : f.code.heads = done := by
  obtain ⟨rest, hsplit, hsub⟩ := h.split
  rw [hsplit, List.map_eq_nil_iff.1 (List.sublist_nil.1 hsub), List.append_nil]

theorem drop (h : Passed f done (op :: todo)) (hop : op ∉ f.code.ops) : Passed f done todo := by
  obtain ⟨rest, hsplit, hsub⟩ := h.split
  refine ⟨⟨rest, hsplit, ?_⟩, fun h' hh' ho => h.apart h' hh' (List.mem_cons_of_mem op ho),
    (List.nodup_cons.1 h.nodup).2, fun o ho => h.lt o (List.mem_cons_of_mem op ho)⟩
  rcases List.sublist_cons_iff.1 hsub with hsub | ⟨r, hr, -⟩
  · exact hsub
  · refine absurd ?_ hop
    rw [Code.ops_eq_map_heads, hsplit, List.map_append, hr]
    simp

theorem at_cursor (h : Passed f done (hd.op :: todo)) (hr : f.Represents (k.plug (b ++ .node hd x z))) :
    done = k.before b ∧ ((x.heads ++ k.behind z).map (·.op)).Sublist todo := by
  obtain ⟨rest, hsplit, hsub⟩ := h.split
  rw [hr.code_eq] at hsplit
  have hnodup : ((k.plug (b ++ .node hd x z)).heads.map (·.op)).Nodup := by
    rw [← Code.ops_eq_map_heads]
    exact hr.nodup
  have hmem : hd ∈ rest := by
    have hin := hsplit ▸ Spine.mem_heads_at k b x z hd
    exact (List.mem_append.1 hin).resolve_left fun hin => h.apart hd hin List.mem_cons_self
  rcases List.sublist_cons_iff.1 hsub with hsub | ⟨r, hrest, hr'⟩
  · exact absurd (hsub.mem (List.mem_map_of_mem hmem)) (List.nodup_cons.1 h.nodup).1
  obtain ⟨hd', rest', rfl, hop, rfl⟩ := List.map_eq_cons_iff.1 hrest
  have hin : hd' ∈ (k.plug (b ++ .node hd x z)).heads := by
    rw [hsplit]
    simp
  obtain rfl := hr.eq_of_op hin (Spine.mem_heads_at k b x z hd) hop
  rw [Spine.heads_at] at hsplit hnodup
  rw [List.map_append, List.nodup_append', List.map_cons, List.nodup_cons] at hnodup
  obtain ⟨-, ⟨hout, -⟩, hdis⟩ := hnodup
  have hbefore : hd' ∉ k.before b := fun hm =>
    hdis (List.mem_map_of_mem hm) List.mem_cons_self
  have hbehind : hd' ∉ x.heads ++ k.behind z := fun hm => hout (List.mem_map_of_mem hm)
  obtain ⟨hdone, -, hrest'⟩ := (List.append_cons_inj_of_notMem hbefore hbehind).1 hsplit
  exact ⟨hdone.symm, hrest' ▸ hr'⟩

theorem skip (h : Passed f done (hd.op :: todo)) (hr : f.Represents (k.plug (b ++ .node hd x z))) :
    Passed f (k.before b ++ [hd]) todo := by
  obtain ⟨rfl, hsub⟩ := h.at_cursor hr
  refine ⟨⟨x.heads ++ k.behind z, ?_, hsub⟩, ?_, (List.nodup_cons.1 h.nodup).2,
    fun o ho => h.lt o (List.mem_cons_of_mem _ ho)⟩
  · rw [hr.code_eq, Spine.heads_at, List.append_assoc]
    rfl
  · intro h' hh' ho
    rcases List.mem_append.1 hh' with hh' | hh'
    · exact h.apart h' hh' (List.mem_cons_of_mem _ ho)
    · rw [List.mem_singleton.1 hh'] at ho
      exact (List.nodup_cons.1 h.nodup).1 ho

theorem replaced {σ : ValueId → ValueId} {new : List Node} (h : Passed f done (hd.op :: todo))
    (hr : f.Represents (k.plug (b ++ .node hd x z))) (hg : f.Replaces g k b x z σ new) :
    Passed g ((k.before b).map (·.rename σ) ++ new) todo := by
  obtain ⟨rfl, hsub⟩ := h.at_cursor hr
  have hlt : ∀ o ∈ todo, o.index < f.ops.size := fun o ho => h.lt o (List.mem_cons_of_mem _ ho)
  obtain ⟨kept, hkept, hheads⟩ := hg.heads
  refine ⟨⟨_, hheads, ?_⟩, ?_, (List.nodup_cons.1 h.nodup).2,
    fun o ho => Nat.lt_of_lt_of_le (hlt o ho) hg.grows.ops⟩
  · rw [List.map_map]
    have hsublist : kept.Sublist x.heads := by
      rcases hkept with rfl | rfl
      · exact .refl _
      · exact List.nil_sublist _
    exact ((hsublist.append_right (k.behind z)).map _).trans hsub
  · intro h' hh' ho
    rcases List.mem_append.1 hh' with hh' | hh'
    · obtain ⟨h'', hh'', rfl⟩ := List.mem_map.1 hh'
      exact h.apart h'' hh'' (List.mem_cons_of_mem _ ho)
    · exact Nat.not_lt.2 (hg.ops h' hh') (hlt _ ho)

end Passed

theorem ends_applyFirst {op : OpId} {q : Function → Prop}
    (h : ∀ rule ∈ rules, (rule.apply f op).EndsWith faults q) :
    Ends faults (applyFirst f op rules).outcome fun r =>
      (r = none ∧ ∀ rule ∈ rules, rule.Declines f op) ∨ ∃ g, r = some g ∧ q g := by
  induction rules with
  | nil => exact .inl ⟨rfl, by simp⟩
  | cons rule rules ih =>
    rw [List.forall_mem_cons] at h
    simp only [applyFirst, Logged.outcome_bind, Logged.outcome_lift, Ends.bind_iff]
    refine Ends.mono h.1 fun r hr hq => ?_
    cases r with
    | ok g => exact .inr ⟨g, rfl, hq g rfl⟩
    | error reason =>
      simp only [Logged.outcome_bind, Logged.outcome_report, Fault.ok_bind]
      refine (ih h.2).mono ?_
      rintro r - (⟨hnone, hdecline⟩ | hg)
      · exact .inl ⟨hnone, List.forall_mem_cons.2 ⟨Rule.declines_of_error hr, hdecline⟩⟩
      · exact .inr hg

structure Settles (faults : Fault → Prop) (rules : List Rule) (Q : Function → List Node → Prop) :
    Prop where
  wellFormed : ∀ {f done}, Q f done → f.WellFormed
  change : ∀ {f k b hd x z}, f.Represents (Spine.plug k (b ++ .node hd x z)) → Q f (k.before b) →
    ∀ rule ∈ rules, (rule.apply f hd.op).EndsWith faults fun g => ∃ σ new,
      f.Replaces g k b x z σ new ∧ Q g ((k.before b).map (·.rename σ) ++ new)
  skip : ∀ {f k b hd x z}, f.Represents (Spine.plug k (b ++ .node hd x z)) → Q f (k.before b) →
    (∀ rule ∈ rules, rule.Declines f hd.op) → Q f (k.before b ++ [hd])

namespace Settles

variable {Q : Function → List Node → Prop} {done : List Node} {todo : List OpId}

theorem visit (h : Settles faults rules Q) (hQ : Q f done) (hp : Passed f done todo) :
    Ends faults (visit rules f todo).outcome fun r => Q r.1 r.1.code.heads := by
  induction todo generalizing f done with
  | nil =>
    have hheads := hp.eq_heads
    subst hheads
    exact hQ
  | cons op todo ih =>
    obtain ⟨live, hlive⟩ : ∃ live, f.isLive op = .ok live :=
      ⟨_, Fault.map_eq_ok.2 ⟨_, Function.op_eq_ok.2 (Array.getElem?_eq_getElem
        (hp.lt op List.mem_cons_self)), rfl⟩⟩
    rw [Greedy.visit, Logged.outcome_bind, Logged.outcome_lift, hlive, Fault.ok_bind]
    have hwf := h.wellFormed hQ
    cases live with
    | false =>
      refine ih hQ (hp.drop fun hop => ?_)
      rw [Code.ops_eq_map_heads] at hop
      obtain ⟨hd, hh, rfl⟩ := List.mem_map.1 hop
      cases hlive.symm.trans (hwf.isLive_eq hh)
    | true =>
      obtain ⟨k, b, hd, x, z, rfl, hc⟩ := hwf.exists_at hlive
      have hr : f.Represents (k.plug (b ++ .node hd x z)) := hc ▸ hwf
      obtain ⟨rfl, -⟩ := hp.at_cursor hr
      rw [if_pos rfl, Logged.outcome_bind, Ends.bind_iff]
      refine (ends_applyFirst (h.change hr hQ)).mono ?_
      rintro r - (⟨rfl, hdecline⟩ | ⟨g, rfl, σ, new, hg, hQ'⟩)
      · exact ih (h.skip hr hQ hdecline) (hp.skip hr)
      · rw [Logged.outcome_bind, Ends.bind_iff]
        exact (ih hQ' (hp.replaced hr hg)).mono fun _ _ hr' => hr'

theorem sweep {P : Function → Prop} (h : Settles faults rules Q) (hQ : Q f [])
    (hP : ∀ g, Q g g.code.heads → P g) (hwf : ∀ g, P g → g.WellFormed)
    (hsheds : ∀ f g k b x z hd, P f → Function.Sheds f g k b x z hd → P g) :
    Ends faults (sweep rules f).outcome fun s => P s.function ∧ s.function.deadOps = [] := by
  rw [Greedy.sweep, Logged.outcome_bind, Ends.bind_iff]
  refine (h.visit hQ (.start (h.wellFormed hQ))).mono fun r _ hr => ?_
  have hPr := hP _ hr
  obtain ⟨g, n, hg, hPg⟩ := Function.eraseDead_preserves hwf hsheds hPr
  obtain ⟨g', n', hg', hnone⟩ := Function.eraseDead_deadOps (hwf r.1 hPr)
  obtain ⟨rfl, rfl⟩ : g = g' ∧ n = n' := by simpa using hg.symm.trans hg'
  rw [Logged.outcome_bind, Logged.outcome_lift, hg, Fault.ok_bind]
  exact ⟨hPg, hnone⟩

end Settles

def Settled (faults : Fault → Prop) (rules : List Rule) (f : Function) : Prop :=
  ∀ op ∈ f.code.ops, ∀ rule ∈ rules, (rule.apply f op).EndsWith faults fun _ => False

namespace Settled

theorem visit (h : Settled faults rules f) (hwf : f.WellFormed) {ops : List OpId}
    (hops : ∀ op ∈ ops, op ∈ f.code.ops) :
    Ends faults (visit rules f ops).outcome fun r => r = (f, 0) := by
  induction ops with
  | nil => rfl
  | cons op ops ih =>
    rw [List.forall_mem_cons] at hops
    have hlive : f.isLive op = .ok true := by
      have hop := hops.1
      rw [Code.ops_eq_map_heads] at hop
      obtain ⟨hd, hh, rfl⟩ := List.mem_map.1 hop
      exact hwf.isLive_eq hh
    rw [Greedy.visit, Logged.outcome_bind, Logged.outcome_lift, hlive, Fault.ok_bind, if_pos rfl,
      Logged.outcome_bind, Ends.bind_iff]
    refine (ends_applyFirst (h op hops.1)).mono ?_
    rintro r - (⟨rfl, -⟩ | ⟨g, -, hfalse⟩)
    · exact ih hops.2
    · exact hfalse.elim

theorem of_declines (hwf : f.WellFormed) (hends : ∀ {k b hd x z},
      f.Represents (Spine.plug k (b ++ .node hd x z)) → ∀ rule ∈ rules,
        (rule.apply f hd.op).EndsWith faults fun _ => True)
    (hdeclines : ∀ h ∈ f.code.heads, ∀ rule ∈ rules, rule.Declines f h.op) :
    Settled faults rules f := by
  intro op hop rule hrule
  rw [Code.ops_eq_map_heads] at hop
  obtain ⟨h, hh, rfl⟩ := List.mem_map.1 hop
  obtain ⟨k, b, hd, x, z, he, hc⟩ := hwf.exists_at (hwf.isLive_eq hh)
  have hr : f.Represents (k.plug (b ++ .node hd x z)) := hc ▸ hwf
  exact Rule.endsWith_false (he ▸ hends hr rule hrule) (hdeclines h hh rule hrule)

theorem sweep (h : Settled faults rules f) (hwf : f.WellFormed) (hdead : f.deadOps = []) :
    Ends faults (sweep rules f).outcome fun s => s = ⟨f, 0, 0⟩ := by
  rw [Greedy.sweep, Logged.outcome_bind, Ends.bind_iff]
  refine (h.visit hwf fun op ho => hwf.walk_eq ▸ ho).mono ?_
  rintro _ - rfl
  have herase : f.eraseDead = .ok (f, 0) := by
    rw [Function.eraseDead, Function.eraseDeadRounds, hdead]
    rfl
  rw [Logged.outcome_bind, Logged.outcome_lift, herase]
  rfl

end Settled

structure Converges (faults : Fault → Prop) (rules : List Rule) (last : Nat)
    (P : Nat → Function → Prop) : Prop where
  sweep : ∀ n f, n < last → P n f → Ends faults (sweep rules f).outcome fun s =>
    P (n + 1) s.function ∧ s.function.deadOps = []
  wellFormed : ∀ f, P last f → f.WellFormed
  settled : ∀ f, P last f → Settled faults rules f

namespace Converges

variable {last n maxSweeps remaining : Nat} {P : Nat → Function → Prop}

theorem sweepUpTo (h : Converges faults rules last P) (outcome : Outcome) (hP : P n f)
    (hn : n ≤ last) (hdead : n = last → f.deadOps = []) (hlt : last < n + remaining) :
    Ends faults (sweepUpTo rules remaining outcome f).outcome fun r => r.2.converged = true ∧
      r.2.sweeps ≤ outcome.sweeps + (last - n) + 1 ∧ ∃ m, P m r.1 := by
  induction remaining generalizing f n outcome with
  | zero => omega
  | succ remaining ih =>
    rw [Greedy.sweepUpTo, Logged.outcome_bind, Ends.bind_iff]
    rcases Nat.lt_or_eq_of_le hn with hlast | rfl
    · refine (h.sweep n f hlast hP).mono ?_
      rintro s - ⟨hPs, hs⟩
      split
      · exact ⟨rfl, by dsimp only; omega, n + 1, hPs⟩
      · refine (ih _ hPs (by omega) (fun _ => hs) (by omega)).mono ?_
        rintro r - ⟨hconverged, hle, hm⟩
        dsimp only at hle
        exact ⟨hconverged, by omega, hm⟩
    · refine ((h.settled f hP).sweep (h.wellFormed f hP) (hdead rfl)).mono ?_
      rintro _ - rfl
      rw [if_pos ⟨rfl, rfl⟩]
      exact ⟨rfl, by dsimp only; omega, n, hP⟩

theorem run (h : Converges faults rules last P) (hlast : 0 < last) (hmax : last < maxSweeps)
    (hP : P 0 f) : Ends faults (run rules maxSweeps f).outcome fun r => r.2.converged = true ∧
      r.2.sweeps ≤ last + 1 ∧ ∃ n, P n r.1 := by
  rw [Greedy.run, Logged.outcome_bind, Ends.bind_iff]
  refine (h.sweepUpTo ⟨0, 0, false⟩ hP (Nat.zero_le _) (by omega) (by omega)).mono ?_
  rintro ⟨g, outcome⟩ - ⟨hconverged, hsweeps, hn⟩
  dsimp only at hconverged hsweeps hn ⊢
  rw [if_pos hconverged]
  exact ⟨hconverged, by simpa using hsweeps, hn⟩

end Converges

theorem Settles.converges {P : Function → Prop} {Q : Function → Node → Prop}
    (h : Settles faults rules fun f done => P f ∧ ∀ h ∈ done, Q f h)
    (hsheds : ∀ f g k b x z hd, P f → (∀ h ∈ f.code.heads, Q f h) → Function.Sheds f g k b x z hd →
      P g ∧ ∀ h ∈ g.code.heads, Q g h)
    (hends : ∀ {f k b hd x z}, P f → f.Represents (Spine.plug k (b ++ .node hd x z)) → ∀ rule ∈ rules,
      (rule.apply f hd.op).EndsWith faults fun _ => True)
    (hdeclines : ∀ f, P f → ∀ h ∈ f.code.heads, Q f h → ∀ rule ∈ rules, rule.Declines f h.op) :
    Converges faults rules 1 fun n f => P f ∧ (n = 1 → ∀ h ∈ f.code.heads, Q f h) where
  sweep n f _ hP := (h.sweep (P := fun f => P f ∧ ∀ h ∈ f.code.heads, Q f h) ⟨hP.1, by simp⟩
    (fun _ hg => hg) (fun _ hg => h.wellFormed ⟨hg.1, hg.2⟩)
    fun f g k b x z hd hf hs => hsheds f g k b x z hd hf.1 hf.2 hs).mono
      fun _ _ hs => ⟨⟨hs.1.1, fun _ => hs.1.2⟩, hs.2⟩
  wellFormed f hP := h.wellFormed ⟨hP.1, hP.2 rfl⟩
  settled f hP := .of_declines (h.wellFormed ⟨hP.1, hP.2 rfl⟩) (hends hP.1)
    fun h' hh' => hdeclines f hP.1 h' hh' (hP.2 rfl h' hh')

end Greedy

end KernelLowering
