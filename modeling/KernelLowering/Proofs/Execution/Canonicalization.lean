import KernelLowering.Proofs.Execution.TrivialLoops
import KernelLowering.Proofs.Execution.Values
import KernelLowering.Proofs.Greedy

namespace KernelLowering

variable {f g : Function} {k : Spine} {b x z : Code} {hd : Node}

theorem Function.Sheds.realizes (h : f.Sheds g k b x z hd) : f.Realizes g := by
  have hmem := Spine.mem_heads_at k b x z hd
  have hiter : hd.kind.iterations = [] := by
    have hpure := h.pure
    cases hk : hd.kind <;> simp_all [OpKind.isPure, OpKind.iterations, OpKind.isLoop]
  have hacts : hd.kind.acts = false := by
    have hpure := h.pure
    cases hk : hd.kind <;> simp_all [OpKind.isPure, OpKind.acts]
  have hrep := h.after
  rw [← Spine.rename_id k, ← Code.rename_id b, ← Code.rename_id z] at hrep
  refine ⟨h.after.wellFormed, h.same.grows, h.before.follows_splice (σ := id) (y := .nil)
    (fun v => v ∉ hd.defined) (fun v => v ∈ hd.defined) hrep h.same.arity ?_ ?_
      ⟨fun v hv => ?_, ?_⟩⟩
  · exact fun h' hh v hv hd' => h.unused v hd' h' (Spine.mem_heads_around hh hd x) hv
  · refine fun v hv => ⟨rfl, fun hm => ?_⟩
    rcases hv with hv | hv
    · exact h.before.not_argument (List.mem_flatMap.2 ⟨hd, hmem, hm⟩) hv
    · exact h.before.not_around hm hv
  · have hnone : hd.allocations v = 0 := by
      refine if_neg fun ha => hv ?_
      rw [Node.defined, ha.2]
      simp
    simp [Code.allocations, hnone, hiter]
  · intro turns turns' data data' hfresh hfresh' hlinks hturns hholds
    refine ⟨?_, ?_, h.before.honours_settle hmem turns hholds⟩
    · simp [Code.effects, Node.effects, hacts, hiter]
    · intro v d hkept hv
      exact hlinks v d hkept ((hd.settle_of_not_mem turns data hkept).symm.trans hv)

namespace TrivialLoops

theorem isLoop_of_answers (hr : f.Represents (k.plug (b ++ .node hd x z)))
    (h : (check f hd.op).Answers ()) : hd.kind.isLoop = true := by
  rw [check, Inspect.answers_bind] at h
  obtain ⟨o, ho, h⟩ := h
  rw [Inspect.answers_lift, hr.record_at, Except.ok.injEq] at ho
  subst ho
  by_contra hloop
  have hranges : hd.kind.loopRanges = [] := by
    cases hk : hd.kind <;> simp_all [OpKind.isLoop, OpKind.loopRanges]
  simp [Node.record, hranges] at h

theorem vars_of_trimmed {ρ : ValueId → ValueId} {y : Code}
    (hr : f.Represents (k.plug (b ++ .node hd x z))) (ht : Trimmed f hd x ρ y) {v : ValueId}
    (hv : v ∉ hd.inductionVars) : ρ v = v := by
  have hsnd := (pairs_of_represents hr).2
  cases ht with
  | never => rfl
  | once hdrops hnew =>
    refine replaced_of_not_mem fun hm => hv (hsnd ▸ hdrops.vars.mem_iff.1 ?_)
    exact List.mem_append_left _ hm
  | loop op hdrops hloop hranges hlen hnew =>
    refine replaced_of_not_mem fun hm => hv (hsnd ▸ hdrops.vars.mem_iff.1 ?_)
    rwa [List.map_append, List.map_fst_zip (by simp [hlen])] at hm

theorem realizes (hr : f.Represents (k.plug (b ++ .node hd x z)))
    (hcheck : (Rule.trivialLoops.check f hd.op).Answers ())
    (hg : Rule.trivialLoops.performAt f hd.op = .ok g) : f.Realizes g := by
  obtain ⟨ρ, y, ht, hrep, hgrows⟩ := (yields_perform hr).of_ok hg
  refine ⟨hrep.wellFormed, hgrows, hr.follows_splice (fun _ => True) (fun _ => False)
    hrep hgrows.arity (fun _ _ _ _ => trivial) (fun v hv => ⟨?_, id⟩)
      (simulates hr hrep (isLoop_of_answers hr hcheck) ht)⟩
  refine vars_of_trimmed hr ht fun hm => ?_
  have hdef : v ∈ hd.defined := List.mem_append_right _ hm
  rcases hv with hv | hv
  · exact hr.not_argument (List.mem_flatMap.2 ⟨hd, Spine.mem_heads_at k b x z hd, hdef⟩) hv
  · exact hr.not_around hdef hv

end TrivialLoops

theorem Rule.realizes {rule : Rule} (hrule : rule ∈ Rule.canonicalization)
    (hr : f.Represents (k.plug (b ++ .node hd x z))) (hg : (rule.apply f hd.op).Answers g) :
    f.Realizes g := by
  rw [Rule.apply, Inspect.answers_bind] at hg
  obtain ⟨⟨⟩, hcheck, hg⟩ := hg
  rw [Inspect.answers_lift] at hg
  simp only [Rule.canonicalization, List.mem_cons, List.not_mem_nil, or_false] at hrule
  rcases hrule with rfl | rfl | rfl
  · exact TrivialLoops.realizes hr hcheck hg
  · exact AdditionFolding.realizes hr hcheck hg
  · exact OffsetFolding.realizes hr hg

end KernelLowering
