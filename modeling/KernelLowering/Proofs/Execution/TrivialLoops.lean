import KernelLowering.Proofs.Execution.Splices
import KernelLowering.Proofs.Folding.Loops

namespace KernelLowering

namespace Data

theorem of_setAll {data : Data} {vs : List ValueId} {is : List Int} {u : ValueId} {d : Datum}
    (h : data.setAll vs is u = some d) : data u = some d ∨ ∃ i, (u, i) ∈ vs.zip is ∧ d = .index i := by
  induction vs generalizing data is with
  | nil => exact .inl h
  | cons v vs ih =>
    cases is with
    | nil => exact .inl h
    | cons i is =>
      rcases ih h with hset | ⟨j, hj, rfl⟩
      · by_cases huv : u = v
        · subst u
          rw [set_self, Option.some.injEq] at hset
          exact .inr ⟨i, List.mem_cons_self, hset.symm⟩
        · exact .inl ((data.set_of_ne _ huv).symm.trans hset)
      · exact .inr ⟨j, List.mem_cons_of_mem _ hj, rfl⟩

theorem setAll_of_mem {data : Data} {vs : List ValueId} {is : List Int} {u : ValueId} {i : Int}
    (hnd : vs.Nodup) (h : (u, i) ∈ vs.zip is) : data.setAll vs is u = some (.index i) := by
  induction vs generalizing data is with
  | nil => cases h
  | cons v vs ih =>
    cases is with
    | nil => cases h
    | cons j is =>
      rw [List.nodup_cons] at hnd
      rw [List.zip_cons_cons, List.mem_cons] at h
      rcases h with h | h
      · cases h
        exact (setAll_of_not_mem _ hnd.1).trans (data.set_self u _)
      · exact ih hnd.2 h

end Data

theorem forall₂_zipIdx {α β : Type} {R : α → β → Prop} {xs : List α} {ys : List β}
    (h : List.Forall₂ R xs ys) (n : Nat) :
    List.Forall₂ (fun p q => R p.1 q.1 ∧ p.2 = q.2) (xs.zipIdx n) (ys.zipIdx n) := by
  induction h generalizing n with
  | nil => exact .nil
  | cons hr _ ih => exact .cons ⟨hr, rfl⟩ (ih (n + 1))

namespace TrivialLoops

namespace Drops

variable {pairs kept : List (LoopRange × ValueId)} {swaps : List (ValueId × ValueId)} {y : Code}

theorem effects_eq (h : Drops pairs kept swaps y) (turns : Turns) (data : Data) :
    y.effects turns data = [] := by
  induction h generalizing turns data with
  | nil => rfl
  | single op v hrange _ ih => exact ih _ _
  | keep _ ih => exact ih _ _

theorem allocations_eq (h : Drops pairs kept swaps y) (v : ValueId) : y.allocations v = 0 := by
  induction h with
  | nil => rfl
  | single op v hrange _ ih =>
    rw [Code.allocations, ih]
    rfl
  | keep _ ih => exact ih

theorem settle_of_mem (h : Drops pairs kept swaps y) (hnd : y.defined.Nodup) {op : OpId} {w : ValueId}
    {n : Int} (hm : .value op (.constant n) [] w .index ∈ y.heads) (turns : Turns) (data : Data) :
    y.settle turns data w = some (.index n) := by
  induction h generalizing turns data with
  | nil => cases hm
  | @single range var pairs kept swaps y op' c hrange _ ih =>
    rw [Code.defined_node, Code.defined_nil, List.nil_append] at hnd
    obtain ⟨-, hndy, hdis⟩ := List.nodup_append'.1 hnd
    simp only [Code.heads, List.nil_append, List.mem_cons] at hm
    rcases hm with hm | hm
    · cases hm
      exact (y.settle_of_not_mem _ _ fun hc => hdis (List.mem_singleton_self _) hc).trans
        (data.set_self _ _)
    · exact ih hndy hm _ _
  | keep _ ih => exact ih hnd hm turns data

end Drops

section Trimmed

variable {f g : Function} {k : Spine} {b x y z c : Code} {hd : Node} {ρ : ValueId → ValueId}
  {pairs kept : List (LoopRange × ValueId)} {swaps : List (ValueId × ValueId)}
  {vars : List ValueId} {data data' : Data}

theorem links_inside {i i' : List Int} {turns : Turns} (hdrops : Drops pairs kept swaps y)
    (hag : Drops.Agrees pairs kept swaps y i i') (hlen : vars.length = kept.length)
    (hpairs : (pairs.map (·.2)).Nodup) (hnew : (y.defined ++ vars).Nodup)
    (hout : ∀ v ∈ y.defined ++ vars, v ∉ pairs.map (·.2))
    (hfresh : ∀ v ∈ y.defined ++ vars, data' v = none)
    (hlinks : ∀ v d, data v = some d →
      data' (replaced (swaps ++ (kept.map (·.2)).zip vars) v) = some d) {v : ValueId} {d : Datum}
    (hv : data.setAll (pairs.map (·.2)) i v = some d) :
    (y.settle turns data').setAll vars i' (replaced (swaps ++ (kept.map (·.2)).zip vars) v) =
      some d := by
  have hrename : ∀ {v w}, (v, w) ∈ swaps ++ (kept.map (·.2)).zip vars →
      replaced (swaps ++ (kept.map (·.2)).zip vars) v = w := hdrops.replaced_eq hlen hpairs hout
  obtain ⟨hnd, hvars, hdis⟩ := List.nodup_append'.1 hnew
  rcases Data.of_setAll hv with hv | ⟨n, hn, rfl⟩
  · have hv' := hlinks v d hv
    have hnot : replaced (swaps ++ (kept.map (·.2)).zip vars) v ∉ y.defined ++ vars := fun hm => by
      rw [hfresh _ hm] at hv'
      cases hv'
    rw [List.mem_append, not_or] at hnot
    rw [Data.setAll_of_not_mem _ hnot.2, y.settle_of_not_mem _ _ hnot.1, hv']
  · rcases hag v n hn with hkept | ⟨w, hw, op, hm⟩
    · obtain ⟨w, hw, hw'⟩ := exists_zip (by rw [hlen, List.length_map]) hkept
      rw [hrename (List.mem_append_right _ hw)]
      exact Data.setAll_of_mem hvars hw'
    · have hmem : w ∈ y.defined := by
        rw [hdrops.defined_eq]
        exact List.mem_map.2 ⟨_, hw, rfl⟩
      rw [hrename (List.mem_append_left _ hw), Data.setAll_of_not_mem _ fun hm => hdis hmem hm]
      exact hdrops.settle_of_mem hnd hm _ _

theorem node_of_loop {h : Node} (hloop : h.kind.isLoop = true) :
    (∀ data, h.effects data = []) ∧ (∀ v, h.allocations v = 0) ∧
      ∀ turns data, h.datum turns data = none := by
  obtain ⟨op, kind, operands, result, marker, vars⟩ := h
  cases kind with
  | forLoop r => exact ⟨fun _ => rfl, fun _ => if_neg (by simp), fun _ _ => rfl⟩
  | parallelLoop rs => exact ⟨fun _ => rfl, fun _ => if_neg (by simp), fun _ _ => rfl⟩
  | _ => cases hloop

def relabel (c : Code) (ρ : ValueId → ValueId) : Change :=
  ⟨ρ, fun _ => True, fun _ => False, Data.Honours c⟩

theorem simulates_body (hr : f.Represents (k.plug (b ++ .node hd x z)))
    (hfix : ∀ v ∈ x.defined, ρ v = v) :
    (relabel (k.plug (b ++ .node hd x z)) ρ).Simulates x (x.rename ρ) := by
  refine Change.simulates_rename (fun h hh => ?_) (nodup_at hr).2.1
  have hmem : h ∈ (k.plug (b ++ .node hd x z)).heads := by
    rw [Spine.mem_heads_plug, Code.heads_append, Code.heads]
    simp [hh]
  exact {
    operands := fun _ _ => trivial
    defined := fun v hv => ⟨hfix v (List.mem_flatMap.2 ⟨h, hh, hv⟩), id⟩
    settle := fun turns _ _ hdata => hr.honours_settle hmem turns hdata
    setAll := fun is _ _ hdata => hr.honours_setAll hmem hdata is }

theorem links_behind (hloop : hd.kind.isLoop = true) {turns turns' : Turns}
    (hfresh : y.Fresh data') (hlinks : (relabel c ρ).Links data data') :
    (relabel c ρ).Links (Code.settle (.node hd x .nil) turns data) (y.settle turns' data') := by
  intro v d hkept hv
  rcases Node.settle_cases hv with hv | ⟨t, -, hd'⟩
  · have hv' := hlinks v d hkept hv
    refine (y.settle_of_not_mem _ _ fun hm => ?_).trans hv'
    rw [hfresh _ hm] at hv'
    cases hv'
  · rw [(node_of_loop hloop).2.2] at hd'
    cases hd'

theorem refines_iterations (vars : List ValueId) (turns'' : Turns) {turns turns' : Turns}
    (hr : f.Represents (k.plug (b ++ .node hd x z)))
    (hdrops : Drops (hd.kind.loopRanges.zip hd.inductionVars) kept swaps y)
    (hloop : hd.kind.isLoop = true) (hlen : vars.length = kept.length)
    (hρ : ρ = replaced (swaps ++ (kept.map (·.2)).zip vars))
    (hnew : ∀ v ∈ y.defined ++ vars, ¬ f.Has v) (hnd : (y.defined ++ (vars ++ x.defined)).Nodup)
    (hfresh : (Code.node hd x .nil).Fresh data)
    (hfresh' : ∀ v ∈ y.defined ++ (vars ++ x.defined), data' v = none)
    (hlinks : (relabel (k.plug (b ++ .node hd x z)) ρ).Links data data')
    (hturns : ∀ v, turns' v = turns v) (hholds : data.Honours (k.plug (b ++ .node hd x z))) :
    Effect.AllRefine
      (hd.kind.iterations.zipIdx.flatMap fun (i, n) =>
        x.effects (fun v => turns v + n * x.allocations v) (data.setAll hd.inductionVars i))
      ((tuples (kept.map (·.1.values))).zipIdx.flatMap fun (i, n) =>
        (x.rename ρ).effects (fun v => turns' v + n * (x.rename ρ).allocations v)
          ((y.settle turns'' data').setAll vars i)) := by
  obtain ⟨hfst, hsnd⟩ := pairs_of_represents hr
  generalize hd.kind.loopRanges.zip hd.inductionVars = pairs at hdrops hfst hsnd
  obtain ⟨hhd, -, hdis⟩ := nodup_at hr
  have hmem := Spine.mem_heads_at k b x z hd
  have hiter : hd.kind.iterations = tuples (pairs.map (·.1.values)) := by
    rw [OpKind.iterations, if_pos hloop, ← hfst, List.map_map]
    rfl
  have hvars : ∀ v ∈ hd.inductionVars, v ∈ hd.defined := fun v hv => List.mem_append_right _ hv
  have hhas : ∀ v ∈ hd.defined, f.Has v := fun v hv =>
    hr.has_of_mem (List.mem_flatMap.2 ⟨hd, hmem, hv⟩)
  obtain ⟨hyd, hvx, hyvx⟩ := List.nodup_append'.1 hnd
  have hout : ∀ v ∈ x.defined, v ∉ pairs.map (·.2) := fun v hv hm =>
    hdis (hvars v (hsnd ▸ hm)) hv
  have hfix : ∀ v ∈ x.defined, ρ v = v := by
    intro v hv
    rw [hρ]
    exact hdrops.replaced_self hlen (hout v hv)
  have hbody := simulates_body hr hfix
  obtain ⟨pick, hpick, hagrees⟩ := hdrops.exists_pick
  have hall : List.Forall₂ (Drops.Agrees pairs kept swaps y) (tuples (pairs.map (·.1.values)))
      (tuples (kept.map (·.1.values))) := by
    rw [hpick, List.forall₂_map_right_iff]
    exact List.forall₂_same.2 hagrees
  rw [hiter]
  refine List.rel_flatMap (forall₂_zipIdx hall 0) ?_
  rintro ⟨i, n⟩ ⟨i', n'⟩ ⟨hag, hn⟩
  obtain rfl : n = n' := hn
  have hinside : (relabel (k.plug (b ++ .node hd x z)) ρ).Links (data.setAll hd.inductionVars i)
      ((y.settle turns'' data').setAll vars i') := by
    intro v d _ hv
    subst hρ
    rw [← List.append_assoc] at hnd hfresh'
    rw [← hsnd] at hv
    refine links_inside hdrops hag hlen (hsnd ▸ (List.nodup_append'.1 hhd).2.1)
      (List.nodup_append'.1 hnd).1 ?_ (fun v hv => hfresh' v (List.mem_append_left _ hv))
      (fun v d hv => hlinks v d trivial hv) hv
    exact fun v hv hm => hnew v hv (hhas v (hvars v (hsnd ▸ hm)))
  refine (hbody.runs _ _ _ _ (fun v hv => ?_) (fun v hv => ?_) hinside (fun v _ => ?_)
    (hr.honours_setAll hmem hholds i)).1
  · rw [data.setAll_of_not_mem (hsnd ▸ hout v hv)]
    exact hfresh v (by simp [Code.defined_node, hv])
  · rw [Code.defined_rename] at hv
    rw [Data.setAll_of_not_mem _ fun hm => (List.nodup_append'.1 hvx).2.2 hm hv,
      y.settle_of_not_mem _ _ fun hm => hyvx hm (List.mem_append_right _ hv)]
    exact hfresh' v (by simp [hv])
  · rw [hturns, hbody.allocations v id]

theorem length_iterations (hr : f.Represents (k.plug (b ++ .node hd x z)))
    (hdrops : Drops (hd.kind.loopRanges.zip hd.inductionVars) kept swaps y)
    (hloop : hd.kind.isLoop = true) :
    hd.kind.iterations.length = (tuples (kept.map (·.1.values))).length := by
  have hfst := (pairs_of_represents hr).1
  generalize hd.kind.loopRanges.zip hd.inductionVars = pairs at hdrops hfst
  obtain ⟨pick, hpick, -⟩ := hdrops.exists_pick
  rw [hpick, List.length_map, OpKind.iterations, if_pos hloop, ← hfst, List.map_map]
  rfl

theorem simulates (hr : f.Represents (k.plug (b ++ .node hd x z)))
    (hg : g.Represents ((k.rename ρ).plug (b.rename ρ ++ (y ++ z.rename ρ))))
    (hloop : hd.kind.isLoop = true) (ht : Trimmed f hd x ρ y) :
    (relabel (k.plug (b ++ .node hd x z)) ρ).Simulates (.node hd x .nil) y := by
  obtain ⟨heffects, hallocs, -⟩ := node_of_loop hloop
  have hbehind := fun turns data (hd' : Data.Honours (k.plug (b ++ .node hd x z)) data) =>
    hr.honours_settle (Spine.mem_heads_at k b x z hd) turns hd'
  have hynd : y.defined.Nodup := by
    have hnd := Spine.nodup_defined_plug hg.nodup_defined
    rw [Code.defined_append, Code.defined_append] at hnd
    exact (List.nodup_append'.1 (List.nodup_append'.1 hnd).2.1).1
  have hold : ∀ turns data, Code.effects (.node hd x .nil) turns data =
      hd.kind.iterations.zipIdx.flatMap fun (i, n) =>
        x.effects (fun v => turns v + n * x.allocations v) (data.setAll hd.inductionVars i) :=
    fun turns data => by simp [Code.effects, heffects]
  cases ht with
  | @never r hrange hempty =>
    have hnone : hd.kind.iterations = [] := by
      rw [OpKind.iterations, if_pos hloop]
      exact tuples_of_empty (hempty ▸ List.mem_map.2 ⟨r, hrange, rfl⟩)
    refine ⟨fun v _ => ?_, fun turns turns' data data' hfresh hfresh' hlinks hturns hholds =>
      ⟨?_, links_behind hloop hfresh' hlinks, hbehind turns data hholds⟩⟩
    · simp [Code.allocations, hallocs, hnone]
    · rw [hold, hnone]
      exact .nil
  | @once swaps yd hdrops hnew =>
    rw [Code.defined_append, Code.defined_rename] at hynd
    have hlen := length_iterations hr hdrops hloop
    refine ⟨fun v _ => ?_, fun turns turns' data data' hfresh hfresh' hlinks hturns hholds =>
      ⟨?_, links_behind hloop hfresh' hlinks, hbehind turns data hholds⟩⟩
    · simp [Code.allocations, hallocs, hlen, hdrops.allocations_eq, Code.allocations_rename, tuples]
    · have hiters := refines_iterations [] turns' hr hdrops hloop rfl
        (by simp) (by simpa using hnew) hynd hfresh
        (by simpa [Code.Fresh, Code.defined_rename] using hfresh') hlinks (fun v => hturns v id) hholds
      rw [hold, Code.effects_append, hdrops.effects_eq]
      simpa [tuples, Data.setAll, hdrops.allocations_eq] using hiters
  | @loop kept swaps yd kind vars op hdrops hloop' hranges' hlen hnew =>
    rw [Code.defined_append, Code.defined_node, Code.defined_rename, Code.defined_nil,
      List.append_nil] at hynd
    have hcount := length_iterations hr hdrops hloop
    have hiter : kind.iterations = tuples (kept.map (·.1.values)) := by
      rw [OpKind.iterations, if_pos hloop', hranges', List.map_map]
      rfl
    refine ⟨fun v _ => ?_, fun turns turns' data data' hfresh hfresh' hlinks hturns hholds =>
      ⟨?_, links_behind hloop hfresh' hlinks, hbehind turns data hholds⟩⟩
    · have hm : (Node.loop op kind vars).allocations v = 0 :=
        (node_of_loop (h := .loop op kind vars) hloop').2.1 v
      have hiter' : (Node.loop op kind vars).kind.iterations = tuples (kept.map (·.1.values)) := hiter
      simp [Code.allocations, hallocs, hcount, hdrops.allocations_eq, Code.allocations_rename, hm,
        hiter']
    · have hiters := refines_iterations vars turns' hr hdrops hloop hlen rfl hnew hynd hfresh
        (fun v hv => hfresh' v (by
          simpa [Code.defined_rename, Node.defined, Node.loop] using hv)) hlinks
        (fun v => hturns v id) hholds
      have hm : (Node.loop op kind vars).effects (yd.settle turns' data') = [] :=
        (node_of_loop (h := .loop op kind vars) hloop').1 _
      rw [hold, Code.effects_append, hdrops.effects_eq, List.nil_append, Code.effects, hm,
        show (Node.loop op kind vars).kind.iterations = _ from hiter]
      simpa [Code.effects, hdrops.allocations_eq, Node.loop] using hiters

end Trimmed

end TrivialLoops

end KernelLowering
