import KernelLowering.Proofs.Safety.Rules

namespace KernelLowering

theorem Function.RespectsBuffers.respects {f g : Function} {σ : ValueId → ValueId}
    (h : f.RespectsBuffers g σ) : f.Respects g σ :=
  ⟨fun hv => h.has _ hv,
    fun hv => Function.bufferType_of_sort? (h.buffer _ (Function.sort?_of_bufferType? hv))⟩

theorem Node.item_of_isLoop {h : Node} (hloop : h.kind.isLoop = true) (env : Env) :
    h.item env = none := by
  unfold item
  split <;> simp_all [OpKind.isLoop]

namespace TrivialLoops

variable {f g : Function} {k : Spine} {b x y z : Code} {hd : Node} {ρ : ValueId → ValueId}
  {pairs kept : List (LoopRange × ValueId)} {swaps : List (ValueId × ValueId)}
  {vars : List ValueId} {env env' : Env} {holds : Env → Prop}

theorem Drops.computes (h : Drops pairs kept swaps y) : ∀ hd ∈ y.heads, hd.kind.computes = true := by
  intro hd hh
  obtain ⟨n, hn⟩ := h.kind_eq hd hh
  rw [hn]
  rfl

theorem Drops.after_of_mem (h : Drops pairs kept swaps y) (hnd : y.defined.Nodup) {op : OpId}
    {w : ValueId} {n : Int} (hm : .value op (.constant n) [] w .index ∈ y.heads) (env : Env) :
    y.after env w = some (.index n) := by
  induction h generalizing env with
  | nil => cases hm
  | @single range var pairs kept swaps y op' c hrange _ ih =>
    rw [Code.defined_node, Code.defined_nil, List.nil_append] at hnd
    obtain ⟨-, hndy, hdis⟩ := List.nodup_append'.1 hnd
    simp only [Code.heads, List.nil_append, List.mem_cons] at hm
    rcases hm with hm | hm
    · cases hm
      exact (y.after_of_not_mem _ fun hc => hdis (List.mem_singleton_self _) hc).trans
        (env.set_self _ _)
    · exact ih hndy hm _
  | keep _ ih => exact ih hnd hm env

theorem shown_inside {i i' : List Int} (hdrops : Drops pairs kept swaps y)
    (hag : Drops.Agrees pairs kept swaps y i i') (hlen : vars.length = kept.length)
    (hpairs : (pairs.map (·.2)).Nodup) (hnew : (y.defined ++ vars).Nodup)
    (hout : ∀ v ∈ y.defined ++ vars, v ∉ pairs.map (·.2))
    (hfresh : ∀ v ∈ y.defined ++ vars, env' v = none)
    (hlinks : ∀ v item, env v = some item →
      env' (replaced (swaps ++ (kept.map (·.2)).zip vars) v) = some item) {v : ValueId} {item : Item}
    (hv : env.setAll (pairs.map (·.2)) i v = some item) :
    (y.after env').setAll vars i' (replaced (swaps ++ (kept.map (·.2)).zip vars) v) = some item := by
  obtain ⟨hnd, hvars, hdis⟩ := List.nodup_append'.1 hnew
  rcases Env.setAll_cases hv with hv | ⟨n, hn, rfl⟩
  · have hv' := hlinks v item hv
    have hnot : replaced (swaps ++ (kept.map (·.2)).zip vars) v ∉ y.defined ++ vars := fun hm => by
      cases (hfresh _ hm).symm.trans hv'
    rw [List.mem_append, not_or] at hnot
    rw [Env.setAll_of_not_mem _ hnot.2, y.after_of_not_mem _ hnot.1, hv']
  · rcases hag v n hn with hkept | ⟨w, hw, op, hm⟩
    · obtain ⟨w, hw, hw'⟩ := exists_zip (by rw [hlen, List.length_map]) hkept
      rw [hdrops.replaced_eq hlen hpairs hout (List.mem_append_right _ hw)]
      exact Env.setAll_of_mem hvars hw'
    · have hmem : w ∈ y.defined := by
        rw [hdrops.defined_eq]
        exact List.mem_map.2 ⟨_, hw, rfl⟩
      rw [hdrops.replaced_eq hlen hpairs hout (List.mem_append_left _ hw),
        Env.setAll_of_not_mem _ fun hm => hdis hmem hm]
      exact hdrops.after_of_mem hnd hm _

theorem iterations_eq (hr : f.Represents (k.plug (b ++ .node hd x z))) (hloop : hd.kind.isLoop = true) :
    hd.kind.iterations = tuples ((hd.kind.loopRanges.zip hd.inductionVars).map (·.1.values)) := by
  rw [OpKind.iterations, if_pos hloop]
  conv_lhs => rw [← (pairs_of_represents hr).1]
  rw [List.map_map]
  rfl

abbrev relabeling (ρ : ValueId → ValueId) (holds : Env → Prop) : Passage :=
  .plain ρ (fun _ => True) (fun _ => False) holds

theorem steps_inside (hr : f.Represents (k.plug (b ++ .node hd x z)))
    (hdrops : Drops (hd.kind.loopRanges.zip hd.inductionVars) kept swaps y)
    (hloop : hd.kind.isLoop = true) (hlen : vars.length = kept.length)
    (hρ : ρ = replaced (swaps ++ (kept.map (·.2)).zip vars))
    (hnew : ∀ v ∈ y.defined ++ vars, ¬ f.Has v) (hnd : (y.defined ++ (vars ++ x.defined)).Nodup)
    (hun : (Code.node hd x .nil).Unbound env)
    (hun' : ∀ v ∈ y.defined ++ (vars ++ x.defined), env' v = none)
    (hlinks : (relabeling ρ holds).Links env env')
    (hbefore : (Code.node hd x .nil).Throughout (relabeling ρ holds).before env) :
    ∃ pick : List Int → List Int,
      tuples (kept.map (·.1.values)) = hd.kind.iterations.map pick ∧ ∀ i ∈ hd.kind.iterations,
        (relabeling ρ holds).Steps x (x.rename ρ) (env.setAll hd.inductionVars i)
          ((y.after env').setAll vars (pick i)) := by
  have hiter := iterations_eq hr hloop
  obtain ⟨-, hsnd⟩ := pairs_of_represents hr
  generalize hd.kind.loopRanges.zip hd.inductionVars = pairs at hdrops hiter hsnd
  obtain ⟨hhd, hndx, hdis⟩ := nodup_at hr
  have hvars : ∀ v ∈ hd.inductionVars, v ∈ hd.defined := fun v hv => List.mem_append_right _ hv
  have hhas : ∀ v ∈ hd.defined, f.Has v := fun v hv =>
    hr.has_of_mem (List.mem_flatMap.2 ⟨hd, Spine.mem_heads_at k b x z hd, hv⟩)
  obtain ⟨-, hvx, hyvx⟩ := List.nodup_append'.1 hnd
  have hout : ∀ v ∈ x.defined, v ∉ pairs.map (·.2) := fun v hv hm =>
    hdis (hvars v (hsnd ▸ hm)) hv
  have hbody : (relabeling ρ holds).Passes x (x.rename ρ) := by
    refine Passage.passes_rename (fun h hh => Passage.plain_takes (fun _ _ => trivial) fun v hv =>
      ⟨?_, id⟩) hndx
    rw [hρ]
    exact hdrops.replaced_self hlen (hout v (List.mem_flatMap.2 ⟨h, hh, hv⟩))
  obtain ⟨pick, hpick, hagrees⟩ := hdrops.exists_pick
  refine ⟨pick, hiter ▸ hpick, fun i hi => hbody.steps _ _ (fun v hv => ?_) (fun v hv => ?_) ?_
    (hbefore.2.1 i hi)⟩
  · rw [env.setAll_of_not_mem (hsnd ▸ hout v hv)]
    exact hun v (by simp [Code.defined_node, hv])
  · rw [Code.defined_rename] at hv
    rw [Env.setAll_of_not_mem _ fun hm => (List.nodup_append'.1 hvx).2.2 hm hv,
      y.after_of_not_mem _ fun hm => hyvx hm (List.mem_append_right _ hv)]
    exact hun' v (by simp [hv])
  · intro v item hv _
    subst hρ
    rw [← List.append_assoc] at hnd hun'
    rw [← hsnd] at hv
    refine ⟨item, ?_, Standing.items_keep.2 ⟨rfl, fun _ _ => id⟩⟩
    refine shown_inside hdrops (hagrees i (hiter ▸ hi)) hlen (hsnd ▸ (List.nodup_append'.1 hhd).2.1)
      (List.nodup_append'.1 hnd).1 ?_ (fun v hv => hun' v (List.mem_append_left _ hv))
      (fun v item hv => (Passage.plain_same hlinks hv).1) hv
    exact fun v hv hm => hnew v hv (hhas v (hvars v (hsnd ▸ hm)))

theorem Drops.steps (h : Drops pairs kept swaps y) (env : Env) :
    y.Throughout Node.Fit env ∧ y.trace env = [] ∧ y.RaceFree env ∧ y.allocated = [] := by
  have hkind : ∀ hd ∈ y.heads, hd.kind.isLinalg = false ∧ hd.kind.window? = none := by
    intro hd hh
    obtain ⟨n, hn⟩ := h.kind_eq hd hh
    rw [hn]
    exact ⟨rfl, rfl⟩
  refine ⟨Code.throughout_fit hkind env, Code.trace_of_computes h.computes env,
    Code.raceFree_of_loopless (fun hd hh => OpKind.isLoop_of_computes (h.computes hd hh)) env, ?_⟩
  exact List.flatMap_eq_nil_iff.2 fun hd hh => Node.allocated_of_computes (h.computes hd hh)

theorem Trimmed.passes (hr : f.Represents (k.plug (b ++ .node hd x z))) (hloop : hd.kind.isLoop = true)
    (hnd : y.defined.Nodup) (ht : Trimmed f hd x ρ y) :
    ∃ hidden : ValueId → Prop, (∀ v, hidden v → v ∈ x.defined) ∧
      (Passage.plain ρ (fun _ => True) hidden holds).Passes (.node hd x .nil) y := by
  have hactions := hd.actions_of_isLoop hloop
  have hnone : hd.allocated = [] := by
    rw [Node.allocated, if_neg]
    intro hk
    rw [hk] at hloop
    cases hloop
  have htrace : ∀ env, (Code.node hd x .nil).trace env =
      hd.kind.iterations.flatMap fun i => x.trace (env.setAll hd.inductionVars i) := fun env => by
    rw [Code.trace, hactions, List.nil_append]
    exact List.append_nil _
  have hbehind : ∀ {hidden : ValueId → Prop} {env env' : Env},
      (Passage.plain ρ (fun _ => True) hidden holds).Links env env' → y.Unbound env' →
        (Passage.plain ρ (fun _ => True) hidden holds).Links ((Code.node hd x .nil).after env)
          (y.after env') := fun hlinks hun => Passage.plain_links hlinks (Node.item_of_isLoop hloop _) hun
  have hallocated : (x.rename ρ).allocated = x.allocated := by
    rw [Code.allocated, Code.heads_rename, List.flatMap_map]
    rfl
  cases ht with
  | @never r hrange hempty =>
    refine ⟨(· ∈ x.defined), fun _ => id, ?_, fun env env' _ hun' hlinks _ => ?_⟩
    · rintro c _ ⟨rfl, hshown⟩ hm
      exact (hshown (Code.mem_body_of_allocated hnone hm)).elim
    · have hnever : hd.kind.iterations = [] := by
        rw [OpKind.iterations, if_pos hloop]
        exact tuples_of_empty (hempty ▸ List.mem_map.2 ⟨r, hrange, rfl⟩)
      refine ⟨trivial, ?_, fun _ => trivial, hbehind hlinks hun'⟩
      rw [htrace, hnever]
      exact .nil
  | @once swaps yd hdrops hnew =>
    rw [Code.defined_append, Code.defined_rename] at hnd
    refine ⟨fun _ => False, fun _ => False.elim, ?_, fun env env' hun hun' hlinks hbefore => ?_⟩
    · rintro c _ ⟨rfl, -⟩ hm
      rw [Code.allocated_node, hnone, List.nil_append, List.mem_append] at hm
      rw [Code.allocated_append, hallocated]
      exact List.mem_append_right _ (hm.resolve_right List.not_mem_nil)
    obtain ⟨pick, hpick, hinside⟩ := steps_inside hr hdrops hloop (List.length_nil) (by simp)
      (by simpa using hnew) hnd hun (by simpa [Code.Unbound, Code.defined_rename] using hun') hlinks hbefore
    obtain ⟨i, hi⟩ : ∃ i, hd.kind.iterations = [i] := by
      have hlen := congrArg List.length hpick
      rw [List.length_map] at hlen
      exact List.length_eq_one_iff.1 hlen.symm
    have hstep := hinside i (hi ▸ List.mem_singleton_self i)
    obtain ⟨hfit, htrace', hfree, -⟩ := hdrops.steps env'
    refine ⟨Code.throughout_append.2 ⟨hfit, hstep.after⟩, ?_, fun hraceFree => ?_, hbehind hlinks hun'⟩
    · rw [htrace, hi, Code.trace_append, htrace', List.flatMap_singleton]
      exact hstep.mimics
    · exact Code.raceFree_append.2 ⟨hfree, hstep.raceFree (hraceFree.2.1 i (hi ▸ List.mem_singleton_self i))⟩
  | @loop kept swaps yd kind vars op hdrops hloop' hranges hlen hnew hsame =>
    rw [Code.defined_append, Code.defined_node, Code.defined_rename, Code.defined_nil,
      List.append_nil] at hnd
    have hloopnode : (Node.loop op kind vars).allocated = [] := by
      rw [Node.allocated, if_neg]
      rintro hk
      rw [show kind = .alloc from hk] at hloop'
      cases hloop'
    refine ⟨fun _ => False, fun _ => False.elim, ?_, fun env env' hun hun' hlinks hbefore => ?_⟩
    · rintro c _ ⟨rfl, -⟩ hm
      rw [Code.allocated_node, hnone, List.nil_append, List.mem_append] at hm
      rw [Code.allocated_append, Code.allocated_node, hallocated, hloopnode, List.nil_append]
      exact List.mem_append_right _ (List.mem_append_left _ (hm.resolve_right List.not_mem_nil))
    obtain ⟨pick, hpick, hinside⟩ := steps_inside hr hdrops hloop hlen rfl hnew hnd hun
      (by simpa [Code.Unbound, Code.defined_rename, Node.defined, Node.loop] using hun') hlinks hbefore
    have hiter : kind.iterations = hd.kind.iterations.map pick := by
      rw [← hpick, OpKind.iterations, if_pos hloop', hranges, List.map_map]
      rfl
    obtain ⟨hfit, htrace', hfree, -⟩ := hdrops.steps env'
    refine ⟨Code.throughout_append.2 ⟨hfit, Node.fit_of_plain ?_ ?_ _, fun i' hi' => ?_, trivial⟩, ?_,
      fun hraceFree => Code.raceFree_append.2 ⟨hfree, fun hp => ?_, fun i' hi' => ?_, trivial⟩,
      hbehind hlinks hun'⟩
    · cases kind <;> first | rfl | cases hloop'
    · cases kind <;> first | rfl | cases hloop'
    · obtain ⟨i, hi, rfl⟩ := List.mem_map.1 (hiter ▸ hi')
      exact (hinside i hi).after
    · rw [htrace, Code.trace_append, htrace', Code.trace, Node.actions_of_isLoop hloop',
        List.nil_append, List.nil_append]
      show Mimics _ (kind.iterations.flatMap _ ++ []) _
      rw [List.append_nil, hiter, List.flatMap_map]
      exact Mimics.flatMap fun i hi => (hinside i hi).mimics
    · show Code.Independent _ kind.iterations _
      rw [hiter]
      refine Passage.independent pick ?_ (fun i hi => (hinside i hi).mimics.covers)
        (hraceFree.1 (hsame ▸ hp))
      rintro c _ ⟨rfl, -⟩ hm
      exact hallocated.symm ▸ hm
    · obtain ⟨i, hi, rfl⟩ := List.mem_map.1 (hiter ▸ hi')
      exact (hinside i hi).raceFree (hraceFree.2.1 i hi)

theorem Trimmed.typed (ht : Trimmed f hd x ρ y) (hx : ∀ h ∈ (x.rename ρ).heads, h.Typed g) :
    ∀ h ∈ y.heads, h.Typed g := by
  have hdropped : ∀ {pairs kept swaps yd}, Drops pairs kept swaps yd → ∀ h ∈ yd.heads, h.Typed g := by
    intro pairs kept swaps yd hdrops
    induction hdrops with
    | nil => simp [Code.heads]
    | single op v hrange _ ih =>
      simp only [Code.heads, List.nil_append, List.forall_mem_cons]
      exact ⟨.constant op _ v, ih⟩
    | keep _ ih => exact ih
  cases ht with
  | never => exact fun h hh => by cases hh
  | once hdrops =>
    rw [Code.heads_append, List.forall_mem_append]
    exact ⟨hdropped hdrops, hx⟩
  | loop op hdrops hloop =>
    rw [Code.heads_append, List.forall_mem_append, Code.heads, List.forall_mem_cons, Code.heads,
      List.append_nil]
    exact ⟨hdropped hdrops, .loop op _ hloop, hx⟩

theorem gives_refinement (hs : f.Sound (k.plug (b ++ .node hd x z))) :
    (Rule.trivialLoops.apply f hd.op).Gives True fun g =>
      ∃ c, f.Improves g (k.plug (b ++ .node hd x z)) c := by
  have hr := hs.represents
  rw [Rule.apply, Inspect.gives_bind]
  refine (gives_check hr).mono fun _ _ hloop => ?_
  rw [Inspect.gives_lift]
  refine (yields_perform hr).mono ?_
  rintro g - ⟨ρ, y, ht, hg, hgrows⟩
  have hrespects := (respectsBuffers hr hg hgrows ht).respects
  have hnd : y.defined.Nodup := by
    have hnd := Spine.nodup_defined_plug hg.nodup_defined
    rw [Code.defined_append, Code.defined_append] at hnd
    exact (List.nodup_append'.1 (List.nodup_append'.1 hnd).2.1).1
  obtain ⟨hidden, hhidden, hpasses⟩ := ht.passes hr hloop hnd
  refine ⟨_, hs.splice hg hgrows hrespects (ht.typed fun h hh => ?_) (fun _ _ _ _ => trivial)
    (fun v hv => ⟨?_, fun hm => (hr.stays hv).2.2 (hhidden v hm)⟩) hpasses⟩
  · rw [Code.heads_rename] at hh
    obtain ⟨h, hx, rfl⟩ := List.mem_map.1 hh
    exact hrespects.typed (hs.typed h (Spine.mem_heads_node.2 (.inr (.inl hx))))
  · exact vars_of_trimmed hr ht fun hm => (hr.stays hv).2.1 (List.mem_append_right _ hm)

end TrivialLoops

end KernelLowering
