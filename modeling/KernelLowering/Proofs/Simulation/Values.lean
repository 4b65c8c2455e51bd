import KernelLowering.Proofs.Arena.Replacement
import KernelLowering.Proofs.Simulation.Refinement

namespace KernelLowering

def OpKind.computes : OpKind → Bool
  | constant _ | addIndex | view | subView _ => true
  | _ => false

theorem Node.actions_of_computes {h : Node} (hc : h.kind.computes = true) (env : Env) :
    h.actions env = [] := by
  unfold Node.actions
  split <;> simp_all [OpKind.computes]

theorem OpKind.iterations_of_computes {kind : OpKind} (hc : kind.computes = true) :
    kind.iterations = [] := by
  cases kind <;> simp_all [computes, iterations, isLoop]

theorem OpKind.isLoop_of_computes {kind : OpKind} (hc : kind.computes = true) : kind.isLoop = false := by
  cases kind <;> simp_all [computes, isLoop]

theorem Node.allocated_of_computes {h : Node} (hc : h.kind.computes = true) : h.allocated = [] := by
  rw [allocated, if_neg]
  intro hk
  rw [hk] at hc
  cases hc

theorem Code.trace_of_computes {y : Code} (h : ∀ hd ∈ y.heads, hd.kind.computes = true)
    (env : Env) : y.trace env = [] := by
  induction y generalizing env with
  | nil => rfl
  | node hd body rest _ ihr =>
    simp only [heads, List.forall_mem_cons, List.forall_mem_append] at h
    rw [trace, Node.actions_of_computes h.1, OpKind.iterations_of_computes h.1, ihr h.2.2]
    rfl

namespace Function

variable {f g : Function} {k : Spine} {b x y z : Code} {hd : Node} {r w : ValueId} {t : ValueType}

theorem Grows.respects_swapped (hg : f.Grows g) (hw : g.Has w)
    (hbuffer : ∀ type, f.bufferType? r = .ok (some type) →
      ∃ type', g.bufferType? w = .ok (some type')) : f.Respects g (swapped r w) := by
  refine ⟨fun {v} hv => ?_, fun {v type} hv => ?_⟩
  · by_cases hr : v = r
    · rw [hr, swapped_self]
      exact hw
    · rw [swapped_of_ne hr]
      exact hg.has hv
  · by_cases hr : v = r
    · rw [hr, swapped_self]
      exact hbuffer type (hr ▸ hv)
    · rw [swapped_of_ne hr]
      exact ⟨type, hg.bufferType? hv⟩

theorem Sound.replace (hs : f.Sound (k.plug (b ++ .node hd x z)))
    (hsplice : Splice f g (k.rename (swapped r w)) (b.rename (swapped r w))
      (y.rename (swapped r w)) (z.rename (swapped r w))) (hres : hd.result = some (r, t))
    (hhd : hd.kind.computes = true) (hw : g.Has w)
    (hbuffer : ∀ type, t = .buffer type → ∃ type', g.bufferType? w = .ok (some type'))
    (hy : ∀ h ∈ y.heads, h.Typed g) (hcomputes : ∀ h ∈ y.heads, h.kind.computes = true)
    (hfit : ∀ env, env.Informed f (k.plug (b ++ .node hd x z)) → y.Unbound env → hd.Fit env →
      y.Throughout Node.Fit env)
    (hitem : ∀ env item, env.Informed f (k.plug (b ++ .node hd x z)) → y.Unbound env →
      hd.item env = some item → y.after env w = some item) :
    f.Improves g (k.plug (b ++ .node hd x z)) ((k.rename (swapped r w)).plug
      (b.rename (swapped r w) ++ (y.rename (swapped r w) ++ z.rename (swapped r w)))) := by
  have hmem := k.mem_heads_at b x z hd
  have hr : r ∈ hd.defined := by simp [Node.defined, hres]
  have hhasr : f.Has r := hs.represents.has_of_mem (List.mem_flatMap.2 ⟨hd, hmem, hr⟩)
  have htype := hs.represents.bufferType?_eq hmem hres
  have hbuffer' : ∀ type, f.bufferType? r = .ok (some type) →
      ∃ type', g.bufferType? w = .ok (some type') := by
    intro type htype'
    rw [htype, Except.ok.injEq] at htype'
    cases t with
    | index => cases htype'
    | buffer t => exact hbuffer t rfl
  have hself : g.Respects g (swapped r w) := by
    refine (Grows.refl g).respects_swapped hw fun type htype' => hbuffer' type ?_
    rwa [hsplice.grows.bufferType? htype, ← htype] at htype'
  have hcomputes' : ∀ h ∈ (y.rename (swapped r w)).heads, h.kind.computes = true := by
    rw [Code.heads_rename, List.forall_mem_map]
    exact hcomputes
  have hfresh : ∀ v ∈ y.defined, ¬ f.Has v := by
    intro v hv
    rw [← Code.defined_rename (swapped r w), hsplice.defined, mem_freshValues] at hv
    exact Nat.not_lt_of_le hv.1
  have hnd : y.defined.Nodup := by
    rw [← Code.defined_rename (swapped r w), hsplice.defined]
    exact nodup_freshValues _ _
  have hinside : ∀ v ∈ x.defined, f.Has v := fun v hv => hs.represents.has_of_mem (by
    simp [(k.defined_plug _).mem_iff, Code.defined_append, Code.defined_node, hv])
  have hstay : ∀ v, v.index < f.arity ∨ v ∈ (k.plug (b ++ z)).defined → v ≠ r ∧ v ∉ x.defined :=
    fun v hv => ⟨fun e => (hs.represents.stays hv).2.1 (e ▸ hr), (hs.represents.stays hv).2.2⟩
  have hfix : ∀ v, v.index < f.arity ∨ v ∈ (k.plug (b ++ z)).defined → swapped r w v = v ∧ ¬ v ∈ x.defined :=
    fun v hv => ⟨swapped_of_ne (hstay v hv).1, (hstay v hv).2⟩
  refine hs.splice hsplice.represents hsplice.grows (hsplice.grows.respects_swapped hw hbuffer')
    (fun h hh => ?_) (fun _ _ _ _ => trivial) hfix ⟨?_, fun env env' hun hun' hlinks hbefore => ?_⟩
  · rw [Code.heads_rename, List.mem_map] at hh
    obtain ⟨h, hh, rfl⟩ := hh
    exact hself.typed (hy h hh)
  · -- the operation allocates nothing, and what its body would allocate is hidden
    rintro c _ ⟨rfl, hshown⟩ hm
    exact (hshown (Code.mem_body_of_allocated (Node.allocated_of_computes hhd) hm)).elim
  obtain ⟨⟨hfit', hinformed⟩, -⟩ := hbefore
  have huny : y.Unbound env := by
    intro v hv
    by_contra hne
    obtain ⟨item, he⟩ := Option.ne_none_iff_exists'.1 hne
    obtain ⟨a, ha, -⟩ := hinformed.typed v item he
    exact hfresh v hv (Array.getElem?_eq_some_iff.1 ha).1
  -- the new code binds under the new names what it would bind in the old environment
  have hpass : (Passage.plain (swapped r w) (fun _ => True) (· ∈ x.defined)
      (fun _ => True)).Passes y (y.rename (swapped r w)) := by
    refine Passage.passes_rename (fun h hh => Passage.plain_takes (fun _ _ => trivial) fun v hv => ?_) hnd
    have hnot := hfresh v (List.mem_flatMap.2 ⟨h, hh, hv⟩)
    exact ⟨swapped_of_ne fun e => hnot (e ▸ hhasr), fun hm => hnot (hinside v hm)⟩
  have hsteps := hpass.steps env env' huny hun' hlinks
    ((hfit env hinformed huny hfit').mono fun _ _ h => ⟨h, trivial⟩)
  have hhd' : (Code.node hd x .nil).trace env = [] := by
    rw [Code.trace, Node.actions_of_computes hhd, OpKind.iterations_of_computes hhd]
    rfl
  refine ⟨hsteps.after, ?_, fun _ => ?_, fun u item hu _ => ?_⟩
  · rw [hhd', Code.trace_of_computes hcomputes']
    exact .nil
  · exact Code.raceFree_of_loopless (fun h hh => OpKind.isLoop_of_computes (hcomputes' h hh)) env'
  rcases Env.bind_cases hu with hu | ⟨t', hres', hi⟩
  · refine hsteps.links u item ((y.after_of_not_mem env fun hm => ?_).trans hu) trivial
    rw [huny u hm] at hu
    cases hu
  · rw [hres] at hres'
    cases hres'
    have hlink := hsteps.links w item (hitem env item hinformed huny hi) trivial
    rw [show (Passage.plain (swapped r w) _ _ _).rename w = w from swapped_to] at hlink
    rwa [show (Passage.plain (swapped r w) _ _ _).rename r = w from swapped_self]

end Function

end KernelLowering
