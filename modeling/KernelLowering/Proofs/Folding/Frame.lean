import KernelLowering.Proofs.Convergence.Cleanup
import KernelLowering.Proofs.Safety.Rules

namespace KernelLowering

namespace Code

def impure : Code → Code
  | nil => nil
  | node h body rest =>
    if h.kind.isPure then body.impure ++ rest.impure else node h body.impure rest.impure

theorem impure_node_of_pure {h : Node} (hpure : h.kind.isPure = true) (body rest : Code) :
    (node h body rest).impure = body.impure ++ rest.impure := if_pos hpure

@[simp] theorem impure_append (x y : Code) : (x ++ y).impure = x.impure ++ y.impure := by
  induction x with
  | nil => rfl
  | node h body rest _ ih =>
    simp only [node_append, impure, ih]
    split
    · rw [append_assoc]
    · rfl

@[simp] theorem impure_rename (σ : ValueId → ValueId) (x : Code) :
    (x.rename σ).impure = x.impure.rename σ := by
  induction x with
  | nil => rfl
  | node h body rest ihb ihr =>
    simp only [rename, impure, ihb, ihr, show (h.rename σ).kind = h.kind from rfl]
    split <;> simp [rename]

theorem impure_eq_nil {x : Code} (h : ∀ n ∈ x.heads, n.kind.isPure = true) : x.impure = nil := by
  induction x with
  | nil => rfl
  | node hd body rest ihb ihr =>
    rw [heads, List.forall_mem_cons, List.forall_mem_append] at h
    rw [impure_node_of_pure h.1, ihb h.2.1, ihr h.2.2, nil_append]

end Code

namespace Spine

variable {k : Spine} {b x y z : Code} {hd : Node} {σ : ValueId → ValueId}

theorem impure_plug (h : y.impure = x.impure.rename σ) :
    ((k.rename σ).plug y).impure = (k.plug x).impure.rename σ := by
  induction k generalizing x y with
  | body => exact h
  | inside hd b a k ih =>
    refine ih ?_
    simp only [Code.impure_append, Code.impure, Code.impure_rename, h, Code.rename_append,
      show (hd.rename σ).kind = hd.kind from rfl]
    split <;> simp [Code.rename]

theorem impure_splice (hpure : hd.kind.isPure = true) (hx : x = .nil)
    (hy : ∀ n ∈ y.heads, n.kind.isPure = true) :
    ((k.rename σ).plug (b.rename σ ++ (y ++ z.rename σ))).impure =
      (k.plug (b ++ .node hd x z)).impure.rename σ := by
  refine impure_plug ?_
  simp [hpure, hx, Code.impure_eq_nil hy, Code.impure]

end Spine

namespace Function

def MakesBuffers (f : Function) : Prop :=
  ∀ h ∈ f.code.heads, h.kind = .alloc ∨ h.kind.window?.isSome = true →
    ∀ r ∈ h.result, r.2 ≠ .index

instance (f : Function) : Decidable f.MakesBuffers :=
  inferInstanceAs (Decidable (∀ h ∈ f.code.heads, h.kind = .alloc ∨ h.kind.window?.isSome = true →
    ∀ r ∈ h.result, r.2 ≠ .index))

/-- The operations that are not pure stay what they are and where they are in the tree; only their operands
are renamed, and if allocations and sub-views make buffers, no index is. -/
structure Retains (f g : Function) : Prop where
  grows : f.Grows g
  tree : ∃ σ : ValueId → ValueId, g.code.impure = f.code.impure.rename σ ∧
    (f.MakesBuffers → g.MakesBuffers ∧ ∀ v, f.typeOf v = .ok .index → σ v = v)

variable {f g g' : Function} {c : Code} {k : Spine} {b x y z : Code} {hd : Node}
  {σ : ValueId → ValueId}

theorem Grows.typeOf (h : f.Grows g) {v : ValueId} {t : ValueType} (hv : f.typeOf v = .ok t) :
    g.typeOf v = .ok t := by
  obtain ⟨a, ha, ht⟩ := Fault.map_eq_ok.1 hv
  exact Fault.map_eq_ok.2 ⟨a, value_eq_ok.2 (h.value (value_eq_ok.1 ha)), ht⟩

theorem Represents.typeOf_result (hr : f.Represents c) {h : Node} {v : ValueId} {t : ValueType}
    (hh : h ∈ c.heads) (hres : h.result = some (v, t)) : f.typeOf v = .ok t :=
  Fault.map_eq_ok.2 ⟨_, value_eq_ok.2 (hr.result hh hres), rfl⟩

namespace Retains

theorem refl (f : Function) : f.Retains f :=
  ⟨.refl f, id, by simp, fun h => ⟨h, fun _ _ => rfl⟩⟩

theorem trans (h : f.Retains g) (h' : g.Retains g') : f.Retains g' := by
  obtain ⟨hgrows, σ, htree, hindex⟩ := h
  obtain ⟨hgrows', σ', htree', hindex'⟩ := h'
  refine ⟨hgrows.trans hgrows', σ' ∘ σ, ?_, fun hbuffers => ?_⟩
  · rw [htree', htree, Code.rename_rename]
  · obtain ⟨hg, hσ⟩ := hindex hbuffers
    obtain ⟨hg', hσ'⟩ := hindex' hg
    refine ⟨hg', fun v hv => ?_⟩
    rw [Function.comp_apply, hσ v hv, hσ' v (hgrows.typeOf hv)]

end Retains

theorem Represents.retains (hr : f.Represents (k.plug (b ++ .node hd x z)))
    (hnested : (k.plug (b ++ .node hd x z)).Nested) (hpure : hd.kind.isPure = true)
    (hgrows : f.Grows g) (hg : g.Represents ((k.rename σ).plug (b.rename σ ++ (y ++ z.rename σ))))
    (hy : ∀ n ∈ y.heads, n.kind.isPure = true) (hnew : y.Nested)
    (hbuffers : ∀ n ∈ y.heads, n.kind = .alloc ∨ n.kind.window?.isSome = true →
      ∀ r ∈ n.result, r.2 ≠ .index)
    (hindex : f.MakesBuffers → ∀ v, f.typeOf v = .ok .index → σ v = v) :
    g.WellFormed ∧ g.code.Nested ∧ f.Retains g := by
  have hbody := Spine.body_eq_nil hnested (OpKind.isLoop_of_isPure hpure)
  have hgnested := (Spine.nested_splice hnested).2 σ y hnew
  refine ⟨hg.wellFormed, hg.code_eq ▸ hgnested, hgrows, σ, ?_, fun hf => ⟨?_, hindex hf⟩⟩
  · rw [hg.code_eq, hr.code_eq]
    exact Spine.impure_splice hpure hbody hy
  · intro h hh
    rw [hg.code_eq] at hh
    rcases Spine.mem_heads_splice.1 hh with ⟨h', hh', rfl⟩ | hh
    · exact hf h' (hr.code_eq ▸ Spine.mem_heads_around hh' hd x)
    · exact hbuffers h hh

theorem Sheds.retains (hs : f.Sheds g k b x z hd) (hnested : f.code.Nested) :
    g.WellFormed ∧ g.code.Nested ∧ f.Retains g := by
  have hg : g.Represents ((k.rename id).plug (b.rename id ++ (.nil ++ z.rename id))) := by
    simpa using hs.after
  refine hs.before.retains (σ := id) (y := .nil) (hs.before.code_eq ▸ hnested) hs.pure hs.same.grows hg
    ?_ trivial ?_ fun _ _ _ => rfl
  · exact fun n hn => by cases hn
  · exact fun n hn => by cases hn

end Function

section Rules

variable {f g : Function} {k : Spine} {b x z : Code} {hd : Node}

theorem OpKind.isPure_of_window {kind : OpKind} (h : kind.window?.isSome = true) : kind.isPure = true := by
  obtain ⟨w, hw⟩ := Option.isSome_iff_exists.1 h
  rw [OpKind.window?_eq_some.1 hw]
  rfl

theorem Function.MakesBuffers.ne_of_index {c : Code} {h : Node} {r v : ValueId} {t : ValueType}
    (hf : f.MakesBuffers) (hr : f.Represents c) (hh : h ∈ c.heads)
    (hkind : h.kind = .alloc ∨ h.kind.window?.isSome = true) (hres : h.result = some (r, t))
    (hv : f.typeOf v = .ok .index) : v ≠ r := by
  rintro rfl
  have ht := hr.typeOf_result hh hres
  rw [hv, Except.ok.injEq] at ht
  exact hf h (hr.code_eq ▸ hh) hkind _ hres ht.symm

theorem Reallocation.retains {space : MemorySpace} (hr : f.Represents (k.plug (b ++ .node hd x z)))
    (hnested : (k.plug (b ++ .node hd x z)).Nested)
    (h : ((Rule.reallocation space).apply f hd.op).Answers g) :
    g.WellFormed ∧ g.code.Nested ∧ f.Retains g := by
  obtain ⟨view, alloc, tile, bytes, new, type, t, op, ht, htile, hbytes, hsplice⟩ :=
    splice_of_answers hr h
  refine hr.retains hnested (OpKind.isPure_of_window ht.tile_kind) hsplice.grows hsplice.represents ?_
    ⟨.inr rfl, trivial, trivial⟩ ?_ fun hf v hv => merged_of_ne ?_ ?_
  · intro n hn
    rw [List.mem_singleton.1 hn]
    rfl
  · intro n hn _ r hres
    rw [List.mem_singleton.1 hn] at hres
    cases hres
    simp
  · exact hf.ne_of_index hr ht.tile_mem (.inr ht.tile_kind) htile hv
  · exact hf.ne_of_index hr ht.alloc_mem (.inl ht.alloc_kind) hbytes hv

theorem ViewFolding.retains (hr : f.Represents (k.plug (b ++ .node hd x z)))
    (hnested : (k.plug (b ++ .node hd x z)).Nested)
    (h : (Rule.viewFolding.apply f hd.op).Answers g) :
    g.WellFormed ∧ g.code.Nested ∧ f.Retains g := by
  obtain ⟨inner, w, w', u, source, r, v, supplied, supplied', vs, below, result, t, y, offsets, op,
    hready, hres, hsums, hsplice⟩ := splice_of_answers hr h
  have hnew : (y ++ .node (made op w offsets source vs v result) .nil .nil).Nested :=
    Code.nested_append.2 ⟨hsums.nested, .inr rfl, trivial, trivial⟩
  refine hr.retains hnested (OpKind.isPure_of_window hready.window) hsplice.grows hsplice.represents ?_
    (hnew.rename _) ?_ fun hf v' hv' => ?_
  · intro n hn
    rcases hsums.kinds hn with (hk | ⟨i, hk⟩) | rfl
    · rw [hk]
      rfl
    · rw [hk]
      rfl
    · rfl
  · intro n hn hkind r hres
    rcases hsums.kinds hn with (hk | ⟨i, hk⟩) | rfl
    · simp [hk, OpKind.window?] at hkind
    · simp [hk, OpKind.window?] at hkind
    · cases hres
      simp
  · rw [hd.redirect_of_result hres]
    exact Function.swapped_of_ne
      (hf.ne_of_index hr (Spine.mem_heads_at k b x z hd) (.inr hready.window) hres hv')

end Rules

namespace Greedy

variable {f : Function}

theorem keeps_retains (f : Function) : Keeps (fun _ => True)
    (fun g => g.WellFormed ∧ g.code.Nested ∧ f.Retains g) Rule.viewCleanup where
  wellFormed _ h := h.1
  sheds _ _ _ _ _ _ _ h hs := by
    obtain ⟨hwf, hnested, hretains⟩ := hs.retains h.2.1
    exact ⟨hwf, hnested, h.2.2.trans hretains⟩
  rule rule hrule g k b hd x z h hr := by
    obtain ⟨hwf, hnested, hretains⟩ := h
    rw [hr.code_eq] at hnested
    refine Ends.of_eq_ok fun r hrun g' hg' => ?_
    have hanswers : (rule.apply g hd.op).Answers g' := by rw [Inspect.Answers, hrun, hg']
    obtain ⟨hwf', hnested', hretains'⟩ : g'.WellFormed ∧ g'.code.Nested ∧ g.Retains g' := by
      simp only [Rule.viewCleanup, List.mem_cons, List.not_mem_nil, or_false] at hrule
      rcases hrule with rfl | rfl
      · exact Reallocation.retains hr hnested hanswers
      · exact ViewFolding.retains hr hnested hanswers
    exact ⟨⟨hwf', hnested', hretains.trans hretains'⟩, hretains'.grows.ops⟩

theorem ends_viewCleanup (hwf : f.WellFormed) (hnested : f.code.Nested) (maxSweeps : Nat) :
    Ends (fun fault => f.Built → fault = .overflow) (run Rule.viewCleanup maxSweeps f).outcome fun r =>
      r.1.WellFormed ∧ r.1.code.Nested ∧ f.Retains r.1 := by
  have hrun := (keeps_retains f).run maxSweeps ⟨hwf, hnested, .refl f⟩
  have hbuilt : f.Built → Yields True (run Rule.viewCleanup maxSweeps f).outcome fun _ => True :=
    fun h => (ends_overflow.1 ((keeps_built _).run maxSweeps h)).mono fun _ _ _ => trivial
  cases hout : (run Rule.viewCleanup maxSweeps f).outcome with
  | ok r => exact hrun.of_ok hout
  | error fault =>
    rw [hout] at hbuilt
    exact fun h => (hbuilt h).1

end Greedy

end KernelLowering
