import KernelLowering.Proofs.Convergence.Checks
import KernelLowering.Proofs.Convergence.Fixpoints
import KernelLowering.Proofs.Safety.Rules
import KernelLowering.Proofs.Scope.Tidy

namespace KernelLowering

theorem Operation.tail_operands {o : Operation} {supplied : List ValueId}
    (h : o.offsetOperands = .ok supplied) : o.operands.tail = supplied := by
  unfold offsetOperands at h
  split at h
  · cases h
  · next hops =>
    cases h
    rw [hops, List.tail_cons]

namespace Rule

variable {f : Function} {rule : Rule} {h : Node}

theorem of_canonical_check (hrule : rule ∈ canonicalization)
    (hop : ∃ parent region, f.op? h.op = some (h.record parent region))
    (hcheck : (rule.check f h.op).Answers ()) :
    (∃ r ∈ h.kind.loopRanges, r.values.length ≤ 1) ∨ h.kind = .addIndex ∨
      h.kind.window?.isSome = true ∧ ∃ v ∈ h.operands.tail, ∃ n, f.constant? v = .ok (some n) := by
  obtain ⟨parent, region, hop⟩ := hop
  simp only [canonicalization, List.mem_cons, List.not_mem_nil, or_false] at hrule
  rcases hrule with rfl | rfl | rfl
  · simp only [check, TrivialLoops.check, Inspect.answers_bind, Inspect.answers_lift,
      Function.op_eq_ok.2 hop, Except.ok.injEq, exists_eq_left'] at hcheck
    split at hcheck
    · simp at hcheck
    rw [Inspect.answers_bind] at hcheck
    obtain ⟨found, hfound, hcheck⟩ := hcheck
    cases found with
    | false => simp at hcheck
    | true =>
      obtain ⟨r, hr, hone⟩ := Inspect.answers_anyM hfound
      simp only [Inspect.answers_bind, Inspect.answers_lift, Inspect.answers_pure] at hone
      obtain ⟨n, hn, hone⟩ := hone
      obtain rfl := r.yields_tripCount.of_ok hn
      exact .inl ⟨r, hr, by exact_mod_cast of_decide_eq_true hone⟩
  · refine .inr (.inl ?_)
    by_contra hkind
    simp [check, AdditionFolding.check, Function.op_eq_ok.2 hop, Node.record, hkind] at hcheck
  · refine .inr (.inr ?_)
    simp only [check, OffsetFolding.check, Operation.window, Inspect.answers_bind,
      Inspect.answers_lift, Function.op_eq_ok.2 hop, Except.ok.injEq, exists_eq_left',
      Inspect.answers_discard, Inspect.answers_orDecline] at hcheck
    obtain ⟨-, ⟨w, hw⟩, supplied, hsupplied, found, hfound, hcheck⟩ := hcheck
    cases found with
    | false => simp at hcheck
    | true =>
      obtain ⟨v, hv, hconstant⟩ := Inspect.answers_anyM hfound
      simp only [Inspect.answers_bind, Inspect.answers_lift, Inspect.answers_pure] at hconstant
      obtain ⟨n, hn, hsome⟩ := hconstant
      obtain ⟨n, rfl⟩ := Option.isSome_iff_exists.1 hsome
      exact ⟨Option.isSome_iff_exists.2 ⟨w, hw⟩, v, (Operation.tail_operands hsupplied).symm ▸ hv, n, hn⟩

theorem cleansViews_of_mem_canonicalization (hrule : rule ∈ canonicalization) :
    rule.cleansViews = false := by
  simp only [canonicalization, List.mem_cons, List.not_mem_nil, or_false] at hrule
  rcases hrule with rfl | rfl | rfl <;> rfl

end Rule

def Function.Canonical (f : Function) (op : OpId) : Prop :=
  ∀ rule ∈ Rule.canonicalization, rule.Declines f op

def Node.Foldable (f : Function) (h : Node) : Prop :=
  h.kind = .addIndex ∨ h.kind.window?.isSome = true → h.Made f

instance (f : Function) (h : Node) : Decidable (h.Foldable f) :=
  inferInstanceAs (Decidable (h.kind = .addIndex ∨ h.kind.window?.isSome = true → h.Made f))

theorem Node.Foldable.of_other {f : Function} {h : Node} (hadd : h.kind ≠ .addIndex)
    (hwindow : h.kind.window? = none) : h.Foldable f := by
  rintro (hk | hw)
  · exact (hadd hk).elim
  · simp [hwindow] at hw

namespace Function

variable {f g : Function} {k : Spine} {b x z c : Code} {hd h : Node} {σ : ValueId → ValueId}
  {new : List Node}

theorem canonical_of_constant (hr : f.Represents c) (hh : h ∈ c.heads) {n : Int}
    (hkind : h.kind = .constant n) : f.Canonical h.op := by
  intro rule hrule hcheck
  rcases Rule.of_canonical_check hrule (hr.exists_record hh) hcheck with ⟨r, hr, -⟩ | hadd | ⟨hw, -⟩
  · simp [hkind, OpKind.loopRanges] at hr
  · simp [hkind] at hadd
  · simp [hkind, OpKind.window?] at hw

theorem canonical_of_loop (hr : f.Represents c) (hh : h ∈ c.heads) (hloop : h.kind.isLoop = true)
    (hranges : ∀ r ∈ h.kind.loopRanges, 1 < r.values.length) : f.Canonical h.op := by
  intro rule hrule hcheck
  rcases Rule.of_canonical_check hrule (hr.exists_record hh) hcheck with ⟨r, hr, hle⟩ | hadd | ⟨hw, -⟩
  · exact absurd (hranges r hr) (by omega)
  · rw [hadd] at hloop
    cases hloop
  · obtain ⟨w, hw⟩ := Option.isSome_iff_exists.1 hw
    rw [OpKind.window?_eq_some.1 hw] at hloop
    cases hloop

theorem canonical_of_subView (hr : f.Represents c) (hh : h ∈ c.heads) {w : Window}
    (hkind : h.kind = .subView w) (hops : ∀ v ∈ h.operands.tail, f.constant? v = .ok none) :
    f.Canonical h.op := by
  intro rule hrule hcheck
  rcases Rule.of_canonical_check hrule (hr.exists_record hh) hcheck with
    ⟨r, hr, -⟩ | hadd | ⟨-, v, hv, n, hn⟩
  · simp [hkind, OpKind.loopRanges] at hr
  · simp [hkind] at hadd
  · rw [hops v hv] at hn
    cases hn

structure Reduces (f g : Function) (k : Spine) (b : Code) (hd : Node) (x z : Code)
    (σ : ValueId → ValueId) (new : List Node) : Prop where
  replaces : f.Replaces g k b x z σ new
  nested : g.code.Nested
  fixes : ∀ v, v ∉ hd.defined → σ v = v
  renames : ∀ v ∈ hd.defined, σ v = v ∨ σ v ∈ hd.operands ∨ ¬ f.Has (σ v)
  has : ∀ v, f.Has v → g.Has (σ v)
  takes : ∀ h ∈ new, ∀ v ∈ h.operands, v ∈ hd.operands
  canonical : ∀ h ∈ new, g.Canonical h.op
  foldable : hd.Foldable f → f.RespectsBuffers g σ ∧ ∀ h ∈ new, h.Foldable g

namespace Reduces

variable (hred : f.Reduces g k b hd x z σ new) (hf : f.Forward)
  (hr : f.Represents (k.plug (b ++ .node hd x z)))

include hred hf hr

theorem not_mem_defined (later : Node) {v : ValueId}
    (hv : v ∉ later.defined) (hbehind : v ∈ hd.defined → later ∈ x.heads ++ k.behind z) :
    σ v ∉ later.defined := by
  by_cases hdef : v ∈ hd.defined
  · have hin := hbehind hdef
    rcases hred.renames v hdef with hsame | hop | hnew
    · rwa [hsame]
    · have hpairs := hr.code_eq ▸ hf.pairwise
      rw [Spine.heads_at, List.pairwise_append] at hpairs
      exact (List.pairwise_cons.1 hpairs.2.1).1 later hin _ hop
    · refine fun hl => hnew (hr.has_of_mem (List.mem_flatMap.2 ⟨later, ?_, hl⟩))
      exact Spine.mem_heads_iff.2 (.inr (.inr (List.mem_append.1 hin)))
  · rwa [hred.fixes v hdef]

theorem has_of_mem_new {n : Node} (hn : n ∈ new) {v : ValueId} (hv : v ∈ n.operands) : f.Has v :=
  hf.has_at hr (Spine.mem_heads_at k b x z hd) (hred.takes n hn v hv)

theorem forward : g.Forward where
  wellFormed := hred.replaces.wellFormed
  nested := hred.nested
  has h' hh v hv := by
    rcases hred.replaces.cases hh with hnew | ⟨h₁, hh₁, rfl⟩
    · exact hred.replaces.grows.has (hred.has_of_mem_new hf hr hnew hv)
    · obtain ⟨u, hu, rfl⟩ := List.mem_map.1 hv
      exact hred.has u (hf.has_at hr (Spine.mem_heads_iff.2 (hh₁.imp_right .inr)) hu)
  apart h' hh v hv := by
    rcases hred.replaces.cases hh with hnew | ⟨h₁, hh₁, rfl⟩
    · exact fun hdef => hred.replaces.values h' hnew v hdef (hred.has_of_mem_new hf hr hnew hv)
    · obtain ⟨u, hu, rfl⟩ := List.mem_map.1 hv
      have hin : h₁ ∈ f.code.heads := hr.code_eq ▸ Spine.mem_heads_iff.2 (hh₁.imp_right .inr)
      refine hred.not_mem_defined hf hr h₁ (hf.apart h₁ hin u hu) fun hdef =>
        hh₁.elim (fun hbefore => ?_) List.mem_append.2
      exact ((hf.not_defined_behind hr hbefore hu).1 hdef).elim
  pairwise := by
    have hpairs := hr.code_eq ▸ hf.pairwise
    rw [Spine.heads_at, List.pairwise_append, List.pairwise_cons] at hpairs
    obtain ⟨hbefore, ⟨hcursor, hbehind⟩, hacross⟩ := hpairs
    obtain ⟨kept, hkept, hheads⟩ := hred.replaces.heads
    have hsub : (kept ++ k.behind z).Sublist (x.heads ++ k.behind z) := by
      rcases hkept with rfl | rfl
      · exact .refl _
      · exact List.sublist_append_right _ _
    -- What comes before keeps the names of all that it takes.
    have hfixed : ∀ h₁ ∈ k.before b, ∀ v ∈ h₁.operands, σ v = v := fun h₁ hh₁ v hv =>
      hred.fixes v (hf.not_defined_behind hr hh₁ hv).1
    have hknown : ∀ h₁ ∈ k.before b, ∀ v ∈ h₁.operands, f.Has v := fun h₁ hh₁ v hv =>
      hf.has_at hr (Spine.mem_heads_iff.2 (.inl hh₁)) hv
    rw [hheads, List.pairwise_append, List.pairwise_append, List.pairwise_map, List.pairwise_map]
    refine ⟨⟨hbefore.imp_of_mem fun {h₁ later} hh₁ _ hpair => ?_, ?_, ?_⟩,
      (hbehind.sublist hsub).imp_of_mem fun {h₁ later} hh₁ hlater hpair => ?_, ?_⟩
    · exact List.forall_mem_map.2 fun u hu => by rw [hfixed h₁ hh₁ u hu]; exact hpair u hu
    · exact List.pairwise_of_forall_mem_list fun n hn later hlater v hv hdef =>
        hred.replaces.values later hlater v hdef (hred.has_of_mem_new hf hr hn hv)
    · refine List.forall_mem_map.2 fun h₁ hh₁ n hn => List.forall_mem_map.2 fun u hu hdef => ?_
      rw [hfixed h₁ hh₁ u hu] at hdef
      exact hred.replaces.values n hn u hdef (hknown h₁ hh₁ u hu)
    · exact List.forall_mem_map.2 fun u hu =>
        hred.not_mem_defined hf hr later (hpair u hu) fun _ => hsub.mem hlater
    · intro h' hh' later' hlater'
      obtain ⟨later, hlater, rfl⟩ := List.mem_map.1 hlater'
      rcases List.mem_append.1 hh' with hh' | hnew
      · obtain ⟨h₁, hh₁, rfl⟩ := List.mem_map.1 hh'
        refine List.forall_mem_map.2 fun u hu => ?_
        rw [hfixed h₁ hh₁ u hu]
        exact hacross h₁ hh₁ later (List.mem_cons_of_mem _ (hsub.mem hlater)) u hu
      · exact fun v hv => hcursor later (hsub.mem hlater) v (hred.takes h' hnew v hv)

theorem canonical_before (h₁ : Node) (hh₁ : h₁ ∈ k.before b) (hc : f.Canonical h₁.op) :
    g.Canonical h₁.op := by
  intro rule hrule
  refine hred.replaces.declines hr (.inl hh₁) (fun v hv => ?_)
    (Rule.cleansViews_of_mem_canonicalization hrule) (hc rule hrule)
  obtain ⟨hv₁, hv₂⟩ := hf.not_defined_behind hr hh₁ hv
  exact ⟨hf.has_at hr (Spine.mem_heads_iff.2 (.inl hh₁)) hv, hred.fixes v hv₁, hv₁, hv₂⟩

omit hf in
theorem foldable_heads (hfold : ∀ h₁ ∈ f.code.heads, h₁.Foldable f) :
    ∀ h' ∈ g.code.heads, h'.Foldable g := by
  intro h' hh
  obtain ⟨hσ, hnew⟩ := hred.foldable (hfold hd (hr.code_eq ▸ Spine.mem_heads_at k b x z hd))
  rcases hred.replaces.cases hh with hin | ⟨h₁, hh₁, rfl⟩
  · exact hnew h' hin
  · exact fun hk => hσ.made
      (hfold h₁ (hr.code_eq ▸ Spine.mem_heads_iff.2 (hh₁.imp_right .inr)) hk)

end Reduces

theorem Forward.reduces {w : ValueId} {y : Code} (hf : f.Forward)
    (hr : f.Represents (k.plug (b ++ .node hd x z)))
    (hsplice : Splice f g (k.rename (hd.redirect w)) (b.rename (hd.redirect w))
      (y.rename (hd.redirect w)) (z.rename (hd.redirect w)))
    (hnested : y.Nested) (htakes : ∀ n ∈ y.heads, ∀ v ∈ n.operands, v ∈ hd.operands)
    (hw : w ∈ hd.operands ∨ w ∈ y.defined)
    (hcanonical : ∀ n ∈ (y.rename (hd.redirect w)).heads, g.Canonical n.op)
    (hbuffer : hd.Foldable f → ∀ r t, hd.result = some (r, t) → f.sort? r = some .buffer →
      g.sort? w = some .buffer)
    (hmade : hd.Foldable f → ∀ n ∈ (y.rename (hd.redirect w)).heads, n.Foldable g) :
    f.Reduces g k b hd x z (hd.redirect w) (y.rename (hd.redirect w)).heads := by
  have hhd := Spine.mem_heads_at k b x z hd
  have hwg : g.Has w := by
    rcases hw with hop | hdef
    · exact hsplice.grows.has (hf.has_at hr hhd hop)
    · exact hsplice.has_defined (by rwa [Code.defined_rename])
  have hfresh : w ∈ y.defined → ¬ f.Has w := fun hdef =>
    Nat.not_lt.2 (hsplice.size_le (by rwa [Code.defined_rename]))
  refine ⟨hsplice.replaces, ?_, fun v hv => hd.redirect_of_not_mem hv w, fun v _ => ?_, fun v hv => ?_,
    fun n hn v hv => ?_, hcanonical, fun hfold =>
      ⟨hsplice.grows.respectsBuffers_redirect hwg (hbuffer hfold), hmade hfold⟩⟩
  · rw [hsplice.represents.code_eq]
    exact (Spine.nested_splice (hr.code_eq ▸ hf.nested)).2 _ _ (hnested.rename _)
  · refine (hd.redirect_cases w v).imp_right fun he => ?_
    rw [he]
    exact hw.imp_right hfresh
  · rcases hd.redirect_cases w v with he | he
    · rw [he]
      exact hsplice.grows.has hv
    · rwa [he]
  · rw [Code.heads_rename, List.mem_map] at hn
    obtain ⟨n', hn', rfl⟩ := hn
    obtain ⟨u, hu, rfl⟩ := List.mem_map.1 hv
    have hop := htakes n' hn' u hu
    rwa [hd.redirect_of_not_mem (hf.apart hd (hr.code_eq ▸ hhd) u hop)]

end Function

variable {f g : Function} {k : Spine} {b x z : Code} {hd : Node}

namespace AdditionFolding

theorem reduces (hf : f.Forward) (hr : f.Represents (k.plug (b ++ .node hd x z)))
    (hg : (Rule.additionFolding.apply f hd.op).Answers g) :
    ∃ σ new, f.Reduces g k b hd x z σ new := by
  obtain ⟨⟨⟩, hcheck, -⟩ := Inspect.answers_bind.1 hg
  obtain ⟨hkind, lhs, rhs, rest, y, w, hops, -, -, hy, hsplice⟩ :=
    (gives_splice hr (ready_of_answers hr hcheck)).of_answers hg
  have hreplaces := hsplice.replaces (x := x)
  have hconstant : ∀ n ∈ y.heads, (∃ i, n.kind = .constant i) ∧ n.operands = [] := by
    cases hy with
    | constants op v => exact List.forall_mem_singleton.2 ⟨⟨_, rfl⟩, rfl⟩
    | right | left => simp [Code.heads]
  have hrenamed : ∀ n ∈ (y.rename (hd.redirect w)).heads, ∃ i, n.kind = .constant i := by
    rw [Code.heads_rename]
    exact List.forall_mem_map.2 fun n hn => (hconstant n hn).1
  have hnested : y.Nested := by
    cases hy with
    | constants op v => exact ⟨.inr rfl, trivial, trivial⟩
    | right | left => trivial
  have hw : w ∈ hd.operands ∨ w ∈ y.defined := by
    cases hy with
    | constants op v => exact .inr (List.mem_singleton_self _)
    | right | left => exact .inl (by simp [hops])
  refine ⟨_, _, hf.reduces hr hsplice hnested (fun n hn v hv => ?_) hw (fun n hn => ?_)
    (fun hfold r t hres hbuffer => ?_) fun _ n hn => ?_⟩
  · rw [(hconstant n hn).2] at hv
    cases hv
  · obtain ⟨i, hi⟩ := hrenamed n hn
    exact Function.canonical_of_constant hreplaces.wellFormed (hreplaces.mem_new hn) hi
  · obtain ⟨-, -, r', -, -, -, hres'⟩ := (hfold (.inl hkind)).operands_of_addIndex hkind
    rw [hr.sort?_result (Spine.mem_heads_at k b x z hd) hres] at hbuffer
    rw [hres, Option.some.injEq] at hres'
    cases hres'
    cases hbuffer
  · obtain ⟨i, hi⟩ := hrenamed n hn
    exact .of_other (by simp [hi]) (by rw [hi]; rfl)

theorem ready_of_foldable (h : hd.Foldable f) : Ready f hd := by
  intro hkind
  obtain ⟨lhs, rhs, r, hops, hl, hr, -⟩ := (h (.inl hkind)).operands_of_addIndex hkind
  exact ⟨lhs, rhs, [], hops, hl, hr⟩

end AdditionFolding

namespace OffsetFolding

theorem constant?_of_mem_remaining {c : Code} {w : Window} {supplied : List ValueId} {v : ValueId}
    (hv : v ∈ remaining c w supplied) : c.constant? v = none := by
  obtain ⟨o, -, hv⟩ := List.mem_flatMap.1 hv
  cases o with
  | supplied u =>
    simp only [folded] at hv
    split at hv
    · cases hv
    · rename_i hnone
      rw [List.mem_singleton.1 hv, hnone]
  | _ => cases hv

theorem reduces (hf : f.Forward) (hr : f.Represents (k.plug (b ++ .node hd x z)))
    (hg : (Rule.offsetFolding.apply f hd.op).Answers g) :
    ∃ σ new, f.Reduces g k b hd x z σ new := by
  obtain ⟨⟨⟩, -, hperform⟩ := Inspect.answers_bind.1 hg
  rw [Inspect.answers_lift] at hperform
  obtain ⟨w, source, supplied, type, hready⟩ := ready_of_ok hr hperform
  obtain ⟨op, v, result, -, hsplice⟩ := (yields_perform hr hready).of_ok hperform
  have hreplaces := hsplice.replaces (x := x)
  have hnew := hreplaces.mem_new (List.mem_singleton_self _)
  have hbuffer : g.sort? v = some .buffer := hsplice.sort?_rename (List.mem_singleton_self _) rfl
  have htakes : ∀ u ∈ source :: remaining (k.plug (b ++ .node hd x z)) w supplied, u ∈ hd.operands := by
    intro u hu
    rw [hready.operands, List.mem_cons]
    exact (List.mem_cons.1 hu).imp_right mem_remaining
  have hfix : ∀ u ∈ hd.operands, u ∉ hd.defined :=
    hf.apart hd (hr.code_eq ▸ Spine.mem_heads_at k b x z hd)
  have hbody : x = .nil :=
    Spine.body_eq_nil (hr.code_eq ▸ hf.nested) (by rw [hready.kind]; rfl)
  refine ⟨_, _, hf.reduces hr hsplice ⟨.inr rfl, trivial, trivial⟩
    (List.forall_mem_singleton.2 htakes) (.inr (List.mem_singleton_self _))
    (List.forall_mem_singleton.2 ?_) (fun _ _ _ _ _ => hbuffer)
    fun hfold => List.forall_mem_singleton.2 fun _ => ?_⟩
  · refine Function.canonical_of_subView hreplaces.wellFormed hnew rfl fun u hu => ?_
    simp only [Node.rename, Node.value, List.map_cons, List.tail_cons, List.mem_map] at hu
    obtain ⟨u, hu, rfl⟩ := hu
    have hop := htakes u (List.mem_cons_of_mem _ hu)
    have hhas := hf.has_at hr (Spine.mem_heads_at k b x z hd) hop
    rw [hd.redirect_of_not_mem (hfix u hop),
      Function.Represents.constant?_eq hreplaces.wellFormed (hreplaces.grows.has hhas),
      Code.constant?, hreplaces.definer?_eq hr hhas (hfix u hop) (by simp [hbody])]
    have hnone := constant?_of_mem_remaining hu
    rw [Code.constant?] at hnone
    cases hdefiner : (k.plug (b ++ .node hd x z)).definer? u with
    | none => rfl
    | some d =>
      rw [hdefiner] at hnone
      exact congrArg _ hnone
  · have hmade : (Node.value op (.subView (foldedWindow (k.plug (b ++ .node hd x z)) w supplied))
        (source :: remaining (k.plug (b ++ .node hd x z)) w supplied) v (.buffer result)).Made g :=
      .ofSubView (hsplice.grows.sort? (Function.sort?_of_bufferType? hready.source))
        (fun u hu => hsplice.grows.has
          (hf.has_at hr (Spine.mem_heads_at k b x z hd) (htakes u (List.mem_cons_of_mem _ hu))))
        (dynamicCount_foldedWindow.2 hready.count)
    have hsame : (Node.value op (.subView (foldedWindow (k.plug (b ++ .node hd x z)) w supplied))
        (source :: remaining (k.plug (b ++ .node hd x z)) w supplied) v (.buffer result)).rename
          (hd.redirect v) = _ :=
      Node.rename_of_fixed fun u hu => hd.redirect_of_not_mem (hfix u (htakes u hu)) v
    rwa [hsame]

end OffsetFolding

namespace TrivialLoops

variable {y : Code} {ρ : ValueId → ValueId} {new : List Node}

theorem Trimmings.replaces (h : Trimmings f x ρ y new)
    (hg : g.Represents ((k.rename ρ).plug (b.rename ρ ++ (y ++ z.rename ρ)))) (hgrows : f.Grows g) :
    f.Replaces g k b x z ρ new where
  wellFormed := hg.wellFormed
  grows := hgrows
  heads := by
    obtain ⟨kept, hkept, hheads⟩ := h.heads
    refine ⟨kept, hkept, ?_⟩
    rw [hg.code_eq, Spine.heads_splice, hheads, List.map_append]
    simp only [List.append_assoc]
  ops := h.ops
  values := h.values

theorem fresh_of_trimmed (ht : Trimmed f hd x ρ y) {v : ValueId} (hv : ρ v ≠ v) : ¬ f.Has (ρ v) := by
  cases ht with
  | never => exact (hv rfl).elim
  | once hdrops hnew =>
    exact hnew _ (hdrops.defined_eq ▸ (replaced_cases _ v).resolve_left hv)
  | loop op hdrops hloop hranges hlen hnew =>
    refine hnew _ ?_
    have hin := (replaced_cases _ v).resolve_left hv
    rw [List.map_append, List.map_snd_zip (by simp [hlen]), ← hdrops.defined_eq] at hin
    exact hin

theorem reduces (hf : f.Forward) (hr : f.Represents (k.plug (b ++ .node hd x z)))
    (hg : (Rule.trivialLoops.apply f hd.op).Answers g) :
    ∃ σ new, f.Reduces g k b hd x z σ new := by
  obtain ⟨⟨⟩, -, hperform⟩ := Inspect.answers_bind.1 hg
  rw [Inspect.answers_lift] at hperform
  obtain ⟨ρ, y, ht, ⟨new, hnew⟩, hrep, hgrows⟩ := (yields_trim hr).of_ok hperform
  have hreplaces := hnew.replaces hrep hgrows
  have hrespects := respectsBuffers hr hrep hgrows ht
  have hcode := hr.code_eq ▸ hf.nested
  refine ⟨ρ, new, hreplaces, ?_, fun v hv => vars_of_trimmed hr ht fun hm =>
      hv (List.mem_append_right _ hm),
    fun v _ => (eq_or_ne (ρ v) v).imp_right fun hne => .inr (fresh_of_trimmed ht hne),
    hrespects.has, fun n hn v hv => ?_, fun n hn => ?_, fun _ => ⟨hrespects, fun n hn => ?_⟩⟩
  · rw [hrep.code_eq]
    exact (Spine.nested_splice hcode).2 ρ y (ht.nested (Spine.nested_body hcode))
  · rw [hnew.operands n hn] at hv
    cases hv
  · rcases hnew.kinds n hn with ⟨i, hi⟩ | ⟨hloop, hranges⟩
    · exact Function.canonical_of_constant hreplaces.wellFormed (hreplaces.mem_new hn) hi
    · exact Function.canonical_of_loop hreplaces.wellFormed (hreplaces.mem_new hn) hloop hranges
  · rcases hnew.kinds n hn with ⟨i, hi⟩ | ⟨hloop, -⟩
    · exact .of_other (by simp [hi]) (by rw [hi]; rfl)
    · cases hk : n.kind <;> simp_all [OpKind.isLoop, Node.Foldable, OpKind.window?]

end TrivialLoops

namespace Rule

variable {rule : Rule}

theorem reduces_of_answers (hrule : rule ∈ canonicalization) (hf : f.Forward)
    (hr : f.Represents (k.plug (b ++ .node hd x z))) (hg : (rule.apply f hd.op).Answers g) :
    ∃ σ new, f.Reduces g k b hd x z σ new := by
  simp only [canonicalization, List.mem_cons, List.not_mem_nil, or_false] at hrule
  rcases hrule with rfl | rfl | rfl
  · exact TrivialLoops.reduces hf hr hg
  · exact AdditionFolding.reduces hf hr hg
  · exact OffsetFolding.reduces hf hr hg

theorem gives_of_foldable (hrule : rule ∈ canonicalization) (hfold : hd.Foldable f)
    (hr : f.Represents (k.plug (b ++ .node hd x z))) :
    (rule.apply f hd.op).Gives True fun _ => True := by
  simp only [canonicalization, List.mem_cons, List.not_mem_nil, or_false] at hrule
  rcases hrule with rfl | rfl | rfl
  · rw [apply, Inspect.gives_bind]
    refine (TrivialLoops.gives_check hr).mono fun _ _ _ => ?_
    rw [Inspect.gives_lift]
    exact (TrivialLoops.yields_trim hr).mono fun _ _ _ => trivial
  · exact (AdditionFolding.gives_splice hr (AdditionFolding.ready_of_foldable hfold)).mono
      fun _ _ _ => trivial
  · refine (OffsetFolding.gives_splice hr fun w hkind => ?_).mono fun _ _ _ => trivial
    exact OffsetFolding.ready_of_made (hfold (.inr (by rw [hkind]; rfl))) hkind

end Rule

end KernelLowering
