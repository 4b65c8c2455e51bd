import KernelLowering.Proofs.Convergence.Layers
import KernelLowering.Proofs.Convergence.Reduction
import KernelLowering.Proofs.Scope.Runs

namespace KernelLowering

namespace Greedy

variable {faults : Fault → Prop} {P : Function → Prop}

theorem Keeps.settles_canonicalization (h : Keeps faults P Rule.canonicalization)
    (hforward : ∀ f, P f → f.Forward) : Settles faults Rule.canonicalization fun f done =>
      P f ∧ ∀ h ∈ done, f.Canonical h.op where
  wellFormed hf := h.wellFormed _ hf.1
  change := by
    rintro f k b hd x z hr ⟨hP, hdone⟩ rule hrule
    refine Inspect.EndsWith.mono (h.rule rule hrule hP hr) fun g hg hPg => ?_
    have hf := hforward f hP
    obtain ⟨σ, new, hred⟩ := Rule.reduces_of_answers hrule hf hr hg
    refine ⟨σ, new, hred.replaces, hPg.1, List.forall_mem_append.2 ⟨?_, hred.canonical⟩⟩
    exact List.forall_mem_map.2 fun h₁ hh₁ => hred.canonical_before hf hr h₁ hh₁ (hdone h₁ hh₁)
  skip := by
    rintro f k b hd x z hr ⟨hP, hdone⟩ hdeclines
    exact ⟨hP, List.forall_mem_append.2 ⟨hdone, List.forall_mem_singleton.2 hdeclines⟩⟩

theorem Keeps.converges_canonicalization (h : Keeps faults P Rule.canonicalization)
    (hforward : ∀ f, P f → f.Forward) : Converges faults Rule.canonicalization 1 fun n f =>
      P f ∧ (n = 1 → ∀ h ∈ f.code.heads, f.Canonical h.op) :=
  (h.settles_canonicalization hforward).converges
    (fun f g k b x z hd hP hcanonical hs => ⟨h.sheds f g k b x z hd hP hs, fun h' hh' rule hrule => by
      have hf := hforward f hP
      obtain rfl : x = .nil := hs.body_eq_nil hf.nested
      exact hs.declines hf.has hh' (Rule.cleansViews_of_mem_canonicalization hrule)
        fun h hh => hcanonical h hh rule hrule⟩)
    (fun hP hr rule hrule => (h.rule rule hrule hP hr).mono fun _ _ _ => fun _ _ => trivial)
    fun _ _ _ _ hcanonical => hcanonical

end Greedy

namespace Function

variable {f g : Function} {k : Spine} {b x z c : Code} {hd h : Node} {σ : ValueId → ValueId}
  {new : List Node}

theorem Replaces.rankIn_of_fresh {rank : ValueId → Nat} {v : ValueId}
    (hg : f.Replaces g k b x z σ new) (hr : f.Represents (k.plug (b ++ .node hd x z)))
    (hnew : ∀ n ∈ new, n.kind.window? = none) (hv : ¬ f.Has v) : f.rankIn g rank v = 0 := by
  refine rankIn_of_no_window hv fun n hn hw hdef => ?_
  rcases hg.cases hn with hn | ⟨n₁, hn₁, rfl⟩
  · simp [hnew n hn] at hw
  · exact hv (hr.has_of_mem
      (List.mem_flatMap.2 ⟨n₁, Spine.mem_heads_iff.2 (hn₁.imp_right .inr), hdef⟩))

theorem Sorted.rank_eq_zero (hs : f.Sorted) (hr : f.Represents c) {rank : ValueId → Nat}
    (hrank : Ranking c.heads rank) {v : ValueId} (hv : f.sort? v = some .index) : rank v = 0 := by
  refine hrank.flat v fun h hh hw hdef => ?_
  obtain ⟨w, hw⟩ := Option.isSome_iff_exists.1 hw
  rw [OpKind.window?_eq_some] at hw
  obtain ⟨-, -, r, type, -, -, -, -, hres⟩ := (hr.sorted_iff.1 hs h hh).of_subView hw
  rw [hr.defined_of_result hh (by rw [hw]; rfl) hres] at hdef
  obtain rfl := List.mem_singleton.1 hdef
  rw [hr.sort?_result hh hres] at hv
  cases hv

end Function

namespace AdditionFolding

variable {f g : Function} {k : Spine} {b x z : Code} {hd : Node}

theorem gives_layered (h : f.Orderly) (hr : f.Represents (k.plug (b ++ .node hd x z))) :
    (Rule.additionFolding.apply f hd.op).Gives True fun g => Layered g.code.heads := by
  have hhd := Spine.mem_heads_at k b x z hd
  refine (gives_splice hr fun hkind => ?_).mono ?_
  · obtain ⟨lhs, rhs, r, hops, hl, hr', -⟩ := (hr.sorted_at h.sorted).of_addIndex hkind
    exact ⟨lhs, rhs, [], hops, Function.has_of_sort? hl, Function.has_of_sort? hr'⟩
  rintro g - ⟨hkind, lhs, rhs, rest, y, w, hops, hl, hr', hy, hsplice⟩
  obtain ⟨lhs', rhs', r, hops', hsl, hsr, hres⟩ := (hr.sorted_at h.sorted).of_addIndex hkind
  rw [hops', List.cons.injEq, List.cons.injEq] at hops
  obtain ⟨rfl, rfl, -⟩ := hops
  have hreplaces : f.Replaces g k b x z (hd.redirect w) (y.rename (hd.redirect w)).heads :=
    hsplice.replaces
  have hconstant : ∀ n ∈ (y.rename (hd.redirect w)).heads, ∃ i, n.kind = .constant i := by
    cases hy with
    | constants op v => exact List.forall_mem_singleton.2 ⟨_, rfl⟩
    | right | left => simp [Code.rename, Code.heads]
  have hother : ∀ n ∈ (y.rename (hd.redirect w)).heads, n.kind.window? = none := fun n hn => by
    obtain ⟨i, hi⟩ := hconstant n hn
    rw [hi]
    rfl
  refine hreplaces.layered_of_fixed hr (hr.code_eq ▸ h.layered) (h.has hr)
    (fun rank _ n hn => .of_other (hother n hn) ?_) (fun v hv => hd.redirect_of_not_mem hv w)
    (fun rank hrank v hv _ => ?_) (fun _ _ _ => by simp [hkind]) (fun v hv => ?_)
    (fun n hn hview => ?_)
  · obtain ⟨i, hi⟩ := hconstant n hn
    rw [hi]
    rfl
  · rw [hr.defined_of_result hhd (by rw [hkind]; rfl) hres] at hv
    obtain rfl := List.mem_singleton.1 hv
    rw [hd.redirect_of_result hres, Function.swapped_self]
    have hzero : f.rankIn g rank w = 0 := by
      cases hy with
      | constants op v =>
        refine hreplaces.rankIn_of_fresh hr hother fun hhas => ?_
        exact hreplaces.values _ (List.mem_singleton_self _) w (by simp [Node.defined, Node.rename, Node.value])
          hhas
      | right => rw [Function.rankIn_of_has hr', h.sorted.rank_eq_zero hr hrank hsr]
      | left => rw [Function.rankIn_of_has hl, h.sorted.rank_eq_zero hr hrank hsl]
    omega
  · rw [h.tidy.body_eq_nil hr (by rw [hkind]; rfl)] at hv
    simp at hv
  · obtain ⟨i, hi⟩ := hconstant n hn
    simp [hi] at hview

end AdditionFolding

namespace OffsetFolding

variable {f g : Function} {k : Spine} {b x z : Code} {hd : Node}

theorem gives_layered (h : f.Orderly) (hr : f.Represents (k.plug (b ++ .node hd x z))) :
    (Rule.offsetFolding.apply f hd.op).Gives True fun g => Layered g.code.heads := by
  have hhd := Spine.mem_heads_at k b x z hd
  refine (gives_splice hr fun w hkind => ready_of_sorted (hr.sorted_at h.sorted) hkind).mono ?_
  rintro g - ⟨w, source, supplied, type, op, v, result, hready, -, hsplice⟩
  obtain ⟨source', supplied', r, t, hops, -, -, -, hres⟩ :=
    (hr.sorted_at h.sorted).of_subView hready.kind
  rw [hready.operands, List.cons.injEq] at hops
  obtain ⟨rfl, rfl⟩ := hops
  have hwindow : hd.kind.window?.isSome = true := by rw [hready.kind]; rfl
  have hreplaces := hsplice.replaces (x := x)
  have hfix : ∀ u, u ∉ hd.defined → hd.redirect v u = u := fun u hu => hd.redirect_of_not_mem hu v
  have hin : source ∈ hd.operands := hready.operands ▸ List.mem_cons_self
  have hhas : f.Has source := h.has hr hd hhd source hin
  have hdef : source ∉ hd.defined := h.tidy.forward.apart hd (hr.code_eq ▸ hhd) source hin
  have hfresh : ¬ f.Has v :=
    hreplaces.values _ (List.mem_singleton_self _) v (by simp [Node.defined, Node.rename, Node.value])
  -- The new sub-view lies next above the source, below which the old one lay.
  have hrankIn : ∀ rank, f.rankIn g rank v = rank source + 1 := by
    intro rank
    rw [Function.rankIn_of_window hreplaces.wellFormed hfresh (hreplaces.mem_new (List.mem_singleton_self _))
      rfl rfl (u := source) (by simp [Node.rename, Node.value, hfix source hdef]),
      Function.rankBelow_of_has hhas]
  have hbelow : ∀ rank, Ranking (k.plug (b ++ .node hd x z)).heads rank →
      rank source < rank r ∧ rank r ≤ 2 := fun rank hrank =>
    (hrank.ranked hd hhd).view hwindow source (by simp [hready.operands]) _ hres
  refine hreplaces.layered_of_fixed hr (hr.code_eq ▸ h.layered) (h.has hr)
    (fun rank hrank => List.forall_mem_singleton.2 ⟨fun _ u hu p hp => ?_, fun hk => (by cases hk)⟩)
    hfix (fun rank hrank u hu _ => ?_) (fun _ _ _ => by simp [hready.kind]) (fun u hu => ?_)
    (List.forall_mem_singleton.2 fun hview => by cases hview)
  · obtain rfl : source = u := by simpa [Node.rename, Node.value, hfix source hdef] using hu
    obtain rfl : (v, ValueType.buffer result) = p := by simpa [Node.rename, Node.value] using hp
    obtain ⟨hlt, hle⟩ := hbelow rank hrank
    rw [hrankIn, Function.rankIn_of_has hhas]
    omega
  · rw [hr.defined_of_result hhd (by rw [hready.kind]; rfl) hres] at hu
    obtain rfl := List.mem_singleton.1 hu
    rw [hd.redirect_of_result hres, Function.swapped_self, hrankIn]
    exact (hbelow rank hrank).1
  · rw [h.tidy.body_eq_nil hr (by rw [hready.kind]; rfl)] at hu
    simp at hu

end OffsetFolding

namespace TrivialLoops

variable {f g : Function} {k : Spine} {b x z : Code} {hd : Node}

theorem gives_layered (h : f.Orderly) (hr : f.Represents (k.plug (b ++ .node hd x z))) :
    (Rule.trivialLoops.apply f hd.op).Gives True fun g => g.Tidy → Layered g.code.heads := by
  rw [Rule.apply, Inspect.gives_bind]
  refine (gives_check hr).mono fun _ hcheck _ => ?_
  rw [Inspect.gives_lift]
  refine (yields_trim hr).mono ?_
  rintro g - ⟨ρ, y, ht, ⟨new, hnew⟩, hg, hgrows⟩ htidy
  have hloop := isLoop_of_answers hr hcheck
  have hreplaces := hnew.replaces hg hgrows
  have hfix : ∀ v, v ∉ hd.defined → ρ v = v := fun v hv =>
    vars_of_trimmed hr ht fun hm => hv (List.mem_append_right _ hm)
  have hother : ∀ n ∈ new, n.kind.window? = none ∧ n.kind.kernel? = none ∧ n.kind ≠ .view := by
    intro n hn
    rcases hnew.kinds n hn with ⟨i, hi⟩ | ⟨hl, -⟩
    · rw [hi]
      exact ⟨rfl, rfl, by simp⟩
    · cases hk : n.kind <;> simp_all [OpKind.isLoop, OpKind.window?, OpKind.kernel?]
  refine hreplaces.layered_of_fixed hr (hr.code_eq ▸ h.layered) (h.has hr)
    (fun rank _ n hn => .of_other (hother n hn).1 (hother n hn).2.1) hfix (fun rank _ v _ hv => ?_)
    (fun _ _ _ halloc => ?_) (fun v hv h' hh' hop => ?_) fun n hn hview => ?_
  · rw [hreplaces.rankIn_of_fresh hr (fun n hn => (hother n hn).1) (fresh_of_trimmed ht hv)]
    exact Nat.zero_le _
  · rw [halloc] at hloop
    cases hloop
  · refine (List.mem_append.1 (htidy.inScope.mem_operands hh' hop)).resolve_right fun harg => ?_
    rw [Function.arguments_congr hgrows.arity, Function.mem_arguments] at harg
    obtain ⟨h₁, hh₁, hdef⟩ := List.mem_flatMap.1 hv
    exact hr.not_argument (List.mem_flatMap.2 ⟨h₁, Spine.mem_heads_node.2 (.inr (.inl hh₁)), hdef⟩) harg
  · exact ((hother n hn).2.2 hview).elim

end TrivialLoops

namespace Greedy

theorem not_reallocation_mem_canonicalization {rule : Rule} {space : MemorySpace}
    (hrule : rule ∈ Rule.canonicalization) : rule ≠ .reallocation space := by
  rintro rfl
  simp [Rule.canonicalization] at hrule

theorem keeps_orderly : Keeps (· = .overflow) Function.Orderly Rule.canonicalization where
  wellFormed _ h := h.tidy.wellFormed
  sheds _ _ _ _ _ _ _ h hs := h.shed hs
  rule rule hrule f k b hd x z h hr := by
    have hspace : ∀ space, rule ≠ .reallocation space := fun _ =>
      not_reallocation_mem_canonicalization hrule
    have hlayered : (rule.apply f hd.op).Gives True fun g => g.Tidy → Layered g.code.heads := by
      simp only [Rule.canonicalization, List.mem_cons, List.not_mem_nil, or_false] at hrule
      rcases hrule with rfl | rfl | rfl
      · exact TrivialLoops.gives_layered h hr
      · exact (AdditionFolding.gives_layered h hr).mono fun _ _ hg _ => hg
      · exact (OffsetFolding.gives_layered h hr).mono fun _ _ hg _ => hg
    refine (hlayered.mono fun g hg hgives => ?_).endsWith
    obtain ⟨htidy, hgrows⟩ := Rule.tidy hspace h.tidy hr hg
    exact ⟨⟨htidy, (Rule.gives_sorted_of_tidy hspace h.tidy h.sorted hr).of_answers hg, hgives htidy⟩,
      hgrows.ops⟩

end Greedy

end KernelLowering
