import KernelLowering.Proofs.Convergence.Canonicalization
import KernelLowering.Proofs.Lifetime.Replacements

namespace KernelLowering

variable {f g : Function} {k : Spine} {b x y z : Code} {hd h : Node} {σ : ValueId → ValueId}
  {new : List Node}

namespace Function

theorem Represents.body_not_around (hr : f.Represents (k.plug (b ++ .node hd x z)))
    (hh : h ∈ x.heads) : h ∉ (k.plug (b ++ z)).heads := by
  have hnodup : ((k.plug (b ++ .node hd x z)).heads.map (·.op)).Nodup := by
    rw [← Code.ops_eq_map_heads]
    exact hr.nodup
  rw [Spine.heads_at, List.map_append, List.nodup_append', List.map_cons, List.nodup_cons,
    List.map_append, List.nodup_append'] at hnodup
  obtain ⟨-, ⟨-, -, -, hapart⟩, hdis⟩ := hnodup
  intro hin
  simp only [Spine.heads_plug_eq, Code.heads_append, List.mem_append] at hin
  have hop : h.op ∈ x.heads.map (·.op) := List.mem_map_of_mem hh
  rcases hin with hin | (hin | hin) | hin
  · exact hdis (List.mem_map_of_mem (List.mem_append_left _ hin))
      (List.mem_cons_of_mem _ (List.mem_append_left _ hop))
  · exact hdis (List.mem_map_of_mem (List.mem_append_right _ hin))
      (List.mem_cons_of_mem _ (List.mem_append_left _ hop))
  · exact hapart hop (List.mem_map_of_mem (List.mem_append_left _ hin))
  · exact hapart hop (List.mem_map_of_mem (List.mem_append_right _ hin))

theorem Inherits.of_index (hr : f.Represents (k.plug (b ++ .node hd x z))) (hs : f.Sorted)
    (hhas : ∀ h ∈ (k.plug (b ++ .node hd x z)).heads, ∀ v ∈ h.operands, f.Has v)
    (hg : g.Represents ((k.rename σ).plug (b.rename σ ++ (y ++ z.rename σ))))
    (hreplaces : f.Replaces g k b x z σ new) (hkind : hd.kind ≠ .alloc ∧ hd.kind ≠ .dealloc)
    (hfix : ∀ v, v ∉ hd.defined → σ v = v)
    (htells : ∀ u v, f.Has u → f.Has v → σ u = σ v →
      u = v ∨ f.sort? u = some .index ∧ f.sort? v = some .index)
    (hbody : ∀ v ∈ x.defined, ∀ h ∈ g.code.heads, v ∈ h.operands → v ∈ g.code.defined)
    (hbeside : ∀ a d, x.Beside a d → a.rename σ ∈ g.code.heads → y.Beside (a.rename σ) (d.rename σ))
    (hops : ∀ n ∈ new, n.operands = [])
    (hkinds : ∀ n ∈ new, (∃ i, n.kind = .constant i) ∨ n.kind.isLoop = true) :
    f.Inherits g k b x z hd σ y new where
  before := hr
  sorted := hs
  has := hhas
  after := hg
  replaces := hreplaces
  kind := hkind
  fixes := hfix
  tells := htells
  body := hbody
  beside := hbeside
  moves n hn hk := by
    rcases hkinds n hn with ⟨i, hi⟩ | hl
    · simp [hi] at hk
    · rcases hk with hk | hk <;> simp [hk, OpKind.isLoop] at hl
  views n hn hk w hw := by simp [hops n hn] at hw
  uses n hn u hu := by simp [hops n hn] at hu
  takes n hn u hu := by simp [hops n hn] at hu
  follows n hn hk := by
    rcases hkinds n hn with ⟨i, hi⟩ | hl
    · simp [hi, OpKind.shows] at hk
    · cases hkind : n.kind <;> simp_all [OpKind.isLoop, OpKind.shows]

theorem tended_of_index {Beside : Node → Node → Prop}
    (hkinds : ∀ n ∈ new, (∃ i, n.kind = .constant i) ∨ n.kind.isLoop = true) : Tended new Beside := by
  refine .of_plain fun n hn => ?_
  rcases hkinds n hn with ⟨i, hi⟩ | hl
  · simp [hi]
  · refine ⟨?_, ?_, ?_⟩ <;> rintro hk <;> simp [hk, OpKind.isLoop] at hl

end Function

namespace TrivialLoops

theorem gives_tended (h : f.Orderly) (ht : f.TendsBuffers) (hr : f.Represents (k.plug (b ++ .node hd x z))) :
    (Rule.trivialLoops.apply f hd.op).Gives True fun g => g.Tidy → g.TendsBuffers := by
  rw [Rule.apply, Inspect.gives_bind]
  refine (gives_check hr).mono fun _ hcheck _ => ?_
  rw [Inspect.gives_lift]
  refine (yields_trim hr).mono ?_
  rintro g - ⟨ρ, y, htrim, ⟨new, hnew⟩, hg, hgrows⟩ htidy
  have hhd := Spine.mem_heads_at k b x z hd
  have hloop := isLoop_of_answers hr hcheck
  have hkinds : ∀ n ∈ new, (∃ i, n.kind = .constant i) ∨ n.kind.isLoop = true := fun n hn =>
    (hnew.kinds n hn).imp_right And.left
  have hmoved : ∀ v, ρ v ≠ v → f.sort? v = some .index := fun v hne =>
    hr.sort?_var hhd (not_not.1 fun hout => hne (vars_of_trimmed hr htrim hout))
  have hinherits : f.Inherits g k b x z hd ρ y new := by
    refine .of_index hr h.sorted (h.has hr) hg (hnew.replaces hg hgrows) ?_
      (fun v hv => vars_of_trimmed hr htrim fun hm => hv (List.mem_append_right _ hm))
      (fun u v hu hv he => ?_) (fun v hv h' hh' hop => ?_) (fun a d hbeside hin => ?_) hnew.operands hkinds
    · cases hk : hd.kind <;> simp_all [OpKind.isLoop]
    · by_cases hu' : ρ u = u
      · by_cases hv' : ρ v = v
        · exact .inl (by rw [← hu', he, hv'])
        · exact absurd (he ▸ hu'.symm ▸ hu) (fresh_of_trimmed htrim hv')
      · by_cases hv' : ρ v = v
        · exact absurd (he ▸ hv'.symm ▸ hv) (fresh_of_trimmed htrim hu')
        · exact .inr ⟨hmoved u hu', hmoved v hv'⟩
    · refine (List.mem_append.1 (htidy.inScope.mem_operands hh' hop)).resolve_right fun harg => ?_
      rw [Function.arguments_congr hgrows.arity, Function.mem_arguments] at harg
      obtain ⟨h₁, hh₁, hdef⟩ := List.mem_flatMap.1 hv
      exact hr.not_argument (List.mem_flatMap.2 ⟨h₁, Spine.mem_heads_node.2 (.inr (.inl hh₁)), hdef⟩) harg
    · cases htrim with
      | never =>
        rw [hg.code_eq] at hin
        refine (hr.body_not_around hbeside.mem_heads.1 ?_).elim
        simpa using hin
      | once => exact Code.beside_append.2 (.inr (.inl (hbeside.rename _)))
      | loop => exact Code.beside_append.2 (.inr (.inl (.inr (.inl (hbeside.rename _)))))
  rw [Function.TendsBuffers, hr.code_eq] at ht
  exact hinherits.tended ht (Function.tended_of_index hkinds)

end TrivialLoops

namespace AdditionFolding

theorem gives_tended (h : f.Orderly) (ht : f.TendsBuffers) (hr : f.Represents (k.plug (b ++ .node hd x z))) :
    (Rule.additionFolding.apply f hd.op).Gives True Function.TendsBuffers := by
  have hhd := Spine.mem_heads_at k b x z hd
  refine (gives_splice hr fun hkind => ?_).mono ?_
  · obtain ⟨lhs, rhs, r, hops, hl, hr', -⟩ := (hr.sorted_at h.sorted).of_addIndex hkind
    exact ⟨lhs, rhs, [], hops, Function.has_of_sort? hl, Function.has_of_sort? hr'⟩
  rintro g - ⟨hkind, lhs, rhs, rest, y, w, hops, hl, hr', hy, hsplice⟩
  obtain ⟨lhs', rhs', r, hops', hsl, hsr, hres⟩ := (hr.sorted_at h.sorted).of_addIndex hkind
  rw [hops', List.cons.injEq, List.cons.injEq] at hops
  obtain ⟨rfl, rfl, -⟩ := hops
  obtain rfl : x = .nil := h.tidy.body_eq_nil hr (by rw [hkind]; rfl)
  have hreplaces := hsplice.replaces (x := .nil)
  have hdefined : hd.defined = [r] := hr.defined_of_result hhd (by rw [hkind]; rfl) hres
  have hindex : f.sort? r = some .index := hr.sort?_result hhd hres
  have hconstant : ∀ n ∈ (y.rename (hd.redirect w)).heads, (∃ i, n.kind = .constant i) ∧ n.operands = [] := by
    cases hy with
    | constants op v => exact List.forall_mem_singleton.2 ⟨⟨_, rfl⟩, rfl⟩
    | right | left => simp [Code.rename, Code.heads]
  -- The sum is now another index, or a new one.
  have hnew : f.Has w → f.sort? w = some .index := by
    cases hy with
    | constants op v =>
      intro hhas
      exact absurd hhas (hreplaces.values _ (List.mem_singleton_self _) w
        (by simp [Node.defined, Node.rename, Node.value]))
    | right => exact fun _ => hsr
    | left => exact fun _ => hsl
  have hmoved : ∀ u, hd.redirect w u ≠ u → u = r := fun u hne => by
    by_contra hout
    exact hne (hd.redirect_of_not_mem (by simpa [hdefined] using hout) w)
  have hto : hd.redirect w r = w := by rw [hd.redirect_of_result hres, Function.swapped_self]
  have hkinds : ∀ n ∈ (y.rename (hd.redirect w)).heads, (∃ i, n.kind = .constant i) ∨ n.kind.isLoop = true :=
    fun n hn => .inl (hconstant n hn).1
  have hinherits : f.Inherits g k b .nil z hd (hd.redirect w) (y.rename (hd.redirect w))
      (y.rename (hd.redirect w)).heads := by
    refine .of_index hr h.sorted (h.has hr) hsplice.represents hreplaces (by simp [hkind])
      (fun v hv => hd.redirect_of_not_mem hv w) (fun u v hu hv he => ?_) (by simp)
      (fun _ _ hbeside => by cases hbeside) (fun n hn => (hconstant n hn).2) hkinds
    by_cases hu' : hd.redirect w u = u
    · by_cases hv' : hd.redirect w v = v
      · exact .inl (by rw [← hu', he, hv'])
      · obtain rfl := hmoved v hv'
        obtain rfl : u = w := by rw [← hu', he, hto]
        exact .inr ⟨hnew hu, hindex⟩
    · obtain rfl := hmoved u hu'
      by_cases hv' : hd.redirect w v = v
      · obtain rfl : v = w := by rw [← hv', ← he, hto]
        exact .inr ⟨hindex, hnew hv⟩
      · exact .inl (hmoved v hv').symm
  rw [Function.TendsBuffers, hr.code_eq] at ht
  exact hinherits.tended ht (Function.tended_of_index hkinds)

end AdditionFolding

end KernelLowering
