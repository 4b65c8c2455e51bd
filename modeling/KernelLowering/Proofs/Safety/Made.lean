import KernelLowering.Proofs.Execution.Sorts
import KernelLowering.Proofs.Scope.Tidy

namespace KernelLowering

/-- What makes a value has the operands and the result that its builder gives it. -/
def Node.Made (f : Function) (h : Node) : Prop :=
  ∀ io ∈ h.kind.sorts?, h.operands.length = io.1.length ∧ (∀ v ∈ h.operands, f.Has v) ∧
    h.result.map (·.2.sort) = some io.2 ∧
      (h.kind.window?.isSome = true → ∀ v ∈ h.operands.head?, f.sort? v = some .buffer)

instance (f : Function) (h : Node) : Decidable (h.Made f) := by
  unfold Node.Made
  infer_instance

namespace Node.Made

variable {f g : Function} {h : Node}

theorem operands_of_addIndex (hm : h.Made f) (hk : h.kind = .addIndex) :
    ∃ lhs rhs r, h.operands = [lhs, rhs] ∧ f.Has lhs ∧ f.Has rhs ∧ h.result = some (r, .index) := by
  obtain ⟨hlen, hhas, hres, -⟩ := hm _ (by rw [hk]; rfl)
  obtain ⟨lhs, rhs, hops⟩ := List.length_eq_two.1 hlen
  obtain ⟨⟨r, t⟩, hr, ht⟩ := Option.map_eq_some_iff.1 hres
  cases t with
  | index => exact ⟨lhs, rhs, r, hops, hhas _ (by simp [hops]), hhas _ (by simp [hops]), hr⟩
  | buffer => cases ht

theorem operands_of_view (hm : h.Made f) (hk : h.kind = .view) :
    ∃ source, h.operands = [source] ∧ f.Has source := by
  obtain ⟨hlen, hhas, -⟩ := hm _ (by rw [hk]; rfl)
  obtain ⟨source, hops⟩ := List.length_eq_one_iff.1 hlen
  exact ⟨source, hops, hhas _ (by simp [hops])⟩

theorem result_of_buffer (hm : h.Made f) {reads : List ValueSort}
    (hk : h.kind.sorts? = some (reads, .buffer)) : ∃ v type, h.result = some (v, .buffer type) := by
  obtain ⟨-, -, hres, -⟩ := hm _ hk
  obtain ⟨⟨v, t⟩, hr, ht⟩ := Option.map_eq_some_iff.1 hres
  cases t with
  | index => cases ht
  | buffer type => exact ⟨v, type, hr⟩

theorem operands_of_subView (hm : h.Made f) {w : Window} (hk : h.kind = .subView w) :
    ∃ source supplied v type below, h.operands = source :: supplied ∧
      h.result = some (v, .buffer type) ∧ f.bufferType? source = .ok (some below) ∧
        w.dynamicCount = supplied.length ∧ ∀ u ∈ supplied, f.Has u := by
  obtain ⟨v, type, hres⟩ := hm.result_of_buffer (by rw [hk]; rfl)
  obtain ⟨hlen, hhas, -, hsource⟩ := hm _ (by rw [hk]; rfl)
  simp only [List.length_cons, List.length_replicate] at hlen
  obtain ⟨source, supplied, hops⟩ := List.exists_cons_of_length_eq_add_one hlen
  rw [hops, List.length_cons, Nat.add_right_cancel_iff] at hlen
  obtain ⟨below, hbelow⟩ := Function.bufferType_of_sort? (hsource (by simp [hk, OpKind.window?])
    source (by simp [hops]))
  exact ⟨source, supplied, v, type, below, hops, hres, hbelow, hlen.symm,
    fun u hu => hhas u (by simp [hops, hu])⟩

theorem of_sorts?_eq_none (hk : h.kind.sorts? = none) : h.Made f := by
  intro io hio
  rw [hk] at hio
  cases hio

theorem ofConstant {op : OpId} {n : Int} {v : ValueId} :
    (Node.value op (.constant n) [] v .index).Made f := by
  rintro _ ⟨⟩
  exact ⟨rfl, by simp [Node.value], rfl, fun hw => by cases hw⟩

theorem ofAlloc {op : OpId} {v : ValueId} {type : BufferType} :
    (Node.value op .alloc [] v (.buffer type)).Made f := by
  rintro _ ⟨⟩
  exact ⟨rfl, by simp [Node.value], rfl, fun hw => by cases hw⟩

theorem ofAddIndex {op : OpId} {u u' v : ValueId} (hu : f.Has u) (hu' : f.Has u') :
    (Node.value op .addIndex [u, u'] v .index).Made f := by
  rintro _ ⟨⟩
  exact ⟨rfl, by simp [Node.value, hu, hu'], rfl, fun hw => by cases hw⟩

theorem ofSubView {op : OpId} {w : Window} {source v : ValueId} {supplied : List ValueId}
    {type : BufferType} (hsource : f.sort? source = some .buffer)
    (hsupplied : ∀ u ∈ supplied, f.Has u) (hcount : w.dynamicCount = supplied.length) :
    (Node.value op (.subView w) (source :: supplied) v (.buffer type)).Made f := by
  rintro _ ⟨⟩
  refine ⟨by simp [Node.value, hcount], ?_, rfl, fun _ u hu => ?_⟩
  · simp only [Node.value, List.forall_mem_cons]
    exact ⟨Function.has_of_sort? hsource, hsupplied⟩
  · cases hu
    exact hsource

end Node.Made

theorem Node.Sorted.made {f : Function} {h : Node} (hs : h.Sorted f) : h.Made f := by
  intro io hio
  rw [Node.Sorted, Option.mem_def.1 hio] at hs
  obtain ⟨hreads, hmakes⟩ := hs
  refine ⟨by simpa using congrArg List.length hreads, fun v hv => ?_, hmakes, fun hw v hv => ?_⟩
  · have hmem : f.sort? v ∈ io.1.map some := hreads ▸ List.mem_map_of_mem hv
    obtain ⟨s, -, hs⟩ := List.mem_map.1 hmem
    exact Function.has_of_sort? hs.symm
  · obtain ⟨w, hw⟩ := Option.isSome_iff_exists.1 hw
    rw [OpKind.window?_eq_some.1 hw] at hio
    cases hio
    obtain ⟨rest, hops⟩ : ∃ rest, h.operands = v :: rest := List.head?_eq_some_iff.1 hv
    simp only [hops, List.map_cons, List.cons.injEq] at hreads
    exact hreads.1

namespace Splice

variable {f g : Function} {k : Spine} {b y z : Code} {v : ValueId}

theorem has_defined (h : Splice f g k b y z) (hv : v ∈ y.defined) : g.Has v := by
  rw [h.defined, mem_freshValues] at hv
  exact hv.2

theorem has_operand {known : List ValueId} (h : Splice f g k b y z) (hy : y.Tidy known)
    (hknown : ∀ v ∈ known, f.Has v) {hd : Node} (hh : hd ∈ y.heads) (hv : v ∈ hd.operands) :
    g.Has v :=
  (List.mem_append.1 (hy.inScope.mem_operands hh hv)).elim h.has_defined
    fun hv => h.grows.has (hknown v hv)

end Splice

namespace Function

variable {f g : Function} {k : Spine} {b x y z c : Code} {hd h : Node} {σ : ValueId → ValueId}

theorem Sorted.made (hs : f.Sorted) (hr : f.Represents c) : ∀ h ∈ c.heads, h.Made f :=
  fun h hh => (hr.sorted_iff.1 hs h hh).made

structure RespectsBuffers (f g : Function) (σ : ValueId → ValueId) : Prop where
  has : ∀ v, f.Has v → g.Has (σ v)
  buffer : ∀ v, f.sort? v = some .buffer → g.sort? (σ v) = some .buffer

theorem RespectsBuffers.made (hσ : f.RespectsBuffers g σ) (hm : h.Made f) : (h.rename σ).Made g := by
  intro io hio
  obtain ⟨hlen, hhas, hres, hsource⟩ := hm io hio
  refine ⟨by rw [Node.rename, List.length_map, hlen], fun v hv => ?_, hres, fun hw v hv => ?_⟩
  · obtain ⟨u, hu, rfl⟩ := List.mem_map.1 hv
    exact hσ.has u (hhas u hu)
  · rw [Node.rename, List.head?_map, Option.mem_def, Option.map_eq_some_iff] at hv
    obtain ⟨u, hu, rfl⟩ := hv
    exact hσ.buffer u (hsource hw u hu)

theorem Grows.respectsBuffers (hg : f.Grows g) : f.RespectsBuffers g id :=
  ⟨fun _ hv => hg.has hv, fun _ hv => hg.sort? hv⟩

theorem Grows.respectsBuffers_redirect {w : ValueId} (hg : f.Grows g) (hw : g.Has w)
    (hbuffer : ∀ r t, hd.result = some (r, t) → f.sort? r = some .buffer → g.sort? w = some .buffer) :
    f.RespectsBuffers g (hd.redirect w) := by
  cases hres : hd.result with
  | none =>
    have hid : hd.redirect w = id := by rw [Node.redirect, hres]
    exact hid ▸ hg.respectsBuffers
  | some p =>
    obtain ⟨r, t⟩ := p
    rw [hd.redirect_of_result hres]
    constructor
    · intro v hv
      by_cases hvr : v = r
      · rwa [hvr, swapped_self]
      · rw [swapped_of_ne hvr]
        exact hg.has hv
    · intro v hv
      by_cases hvr : v = r
      · subst hvr
        rw [swapped_self]
        exact hbuffer v t hres hv
      · rw [swapped_of_ne hvr]
        exact hg.sort? hv

/-- A function as builders make it: its operands are there, and only loops hold operations. -/
structure Built (f : Function) : Prop where
  wellFormed : f.WellFormed
  nested : f.code.Nested
  has : ∀ h ∈ f.code.heads, ∀ v ∈ h.operands, f.Has v
  made : ∀ h ∈ f.code.heads, h.Made f

instance (f : Function) : Decidable f.Built :=
  decidable_of_iff (f.WellFormed ∧ f.code.Nested ∧ (∀ h ∈ f.code.heads, ∀ v ∈ h.operands, f.Has v) ∧
      ∀ h ∈ f.code.heads, h.Made f)
    ⟨fun ⟨h₁, h₂, h₃, h₄⟩ => ⟨h₁, h₂, h₃, h₄⟩, fun h => ⟨h.1, h.2, h.3, h.4⟩⟩

namespace Built

theorem nested_of (h : f.Built) (hr : f.Represents c) : c.Nested := hr.code_eq ▸ h.nested

theorem has_of (h : f.Built) (hr : f.Represents c) : ∀ hd ∈ c.heads, ∀ v ∈ hd.operands, f.Has v :=
  hr.code_eq ▸ h.has

theorem made_of (h : f.Built) (hr : f.Represents c) : ∀ hd ∈ c.heads, hd.Made f :=
  hr.code_eq ▸ h.made

theorem made_at (h : f.Built) (hr : f.Represents (k.plug (b ++ .node hd x z))) : hd.Made f :=
  h.made_of hr hd (Spine.mem_heads_at k b x z hd)

theorem has_at (h : f.Built) (hr : f.Represents (k.plug (b ++ .node hd x z))) :
    ∀ v ∈ hd.operands, f.Has v := h.has_of hr hd (Spine.mem_heads_at k b x z hd)

theorem splice (h : f.Built) (hr : f.Represents (k.plug (b ++ .node hd x z)))
    (hg : g.Represents ((k.rename σ).plug (b.rename σ ++ (y ++ z.rename σ))))
    (hσ : f.RespectsBuffers g σ) (hnested : y.Nested) (hhas : ∀ h ∈ y.heads, ∀ v ∈ h.operands, g.Has v)
    (hmade : ∀ h ∈ y.heads, h.Made g) : g.Built := by
  have haround : ∀ {h}, h ∈ ((k.rename σ).plug (b.rename σ ++ (y ++ z.rename σ))).heads →
      (∃ h' ∈ (k.plug (b ++ .node hd x z)).heads, h'.rename σ = h) ∨ h ∈ y.heads := fun hh =>
    (Spine.mem_heads_splice.1 hh).imp_left fun ⟨h', hh', e⟩ =>
      ⟨h', Spine.mem_heads_around hh' hd x, e⟩
  refine ⟨hg.wellFormed, ?_, ?_, ?_⟩
  · rw [hg.code_eq]
    exact (Spine.nested_splice (h.nested_of hr)).2 σ y hnested
  · rw [hg.code_eq]
    intro h' hh'
    rcases haround hh' with ⟨h'', hh'', rfl⟩ | hh'
    · intro v hv
      obtain ⟨u, hu, rfl⟩ := List.mem_map.1 hv
      exact hσ.has u (h.has_of hr h'' hh'' u hu)
    · exact hhas h' hh'
  · rw [hg.code_eq]
    intro h' hh'
    rcases haround hh' with ⟨h'', hh'', rfl⟩ | hh'
    · exact hσ.made (h.made_of hr h'' hh'')
    · exact hmade h' hh'

theorem emit {known : List ValueId} (h : f.Built) (hr : f.Represents (k.plug (b ++ .node hd x z)))
    (hsplice : Splice f g k b y z) (hy : y.Tidy known) (hknown : ∀ v ∈ known, f.Has v)
    (hmade : ∀ h ∈ y.heads, h.Made g) : g.Built :=
  h.splice (σ := id) hr (by simpa using hsplice.represents) hsplice.grows.respectsBuffers hy.nested
    (fun _ hh _ hv => hsplice.has_operand hy hknown hh hv) hmade

theorem replace {known : List ValueId} {w r : ValueId} {t : ValueType} (h : f.Built)
    (hr : f.Represents (k.plug (b ++ .node hd x z)))
    (hsplice : Splice f g (k.rename (hd.redirect w)) (b.rename (hd.redirect w))
      (y.rename (hd.redirect w)) (z.rename (hd.redirect w)))
    (hres : hd.result = some (r, t)) (hy : y.Tidy known) (hknown : ∀ v ∈ known, f.Has v)
    (hw : g.Has w) (hbuffer : t.sort = .buffer → g.sort? w = some .buffer)
    (hmade : ∀ h ∈ y.heads, h.Made g) : g.Built := by
  have hold : g.sort? r = some t.sort :=
    hsplice.grows.sort? (hr.sort?_result (Spine.mem_heads_at k b x z hd) hres)
  have hσ : g.RespectsBuffers g (hd.redirect w) := by
    refine (Grows.refl g).respectsBuffers_redirect hw fun r' t' hres' hr' => ?_
    obtain ⟨rfl, rfl⟩ : r = r' ∧ t = t' := by simpa using hres.symm.trans hres'
    exact hbuffer (by simpa using hold.symm.trans hr')
  have hin : ∀ h ∈ y.heads, ∀ v ∈ h.operands, g.Has v := fun h hh v hv =>
    (List.mem_append.1 (hy.inScope.mem_operands hh hv)).elim
      (fun hv => hsplice.has_defined (by rwa [Code.defined_rename]))
      fun hv => hsplice.grows.has (hknown v hv)
  refine h.splice hr hsplice.represents
    ⟨fun v hv => hσ.has v (hsplice.grows.has hv), fun v hv => hσ.buffer v (hsplice.grows.sort? hv)⟩
    (hy.nested.rename _) (fun h' hh' v hv => ?_) fun h' hh' => ?_
  · obtain ⟨h'', hh'', rfl⟩ := List.mem_map.1 (Code.heads_rename _ y ▸ hh')
    obtain ⟨u, hu, rfl⟩ := List.mem_map.1 hv
    exact hσ.has u (hin h'' hh'' u hu)
  · obtain ⟨h'', hh'', rfl⟩ := List.mem_map.1 (Code.heads_rename _ y ▸ hh')
    exact hσ.made (hmade h'' hh'')

theorem shed (h : f.Built) (hs : f.Sheds g k b x z hd) : g.Built :=
  h.splice (σ := id) (y := .nil) hs.before (by simpa using hs.after) hs.same.grows.respectsBuffers
    trivial (fun _ hh => by cases hh) fun _ hh => by cases hh

end Built

end Function

end KernelLowering
