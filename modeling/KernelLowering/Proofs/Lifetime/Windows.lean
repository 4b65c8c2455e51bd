import KernelLowering.Proofs.Convergence.Views
import KernelLowering.Proofs.Lifetime.Canonicalization
import KernelLowering.Proofs.Scope.Windows

namespace KernelLowering

variable {f g : Function} {k : Spine} {b x y z c : Code} {hd inner last : Node} {new : List Node}
  {u v w source r : ValueId} {t : ValueType}

theorem OpKind.sorts_of_window {kind : OpKind} (h : kind.window?.isSome = true) :
    kind ≠ .alloc ∧ kind ≠ .dealloc ∧ kind ≠ .view := by
  cases kind <;> simp_all [OpKind.window?]

theorem Node.Sorted.mem_head? (hs : hd.Sorted f) (hwindow : hd.kind.window?.isSome = true)
    (hu : u ∈ hd.operands) (hsort : f.sort? u = some .buffer) : u ∈ hd.operands.head? := by
  obtain ⟨w, hw⟩ := Option.isSome_iff_exists.1 hwindow
  obtain ⟨source, supplied, -, -, hops, -, hsupplied, -⟩ := hs.of_subView (OpKind.window?_eq_some.1 hw)
  rw [hops, List.mem_cons] at hu
  rcases hu with rfl | hu
  · simp [hops]
  · rw [hsupplied u hu] at hsort
    cases hsort

namespace ViewFolding.Folded

variable (h : Folded f g k b z hd last source v new)

include h

theorem inherits (hr : f.Represents (k.plug (b ++ .node hd .nil z))) (hs : f.Sorted)
    (hhas : ∀ h ∈ (k.plug (b ++ .node hd .nil z)).heads, ∀ v ∈ h.operands, f.Has v)
    (hafter : g.Represents ((k.rename (hd.redirect v)).plug
      (b.rename (hd.redirect v) ++ (y ++ z.rename (hd.redirect v)))))
    (hwindow : hd.kind.window?.isSome = true) (hres : hd.result = some (r, t))
    (hinner : inner ∈ (k.plug (b ++ .node hd .nil z)).heads) (hwindow' : inner.kind.window?.isSome = true)
    (hon : inner = hd ∨ hd.On inner) (hhead : inner.operands.head? = some source)
    (hsource : f.Has source) (hout : source ∉ hd.defined)
    (hops : ∀ n ∈ new, ∀ u ∈ n.operands, f.Has u → u ∈ hd.operands ∨ u ∈ inner.operands)
    (hapart : ∀ view ∈ (k.plug (b ++ .node hd .nil z)).heads, view.kind = .view →
      ¬ hd.Uses view ∧ ¬ inner.Uses view) :
    f.Inherits g k b .nil z hd (hd.redirect v) y new := by
  have hhd := Spine.mem_heads_at k b .nil z hd
  have hkind : ∀ n ∈ new, n.kind ≠ .alloc ∧ n.kind ≠ .view := fun n hn => by
    rcases h.other n hn with rfl | hk | ⟨i, hk⟩
    · exact ⟨(OpKind.sorts_of_window h.window).1, (OpKind.sorts_of_window h.window).2.2⟩
    · simp [hk]
    · simp [hk]
  -- What the old sub-view shows, it shows through its source.
  have hshown : ∀ v, Shows (k.plug (b ++ .node hd .nil z)).heads v source →
      Shows (k.plug (b ++ .node hd .nil z)).heads v r ∧
        hd.Touches (k.plug (b ++ .node hd .nil z)).heads v := by
    intro v hshows
    obtain ⟨u, hu, hshows⟩ : ∃ u ∈ hd.operands.head?, Shows (k.plug (b ++ .node hd .nil z)).heads v u := by
      rcases hon with rfl | ⟨u, hu, hmade⟩
      · exact ⟨source, hhead, hshows⟩
      · obtain ⟨⟨_, t'⟩, hres', rfl⟩ := Option.map_eq_some_iff.1 hmade
        exact ⟨_, hu, .view hinner (OpKind.shows_of_window hwindow') hhead hres' hshows⟩
    exact ⟨.view hhd (OpKind.shows_of_window hwindow) hu hres hshows, u, List.mem_of_mem_head? hu, hshows⟩
  refine ⟨hr, hs, hhas, hafter, h.replaces, ?_, fun u hu => hd.redirect_of_not_mem hu v,
    fun u u' hu hu' he => .inl (Node.redirect_inj h.not_has hu hu' he), by simp,
    fun _ _ hab => (by cases hab),
    fun n hn hk => (hk.elim (hkind n hn).1 (hkind n hn).2).elim, fun n hn hk => ((hkind n hn).2 hk).elim,
    fun n hn u hu hhas => ⟨?_, fun view hview hk hdef => ?_⟩, fun n hn u hu hhas v hsort hshows => ?_,
    fun n hn hk r' hr' t' hres' w hw => ?_⟩
  · exact ⟨(OpKind.sorts_of_window hwindow).1, (OpKind.sorts_of_window hwindow).2.1⟩
  · rcases hops n hn u hu hhas with hu | hu
    · exact ⟨hd, hhd, (OpKind.sorts_of_window hwindow).2.2, (OpKind.sorts_of_window hwindow).2.1, hu⟩
    · exact ⟨inner, hinner, (OpKind.sorts_of_window hwindow').2.2, (OpKind.sorts_of_window hwindow').2.1, hu⟩
  · rcases hops n hn u hu hhas with hu | hu
    · exact (hapart view hview hk).1 ⟨u, hu, hdef⟩
    · exact (hapart view hview hk).2 ⟨u, hu, hdef⟩
  · rcases hops n hn u hu hhas with hu | hu
    · exact ⟨u, hu, hshows⟩
    · have hmem := (hr.sorted_iff.1 hs inner hinner).mem_head? hwindow' hu (hshows.sort?_eq hr hs hsort)
      obtain rfl : source = u := by simpa [hhead] using hmem
      exact (hshown v hshows).2
  · have hlast : n = last := (h.other n hn).resolve_right fun hk' => by
      rcases hk' with hk' | ⟨i, hk'⟩ <;> simp [hk', OpKind.shows] at hk
    obtain rfl : source = w := by simpa [hlast, h.head] using hw
    have hdef := hr.defined_of_result hhd (by
      obtain ⟨w, hw⟩ := Option.isSome_iff_exists.1 hwindow
      rw [OpKind.window?_eq_some.1 hw]
      rfl) hres
    obtain rfl : r' = r := by simpa [hdef] using hr'
    exact ⟨source, hsource, hd.redirect_of_not_mem hout v, fun v _ hshows => (hshown v hshows).1⟩

theorem tended {Beside : Node → Node → Prop} : Tended new Beside :=
  .of_plain fun n hn => by
    rcases h.other n hn with rfl | hk | ⟨i, hk⟩
    · exact OpKind.sorts_of_window h.window
    · simp [hk]
    · simp [hk]

end ViewFolding.Folded

namespace OffsetFolding

theorem supplied_of_check {supplied : List ValueId} (hr : f.Represents (k.plug (b ++ .node hd x z)))
    (hcheck : (check f hd.op).Answers ()) (hops : hd.operands = source :: supplied) : supplied ≠ [] := by
  rintro rfl
  simp only [check, Inspect.answers_bind, Inspect.answers_lift, hr.record_at, Except.ok.injEq,
    exists_eq_left', Node.record, Operation.offsetOperands, hops] at hcheck
  obtain ⟨-, -, found, hfound, hcheck⟩ := hcheck
  obtain rfl : found = false := by simpa using hfound
  simp at hcheck

theorem gives_tended (h : f.Orderly) (ht : f.TendsBuffers) (hr : f.Represents (k.plug (b ++ .node hd x z))) :
    (Rule.offsetFolding.apply f hd.op).Gives True Function.TendsBuffers := by
  have hhd := Spine.mem_heads_at k b x z hd
  refine (gives_splice hr fun w hkind => ready_of_sorted (hr.sorted_at h.sorted) hkind).mono ?_
  rintro g hans ⟨w, source, supplied, type, op, v, result, hready, -, hsplice⟩
  obtain ⟨-, -, r, t, -, -, -, -, hres⟩ := (hr.sorted_at h.sorted).of_subView hready.kind
  have hwindow : hd.kind.window?.isSome = true := by rw [hready.kind]; rfl
  obtain rfl : x = .nil := h.tidy.body_eq_nil hr (by rw [hready.kind]; rfl)
  have hin : source ∈ hd.operands := hready.operands ▸ List.mem_cons_self
  have hdef : source ∉ hd.defined := h.tidy.forward.apart hd (hr.code_eq ▸ hhd) source hin
  have hfolded : ViewFolding.Folded f g k b z hd _ source v _ := {
    replaces := hsplice.replaces
    mem := List.mem_singleton_self _
    window := rfl
    head := by simp [Node.rename, Node.value, hd.redirect_of_not_mem hdef]
    result := ⟨_, rfl⟩
    other := fun n hn => .inl (List.mem_singleton.1 hn) }
  rw [Function.TendsBuffers, hr.code_eq] at ht
  rw [Rule.apply, Inspect.answers_bind] at hans
  obtain ⟨⟨⟩, hcheck, -⟩ := hans
  have hne := supplied_of_check hr hcheck hready.operands
  have hapart : ∀ view ∈ (k.plug (b ++ .node hd .nil z)).heads, view.kind = .view → ¬ hd.Uses view := by
    intro view hview hk hu
    have halone := (ht.held view hview hk hd hhd hu).alone
    rw [hready.operands, List.length_cons, Nat.succ_inj, List.length_eq_zero_iff] at halone
    exact hne halone
  refine (hfolded.inherits hr h.sorted (h.has hr) hsplice.represents hwindow hres hhd hwindow (.inl rfl)
    (by simp [hready.operands]) (h.has hr hd hhd source hin) hdef (fun n hn u hu hhas => .inl ?_)
    fun view hview hk => ⟨hapart view hview hk, hapart view hview hk⟩).tended ht hfolded.tended
  obtain ⟨u', hu', rfl⟩ := List.mem_map.1 (List.mem_singleton.1 hn ▸ hu)
  rcases hd.redirect_cases v u' with hsame | hnew
  · rw [hsame, hready.operands]
    exact List.cons_subset_cons _ (fun _ => mem_remaining) hu'
  · exact (hfolded.not_has (hnew ▸ hhas)).elim

end OffsetFolding

namespace Greedy

theorem keeps_tended : Keeps (· = .overflow) (fun f => f.Orderly ∧ f.TendsBuffers) Rule.canonicalization where
  wellFormed _ h := h.1.tidy.wellFormed
  sheds _ _ _ _ _ _ _ h hs := by
    obtain rfl := h.1.body_eq_nil hs
    exact ⟨h.1.shed hs, hs.tended h.2⟩
  rule rule hrule f k b hd x z h hr := by
    have htended : (rule.apply f hd.op).Gives True fun g => g.Tidy → g.TendsBuffers := by
      simp only [Rule.canonicalization, List.mem_cons, List.not_mem_nil, or_false] at hrule
      rcases hrule with rfl | rfl | rfl
      · exact TrivialLoops.gives_tended h.1 h.2 hr
      · exact (AdditionFolding.gives_tended h.1 h.2 hr).mono fun _ _ hg _ => hg
      · exact (OffsetFolding.gives_tended h.1 h.2 hr).mono fun _ _ hg _ => hg
    refine Ends.mono (keeps_orderly.rule rule hrule h.1 hr) fun r hrun hkeeps g hg => ?_
    obtain ⟨horderly, hsize⟩ := hkeeps g hg
    exact ⟨⟨horderly, htended.of_answers (by rw [Inspect.Answers, hrun, hg]) horderly.tidy⟩, hsize⟩

end Greedy

end KernelLowering
