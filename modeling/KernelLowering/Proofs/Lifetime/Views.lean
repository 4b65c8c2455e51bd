import KernelLowering.Proofs.Convergence.Cleanup
import KernelLowering.Proofs.Lifetime.Windows

namespace KernelLowering

variable {f g : Function} {k : Spine} {b x y z c : Code} {hd h : Node} {σ : ValueId → ValueId}
  {new : List Node}

namespace Function

structure Careful (f : Function) : Prop where
  cleanable : f.Cleanable
  sorted : f.Sorted
  inOrder : f.code.InOrder
  tended : f.TendsBuffers

theorem Orderly.careful (h : f.Orderly) (ht : f.TendsBuffers) : f.Careful where
  cleanable := h.cleanable
  sorted := h.sorted
  inOrder := h.tidy.forward.pairwise.imp fun {h _} hpair (_ : ¬ h.Idle f.code) => hpair
  tended := ht

namespace Replaces

variable (hg : f.Replaces g k b .nil z σ new) (hr : f.Represents (k.plug (b ++ .node hd .nil z)))
  (hfresh : ∀ v, σ v = v ∨ ¬ f.Has (σ v))
  (hused : ∀ n ∈ new, ∀ u ∈ n.operands, f.Has u → ∃ h ∈ (k.plug (b ++ .node hd .nil z)).heads, u ∈ h.operands)

include hg hr hfresh hused

theorem idle (hh : h ∈ (k.plug (b ++ .node hd .nil z)).heads)
    (hidle : h.Idle (k.plug (b ++ .node hd .nil z))) : (h.rename σ).Idle g.code := by
  refine ⟨hidle.1, fun user huser hu => ?_⟩
  rcases hg.cases huser with hn | ⟨user, huser₁, rfl⟩
  · obtain ⟨v, hv, hdef⟩ := hu
    obtain ⟨user', huser', hv'⟩ := hused user hn v hv (hr.has_defined hh v hdef)
    exact hidle.2 user' huser' ⟨v, hv', hdef⟩
  · have hu' : (user.rename σ).Uses h := hu
    exact hidle.2 user (Spine.mem_heads_iff.2 (huser₁.imp_right .inr))
      (hu'.of_rename hfresh (hr.has_defined hh))

theorem inOrder (ho : (k.plug (b ++ .node hd .nil z)).InOrder)
    (hbefore : ∀ h ∈ k.before b, ¬ (h.rename σ).Idle g.code → ∀ u ∈ h.operands, u ∉ hd.defined →
      ∀ n ∈ new, σ u ∉ n.defined)
    (hnew : new.Pairwise fun n later => ∀ v ∈ n.operands, v ∉ later.defined)
    (hbehind : ∀ n ∈ new, ∀ v ∈ n.operands, ∀ h ∈ k.behind z, v ∉ h.defined) : g.code.InOrder := by
  refine hg.pairwise ho (fun h hh later hlater hpair hidle v hv hdef => ?_)
    (hnew.imp fun {n _} hpair (_ : ¬ n.Idle g.code) => hpair) (fun h hh hpair n hn hidle v hv => ?_)
    fun n hn h hh _ _ v hv => hbehind n hn v hv h (hh.resolve_left (by simp [Code.heads]))
  · obtain ⟨u, hu, rfl⟩ := List.mem_map.1 hv
    have hsame := (hfresh u).resolve_right (not_not.2 (hr.has_defined hlater _ hdef))
    refine hpair (fun hi => hidle (hg.idle hr hfresh hused hh hi)) u hu ?_
    rwa [hsame] at hdef
  · obtain ⟨u, hu, rfl⟩ := List.mem_map.1 hv
    have hin : h ∈ (k.plug (b ++ .node hd .nil z)).heads := Spine.mem_heads_iff.2 (.inl hh)
    exact hbefore h hh hidle u hu (hpair (fun hi => hidle (hg.idle hr hfresh hused hin hi)) u hu) n hn

end Replaces

theorem Sheds.inOrder (hs : f.Sheds g k b .nil z hd) (ho : f.code.InOrder) : g.code.InOrder := by
  have hb := hs.before
  rw [hb.code_eq] at ho
  exact hs.replaces.inOrder hb (fun _ => .inl rfl) (by simp) ho (by simp) .nil (by simp)

theorem Careful.shed (h : f.Careful) (hs : f.Sheds g k b x z hd) : g.Careful := by
  obtain rfl : x = .nil := hs.body_eq_nil h.cleanable.built.nested
  exact ⟨h.cleanable.shed hs, hs.sorted h.sorted, hs.inOrder h.inOrder, hs.tended h.tended⟩

end Function

namespace ViewFolding

variable {inner : Node} {w w' : Window} {u source r : ValueId} {supplied supplied' : List ValueId}
  {type : BufferType} {t : ValueType}

section Ready

variable (hready : Ready f (k.plug (b ++ .node hd .nil z)) hd inner w w' u source supplied supplied' type)
  (hb : f.Built) (hs : f.Sorted) (hr : f.Represents (k.plug (b ++ .node hd .nil z)))
  (hl : Layered (k.plug (b ++ .node hd .nil z)).heads)

include hready hs hr

theorem Ready.eq_of_buffer {v : ValueId} (hv : f.sort? v = some .buffer) :
    (v ∈ hd.operands → u = v) ∧ (v ∈ inner.operands → source = v) := by
  have hinner := (Code.of_definer? hready.definer).1
  refine ⟨fun hin => ?_, fun hin => ?_⟩
  · simpa [hready.operands] using
      (hr.sorted_iff.1 hs hd (Spine.mem_heads_at k b .nil z hd)).mem_head? hready.window hin hv
  · simpa [hready.innerOperands] using (hr.sorted_iff.1 hs inner hinner).mem_head? hready.inner_window hin hv

include hl

theorem Ready.not_mem_operands (hres : hd.result = some (r, t)) (hv : f.sort? r = some .buffer) :
    r ∉ hd.operands ∧ r ∉ inner.operands := by
  obtain ⟨rank, hrank⟩ := hl.exists_ranking
  obtain ⟨hlow, hhigh, -⟩ := hready.ranks hrank hres
  refine ⟨fun hin => ?_, fun hin => ?_⟩
  · obtain rfl := (hready.eq_of_buffer hs hr hv).1 hin
    exact lt_irrefl _ hhigh
  · obtain rfl := (hready.eq_of_buffer hs hr hv).2 hin
    exact lt_irrefl _ (hlow.trans hhigh)

include hb

theorem Ready.not_uses_view (hclean : inner.Clean (k.plug (b ++ .node hd .nil z)).heads) :
    ∀ view ∈ (k.plug (b ++ .node hd .nil z)).heads, view.kind = .view →
      ¬ hd.Uses view ∧ ¬ inner.Uses view := by
  intro view hview hk
  obtain ⟨hinner, t', hres'⟩ := Code.of_definer? hready.definer
  obtain ⟨v, type, hres⟩ := (hr.sorted_iff.1 hs view hview).shows_buffer (by rw [hk]; rfl)
  have hdef : view.defined = [v] := hr.defined_of_result hview (by rw [hk]; rfl) hres
  obtain ⟨hupper, hlower⟩ := hready.eq_of_buffer hs hr (hr.sort?_result hview hres)
  refine ⟨?_, ?_⟩ <;> rintro ⟨v', hv', hin⟩ <;> obtain rfl : v' = v := by simpa [hdef] using hin
  · obtain rfl := hupper hv'
    have hsame := hready.innerKind
    rw [hr.eq_of_result hinner hview hres' hres, hk] at hsame
    cases hsame
  · obtain rfl := hlower hv'
    exact (hready.flat (hb.made_of hr) hl hclean hview
      ⟨source, by simp [hready.innerOperands], by simp [hres]⟩).1 hk

end Ready

theorem gives_scoped (hb : f.Built) (hs : f.Sorted) (hl : Layered f.code.heads)
    (hr : f.Represents (k.plug (b ++ .node hd x z))) : (Rule.viewFolding.apply f hd.op).Gives True fun g =>
      ∃ inner w w' u source supplied supplied' type y last v,
        Ready f (k.plug (b ++ .node hd x z)) hd inner w w' u source supplied supplied' type ∧
          Splice f g (k.rename (hd.redirect v)) (b.rename (hd.redirect v)) y (z.rename (hd.redirect v)) ∧
            Folded f g k b z hd last source v y.heads ∧ y.Scoped (hd.operands ++ inner.operands) := by
  rw [hr.code_eq] at hl
  refine (gives_splice hr (hs.made hr)).mono ?_
  rintro g - ⟨inner, w, w', u, source, supplied, supplied', type, y, offsets, vs, op, v, result,
    hready, -, hsums, -, hsplice⟩
  obtain rfl : x = .nil := Spine.body_eq_nil (hb.nested_of hr) (by rw [hready.kind]; rfl)
  have hhd := Spine.mem_heads_at k b .nil z hd
  obtain ⟨-, -, r, t, -, -, -, -, hres⟩ := (hr.sorted_iff.1 hs hd hhd).of_subView hready.kind
  have hbuffer : f.sort? r = some .buffer := hr.sort?_result hhd hres
  obtain ⟨hout, hout'⟩ := hready.not_mem_operands hs hr hl hres hbuffer
  have hscoped : (y ++ .node (.value op (.subView (combined w offsets)) (source :: vs) v (.buffer result))
      .nil .nil).Scoped (hd.operands ++ inner.operands) := (hsums.tidy_view (u := u)
    (fun u hu => List.mem_append_left _ (hready.operands ▸ hu))
      fun u hu => List.mem_append_right _ (hready.innerOperands ▸ hu)).inScope
  have hfixed : (y ++ .node (.value op (.subView (combined w offsets)) (source :: vs) v (.buffer result))
      .nil .nil).rename (hd.redirect v) = _ := Code.rename_of_fixed fun n hn u hu => by
    refine hd.redirect_of_not_mem ?_ v
    rw [hr.defined_of_result hhd (by rw [hready.kind]; rfl) hres, List.mem_singleton]
    rintro rfl
    rcases List.mem_append.1 (hscoped.mem_operands hn hu) with hin | hin
    · exact Nat.not_lt.2 (hsplice.size_le (by rwa [Code.defined_rename])) (Function.has_of_sort? hbuffer)
    · exact (List.mem_append.1 hin).elim hout hout'
  rw [hfixed] at hsplice
  refine ⟨inner, w, w', u, source, supplied, supplied', type, _, made op w offsets source vs v result, v,
    hready, hsplice, ⟨hsplice.replaces, by simp [Code.heads, made], rfl, rfl, ⟨_, rfl⟩, fun n hn => ?_⟩, hscoped⟩
  exact ((hsums.kinds (σ := id) (by simpa using hn)).symm).imp_left fun he => by simpa [made] using he

theorem Folded.mem_operands {last n : Node} {u v : ValueId} (h : Folded f g k b z hd last source v y.heads)
    (hscoped : y.Scoped (hd.operands ++ inner.operands)) (hn : n ∈ y.heads) (hu : u ∈ n.operands)
    (hhas : f.Has u) : u ∈ hd.operands ∨ u ∈ inner.operands := by
  refine List.mem_append.1 ((List.mem_append.1 (hscoped.mem_operands hn hu)).resolve_left fun hin => ?_)
  obtain ⟨n', hn', hdef⟩ := List.mem_flatMap.1 hin
  exact h.replaces.values n' hn' u hdef hhas

theorem Folded.inOrder {last : Node} {v : ValueId} (h : Folded f g k b z hd last source v y.heads)
    (hr : f.Represents (k.plug (b ++ .node hd .nil z)))
    (hhas : ∀ h ∈ (k.plug (b ++ .node hd .nil z)).heads, ∀ v ∈ h.operands, f.Has v)
    (ho : (k.plug (b ++ .node hd .nil z)).InOrder) (hwindow : hd.kind.window?.isSome = true)
    (hinner : inner ∈ k.before b) (hwindow' : inner.kind.window?.isSome = true)
    (hscoped : y.Scoped (hd.operands ++ inner.operands)) (hnd : y.defined.Nodup) : g.code.InOrder := by
  have hfresh := hd.redirect_fresh h.not_has
  have hnew : ∀ n ∈ y.heads, ∀ v ∈ n.defined, ¬ f.Has v := h.replaces.values
  have hused : ∀ n ∈ y.heads, ∀ u ∈ n.operands, f.Has u →
      ∃ h ∈ (k.plug (b ++ .node hd .nil z)).heads, u ∈ h.operands := fun n hn u hu hhas =>
    (h.mem_operands hscoped hn hu hhas).elim (fun hu => ⟨hd, Spine.mem_heads_at k b .nil z hd, hu⟩)
      fun hu => ⟨inner, Spine.mem_heads_iff.2 (.inl hinner), hu⟩
  have hactive : ∀ {h : Node}, h.kind.window?.isSome = true → ¬ h.Idle (k.plug (b ++ .node hd .nil z)) :=
    fun hw hidle => (OpKind.sorts_of_window hw).2.2 hidle.1
  have hpairs := ho
  rw [Code.InOrder, Spine.heads_at, Code.heads, List.nil_append, List.pairwise_append,
    List.pairwise_cons] at hpairs
  obtain ⟨-, ⟨hbehind, -⟩, hacross⟩ := hpairs
  refine h.replaces.inOrder hr hfresh hused ho (fun h' hh' _ u hu hout n hn hdef => ?_)
    (hscoped.pairwise hnd ?_) fun n hn u hu later hlater hdef => ?_
  · rw [hd.redirect_of_not_mem hout v] at hdef
    exact hnew n hn u hdef (hhas h' (Spine.mem_heads_iff.2 (.inl hh')) u hu)
  · intro u hu hin
    obtain ⟨n, hn, hdef⟩ := List.mem_flatMap.1 hu
    refine hnew n hn u hdef ?_
    rcases List.mem_append.1 hin with hin | hin
    · exact hhas hd (Spine.mem_heads_at k b .nil z hd) u hin
    · exact hhas inner (Spine.mem_heads_iff.2 (.inl hinner)) u hin
  · have hin : later ∈ (k.plug (b ++ .node hd .nil z)).heads :=
      Spine.mem_heads_iff.2 (.inr (.inr (.inr hlater)))
    rcases h.mem_operands hscoped hn hu (hr.has_defined hin u hdef) with hu | hu
    · exact hbehind later hlater (hactive hwindow) u hu hdef
    · exact hacross inner hinner later (List.mem_cons_of_mem hd hlater) (hactive hwindow') u hu hdef

theorem gives_careful (h : f.Careful) (hr : f.Represents (k.plug (b ++ .node hd x z)))
    (hclean : ∀ h ∈ k.before b, h.Clean f.code.heads) :
    (Rule.viewFolding.apply f hd.op).Gives True fun g => g.code.InOrder ∧ g.TendsBuffers := by
  obtain ⟨⟨hb, hl, hordered⟩, hs, ho, ht⟩ := h
  refine (gives_scoped hb hs hl hr).mono ?_
  rintro g - ⟨inner, w, w', u, source, supplied, supplied', type, y, last, v, hready, hsplice, hfolded,
    hscoped⟩
  obtain rfl : x = .nil := Spine.body_eq_nil (hb.nested_of hr) (by rw [hready.kind]; rfl)
  rw [hr.code_eq] at hclean hl hordered ho
  rw [Function.TendsBuffers, hr.code_eq] at ht
  have hhd := Spine.mem_heads_at k b .nil z hd
  have hinner := (Code.of_definer? hready.definer).1
  have hbefore := hready.inner_mem_before hl hordered rfl
  have hhas := hb.has_of hr
  obtain ⟨-, -, r, t, -, -, -, -, hres⟩ := (hr.sorted_iff.1 hs hd hhd).of_subView hready.kind
  have hdef : hd.defined = [r] := hr.defined_of_result hhd (by rw [hready.kind]; rfl) hres
  have hsource : source ∉ hd.defined := by
    rw [hdef, List.mem_singleton]
    rintro rfl
    exact (hready.not_mem_operands hs hr hl hres (hr.sort?_result hhd hres)).2
      (by simp [hready.innerOperands])
  have hinherits := hfolded.inherits hr hs hhas hsplice.represents hready.window hres hinner
    hready.inner_window (.inr hready.on) (by simp [hready.innerOperands])
    (Function.has_of_bufferType? hready.source) hsource
    (fun n hn u hu hhas => hfolded.mem_operands hscoped hn hu hhas)
    (hready.not_uses_view hb hs hr hl (hclean inner hbefore))
  exact ⟨hfolded.inOrder hr hhas ho hready.window hbefore hready.inner_window hscoped
    (hsplice.defined ▸ nodup_freshValues _ _), hinherits.tended ht hfolded.tended⟩

end ViewFolding

end KernelLowering
