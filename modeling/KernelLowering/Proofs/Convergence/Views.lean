import KernelLowering.Proofs.Convergence.Layers
import KernelLowering.Proofs.Convergence.Sweeps
import KernelLowering.Proofs.Safety.Rules
import KernelLowering.Proofs.Scope.Tidy

namespace KernelLowering

namespace Node

def LiesIn (h below : Node) : Prop :=
  ∃ w ∈ h.kind.window?, ∃ w' ∈ below.kind.window?, ∃ t ∈ h.result.bind (·.2.buffer?),
    ∃ t' ∈ below.result.bind (·.2.buffer?), (ViewFolding.compare w w' t t').Answers ()

theorem LiesIn.window {h below : Node} (hlies : h.LiesIn below) : h.kind.window?.isSome = true := by
  obtain ⟨w, hw, -⟩ := hlies
  exact Option.isSome_iff_exists.2 ⟨w, hw⟩

theorem not_liesIn {h below : Node} (hnone : below.kind.window? = none) : ¬ h.LiesIn below := by
  rintro ⟨w, -, w', hw', -⟩
  rw [hnone] at hw'
  cases hw'

def Clean (hs : List Node) (h : Node) : Prop :=
  h.kind.window?.isSome = true → ∀ below ∈ hs, h.On below → below.kind ≠ .view ∧ ¬ h.LiesIn below

def Ordered (hs : List Node) : Prop := hs.Pairwise fun h later =>
  h.kind.window?.isSome = true → later.kind.window?.isSome = true → ¬ h.On later

end Node

section Checks

variable {f : Function} {c : Code} {h : Node}

theorem Node.on_iff_definer? (hr : f.Represents c) {below : Node} (hbelow : below ∈ c.heads)
    {u : ValueId} {rest : List ValueId} (hops : h.operands = u :: rest) :
    h.On below ↔ c.definer? u = some below := by
  simp only [On, hops, List.head?_cons, Option.mem_def, Option.some.injEq, exists_eq_left',
    Option.map_eq_some_iff]
  constructor
  · rintro ⟨⟨_, t⟩, hres, rfl⟩
    exact hr.definer?_eq hbelow hres
  · intro hdef
    obtain ⟨-, t, hres⟩ := Code.of_definer? hdef
    exact ⟨_, hres, rfl⟩

namespace ViewFolding

theorem check_answers (hr : f.Represents c) (hm : ∀ h ∈ c.heads, h.Made f) (hh : h ∈ c.heads) :
    (check f h.op).Answers () ↔ ∃ below ∈ c.heads, h.On below ∧ h.LiesIn below := by
  obtain ⟨parent, region, hop⟩ := hr.exists_record hh
  simp only [check_eq_compare, Inspect.answers_bind, Inspect.answers_lift, Function.op_eq_ok.2 hop,
    Except.ok.injEq, exists_eq_left', Operation.window, Inspect.answers_orDecline, Node.record]
  cases hkind : h.kind.window? with
  | none => simp [Node.LiesIn, hkind]
  | some w =>
    obtain ⟨u, supplied, v, t, below, hops, hres, hbelow, -⟩ :=
      (hm h hh).operands_of_subView (OpKind.window?_eq_some.1 hkind)
    simp only [Operation.operand, hops, List.getElem?_cons_zero, Fault.require_some,
      hr.definingOp?_eq (Function.has_of_bufferType? hbelow), Except.ok.injEq, exists_eq_left',
      Option.some.injEq, Option.map_eq_some_iff, result_eq hr hh hres, hr.bufferType?_eq hh hres,
      ValueType.buffer?]
    constructor
    · rintro ⟨_, ⟨inner, hdef, rfl⟩, o, ho, w', hw', r, hr', _, ht', t', rfl, hcompare⟩
      obtain ⟨hinner, -⟩ := Code.of_definer? hdef
      obtain ⟨parent', region', hop'⟩ := hr.exists_record hinner
      rw [Function.op_eq_ok, hop', Option.some.injEq] at ho
      subst ho
      obtain ⟨v', t'', hres'⟩ := (hm inner hinner).result_of_buffer
        (by rw [OpKind.window?_eq_some.1 (show inner.kind.window? = some w' from hw')]; rfl)
      rw [result_eq hr hinner hres', Except.ok.injEq] at hr'
      subst hr'
      rw [hr.bufferType?_eq hinner hres', Except.ok.injEq] at ht'
      exact ⟨inner, hinner, (Node.on_iff_definer? hr hinner hops).2 hdef, w, hkind, w', hw', t,
        by rw [hres]; rfl, t', by rw [hres']; exact ht', hcompare⟩
    · rintro ⟨inner, hinner, hon, w₁, hw₁, w', hw', t₁, ht₁, t', ht', hcompare⟩
      obtain ⟨parent', region', hop'⟩ := hr.exists_record hinner
      obtain ⟨v', t'', hres'⟩ := (hm inner hinner).result_of_buffer
        (by rw [OpKind.window?_eq_some.1 (show inner.kind.window? = some w' from hw')]; rfl)
      obtain rfl : w = w₁ := by simpa [hkind] using hw₁
      obtain rfl : t = t₁ := by simpa [hres, ValueType.buffer?] using ht₁
      obtain rfl : t'' = t' := by simpa [hres', ValueType.buffer?] using ht'
      exact ⟨_, ⟨inner, (Node.on_iff_definer? hr hinner hops).1 hon, rfl⟩, _,
        Function.op_eq_ok.2 hop', w', hw', v', result_eq hr hinner hres', _,
        hr.bufferType?_eq hinner hres', t'', rfl, hcompare⟩

end ViewFolding

namespace Reallocation

theorem definingOpOfKind_eq {below : Node} {u : ValueId} {rest : List ValueId} (hr : f.Represents c)
    (hbelow : below ∈ c.heads) (hops : h.operands = u :: rest) (hu : f.Has u) (hon : h.On below) :
    definingOpOfKind f u below.kind = .ok (some below.op) := by
  obtain ⟨parent, region, hop⟩ := hr.exists_record hbelow
  rw [definingOpOfKind, hr.definingOp?_eq hu, (Node.on_iff_definer? hr hbelow hops).1 hon, Fault.ok_bind,
    Option.map_some]
  simp only [Function.op_eq_ok.2 hop, Fault.ok_bind, Node.record, if_pos]
  rfl

theorem check_answers (hr : f.Represents c) (hm : ∀ h ∈ c.heads, h.Made f) (hh : h ∈ c.heads) :
    (check f h.op).Answers () ↔ ∃ view alloc, c.Tile h view alloc := by
  constructor
  · intro hcheck
    obtain ⟨k, b, hd, x, z, he, hc⟩ := hr.wellFormed.exists_at (hr.isLive_eq hh)
    rw [hr.code_eq] at hc
    subst hc
    obtain rfl := hr.eq_of_op hh (Spine.mem_heads_at k b x z hd) he.symm
    obtain ⟨op, hop⟩ := Inspect.answers_discard.1 hcheck
    obtain ⟨view, alloc, ht, -⟩ := (gives_allocationOf hr hm).of_answers hop
    exact ⟨view, alloc, ht⟩
  · rintro ⟨view, alloc, ht⟩
    obtain ⟨parent, region, hop⟩ := hr.exists_record hh
    obtain ⟨parent', region', hop'⟩ := hr.exists_record ht.view_mem
    obtain ⟨w, hw⟩ := Option.isSome_iff_exists.1 ht.tile_kind
    obtain ⟨u, supplied, -, -, below, hops, -, hbelow, -⟩ :=
      (hm h hh).operands_of_subView (OpKind.window?_eq_some.1 hw)
    obtain ⟨source, hops', hsource⟩ := (hm view ht.view_mem).operands_of_view ht.view_kind
    have hview := definingOpOfKind_eq hr ht.view_mem hops (Function.has_of_bufferType? hbelow) ht.tile_on
    have halloc := definingOpOfKind_eq hr ht.alloc_mem hops' hsource ht.view_on
    rw [ht.view_kind] at hview
    rw [ht.alloc_kind] at halloc
    simp only [check, allocationOf, Inspect.answers_discard, Inspect.answers_bind,
      Inspect.answers_lift, Function.op_eq_ok.2 hop, Function.op_eq_ok.2 hop', Except.ok.injEq,
      exists_eq_left', Operation.window, Inspect.answers_orDecline, Node.record, hw,
      Operation.operand, hops, hops', List.getElem?_cons_zero, Fault.require_some, hview, halloc,
      Option.some.injEq]
    exact ⟨_, (), ⟨w, rfl⟩, rfl⟩

end Reallocation

end Checks

namespace Function

structure Cleanable (f : Function) : Prop where
  built : f.Built
  layered : Layered f.code.heads
  ordered : Node.Ordered f.code.heads

theorem Orderly.cleanable {f : Function} (h : f.Orderly) : f.Cleanable where
  built := ⟨h.tidy.wellFormed, h.tidy.code.nested, h.has_operand, h.sorted.made h.tidy.wellFormed⟩
  layered := h.layered
  ordered := h.tidy.forward.pairwise.imp fun {a later} ha _ _ ⟨v, hv, hres⟩ =>
    ha v (List.mem_of_mem_head? hv) (by simp [Node.defined, hres])

namespace Cleanable

variable {f g : Function} {k : Spine} {b x z c : Code} {hd h : Node} {σ : ValueId → ValueId}
  {new : List Node}

theorem clean_iff (hf : f.Cleanable) (hh : h ∈ f.code.heads) :
    h.Clean f.code.heads ↔ ∀ rule ∈ Rule.viewCleanup, rule.Declines f h.op := by
  have hr : f.Represents f.code := hf.built.wellFormed
  simp only [Rule.viewCleanup, List.forall_mem_cons, List.not_mem_nil, Rule.Declines, Rule.check,
    Reallocation.check_answers hr hf.built.made hh, ViewFolding.check_answers hr hf.built.made hh,
    false_imp_iff, implies_true, and_true]
  constructor
  · refine fun hclean => ⟨?_, ?_⟩
    · rintro ⟨view, alloc, ht⟩
      exact (hclean ht.tile_kind view ht.view_mem ht.tile_on).1 ht.view_kind
    · rintro ⟨below, hbelow, hon, hlies⟩
      exact (hclean hlies.window below hbelow hon).2 hlies
  · rintro ⟨hreallocation, hfolding⟩ hwindow below hbelow hon
    refine ⟨fun hview => hreallocation ?_, fun hlies => hfolding ⟨below, hbelow, hon, hlies⟩⟩
    obtain ⟨alloc, hmem, halloc, hon'⟩ := hf.layered.shown below hbelow hview
    exact ⟨below, alloc, hh, hbelow, hmem, hwindow, hview, halloc, hon, hon'⟩

end Cleanable

namespace Replaces

variable {f g : Function} {k : Spine} {b x z : Code} {hd h : Node} {σ : ValueId → ValueId}
  {new : List Node} (hg : f.Replaces g k b x z σ new)
  (hr : f.Represents (k.plug (b ++ .node hd x z))) (hfresh : ∀ v, σ v = v ∨ ¬ f.Has (σ v))

include hg hr hfresh

theorem clean (hhas : ∀ v ∈ h.operands, f.Has v)
    (hmoved : h.kind.window?.isSome = true → ∀ u ∈ h.operands.head?, σ u ≠ u →
      ∀ n ∈ new, n.kind ≠ .view ∧ n.kind.window? = none)
    (hclean : h.Clean (k.plug (b ++ .node hd x z)).heads) :
    (h.rename σ).Clean g.code.heads := by
  intro hwindow below hbelow ⟨v, hv, hres⟩
  rw [Node.rename, List.head?_map, Option.mem_def, Option.map_eq_some_iff] at hv
  obtain ⟨u, hu, rfl⟩ := hv
  rcases hg.cases hbelow with hnew | ⟨h₁, hh₁, rfl⟩
  · have hne : σ u ≠ u := fun hsame => hg.values below hnew u
      (by simp [Node.defined, hres, hsame]) (hhas u (List.mem_of_mem_head? hu))
    obtain ⟨hview, hnone⟩ := hmoved hwindow u hu hne below hnew
    exact ⟨hview, Node.not_liesIn hnone⟩
  · have hin : h₁ ∈ (k.plug (b ++ .node hd x z)).heads :=
      Spine.mem_heads_iff.2 (hh₁.imp_right .inr)
    exact hclean hwindow h₁ hin (Node.On.of_rename (σ := σ)
      ⟨σ u, by simp [Node.rename, Option.mem_def.1 hu], hres⟩ hfresh (hr.has_defined hin))

theorem ordered (ho : Node.Ordered (k.plug (b ++ .node hd x z)).heads) (hnew : Node.Ordered new)
    (hbefore : ∀ h ∈ k.before b, ∀ n ∈ new, h.kind.window?.isSome = true → n.kind.window?.isSome = true →
      ¬ (h.rename σ).On n)
    (hbehind : ∀ n ∈ new, ∀ h, h ∈ x.heads ∨ h ∈ k.behind z → n.kind.window?.isSome = true →
      h.kind.window?.isSome = true → ¬ n.On h) : Node.Ordered g.code.heads := by
  refine hg.pairwise ho (fun h _ later hlater hno hw hw' hon => ?_) hnew (fun h hh _ => hbefore h hh)
    fun n hn h hh _ => hbehind n hn h hh
  have hon' : (h.rename σ).On later := hon
  exact hno hw hw' (hon'.of_rename hfresh (hr.has_defined hlater))

end Replaces

namespace Cleanable

variable {f g : Function} {k : Spine} {b x z : Code} {hd h : Node}

theorem shed (hf : f.Cleanable) (hs : f.Sheds g k b x z hd) : g.Cleanable where
  built := hf.built.shed hs
  layered := hs.layered hf.built.nested hf.built.has hf.layered
  ordered := hs.replaces.ordered hs.before (fun _ => .inl rfl) (hs.before.code_eq ▸ hf.ordered) .nil
    (by simp) (by simp)

theorem clean_shed (hf : f.Cleanable) (hs : f.Sheds g k b x z hd)
    (hclean : ∀ h ∈ f.code.heads, h.Clean f.code.heads) : ∀ h ∈ g.code.heads, h.Clean g.code.heads := by
  intro h' hh'
  rcases hs.replaces.cases hh' with hnew | ⟨h, hh, rfl⟩
  · cases hnew
  have hin : h ∈ f.code.heads := hs.before.code_eq ▸ Spine.mem_heads_iff.2 (hh.imp_right .inr)
  exact hs.replaces.clean hs.before (fun _ => .inl rfl) (hf.built.has h hin)
    (fun _ _ _ hne => (hne rfl).elim) (hs.before.code_eq ▸ hclean h hin)

end Cleanable

def Cleans (f g : Function) (k : Spine) (b x z : Code) : Prop :=
  ∃ σ new, f.Replaces g k b x z σ new ∧ g.Cleanable ∧
    ∀ h ∈ (k.before b).map (·.rename σ) ++ new, h.Clean g.code.heads

end Function

variable {f : Function} {k : Spine} {b x z : Code} {hd : Node}

namespace Reallocation

theorem merged_of_moved {tile bytes new v : ValueId} (h : merged tile bytes new v ≠ v) :
    merged tile bytes new v = new := by
  rcases merged_cases tile bytes new v with rfl | rfl | hsame
  · exact merged_tile
  · exact merged_bytes
  · exact (h hsame).elim

theorem gives_cleans {space : MemorySpace} (hf : f.Cleanable)
    (hr : f.Represents (k.plug (b ++ .node hd x z)))
    (hclean : ∀ h ∈ k.before b, h.Clean f.code.heads) :
    ((Rule.reallocation space).apply f hd.op).Gives True fun g => f.Cleans g k b x z := by
  obtain ⟨hb, hl, ho⟩ := hf
  rw [hr.code_eq] at hclean hl ho
  refine (gives_splice hr (hb.made_of hr)).mono ?_
  rintro g hg ⟨view, alloc, tile, bytes, type, type', op, new, ht, hres, hbytes, hsplice⟩
  have hwindow := ht.tile_kind
  obtain rfl : x = .nil := Spine.body_eq_nil (hb.nested_of hr) (by
    obtain ⟨w, hw⟩ := Option.isSome_iff_exists.1 hwindow
    rw [OpKind.window?_eq_some.1 hw]
    rfl)
  have hfresh := merged_fresh hsplice
  have hreplaces : f.Replaces g k b .nil z (merged tile bytes new) [made op new type space] :=
    hsplice.replaces
  have hnew := not_has_new hsplice
  refine ⟨_, _, hreplaces, ⟨((Rule.reallocation space).gives_built hb hr).of_answers hg |>.1, ?_, ?_⟩,
    List.forall_mem_append.2 ⟨List.forall_mem_map.2 fun h hh => ?_, List.forall_mem_singleton.2 ?_⟩⟩
  · refine hreplaces.layered hr hl (hb.has_of hr)
      (fun _ _ => List.forall_mem_singleton.2 (.of_other rfl rfl)) (fun rank _ v _ hne => ?_) ?_
      (List.forall_mem_singleton.2 fun hview => by cases hview)
    · rw [merged_of_moved hne, Function.rankIn_of_other hreplaces.wellFormed hnew
        (hreplaces.mem_new (List.mem_singleton_self _)) (by simp [made, Node.value, Node.defined]) rfl]
      exact Nat.zero_le _
    · rintro shown hshown - a ha halloc ⟨u, hu, hua⟩
      have hhead : merged tile bytes new u ∈ (shown.rename (merged tile bytes new)).operands.head? := by
        simp [Node.rename, Option.mem_def.1 hu]
      by_cases hsame : merged tile bytes new u = u
      · refine ⟨a.rename _, hreplaces.mem_around ?_, halloc, _, hhead, by rw [hsame]; exact hua⟩
        rcases Spine.mem_heads_iff.1 ha with ha | rfl | ha | ha
        · exact .inl ha
        · simp [halloc, OpKind.window?] at hwindow
        · cases ha
        · exact .inr ha
      · exact ⟨_, hreplaces.mem_new (List.mem_singleton_self _), rfl, _, hhead,
          by rw [merged_of_moved hsame]; rfl⟩
  · exact hreplaces.ordered hr hfresh ho (List.pairwise_singleton _ _)
      (fun h _ => List.forall_mem_singleton.2 fun _ hw => by cases hw)
      (List.forall_mem_singleton.2 fun h _ hw => by cases hw)
  · refine hreplaces.clean hr hfresh (hb.has_of hr h (Spine.mem_heads_iff.2 (.inl hh)))
      (fun _ _ _ _ => List.forall_mem_singleton.2 ⟨by simp [made, Node.value], rfl⟩) (hclean h hh)
  · intro hw
    cases hw

end Reallocation

theorem Node.on_of_redirect {h : Node} {u v r : ValueId} {t : ValueType} (hdef : hd.defined = [r])
    (hres : hd.result = some (r, t)) (hu : u ∈ h.operands.head?) (hne : hd.redirect v u ≠ u) :
    h.On hd := by
  have hu' : u ∈ hd.defined := not_not.1 fun hout => hne (hd.redirect_of_not_mem hout v)
  obtain rfl : u = r := by simpa [hdef] using hu'
  exact ⟨u, hu, by simp [hres]⟩

namespace ViewFolding

variable {inner : Node} {w w' : Window} {u source r : ValueId} {supplied supplied' : List ValueId}
  {type : BufferType} {t : ValueType}

section Ready

variable (hready : Ready f (k.plug (b ++ .node hd x z)) hd inner w w' u source supplied supplied' type)

include hready

theorem Ready.window : hd.kind.window?.isSome = true := by rw [hready.kind]; rfl

theorem Ready.inner_window : inner.kind.window?.isSome = true := by rw [hready.innerKind]; rfl

theorem Ready.on : hd.On inner := by
  obtain ⟨-, t, hres⟩ := Code.of_definer? hready.definer
  exact ⟨u, by simp [hready.operands], by simp [hres]⟩

theorem Ready.ranks {rank : ValueId → Nat} (hrank : Ranking (k.plug (b ++ .node hd x z)).heads rank)
    (hres : hd.result = some (r, t)) : rank source < rank u ∧ rank u < rank r ∧ rank r ≤ 2 := by
  obtain ⟨hinner, t', hres'⟩ := Code.of_definer? hready.definer
  exact ⟨((hrank.ranked inner hinner).view hready.inner_window source (by simp [hready.innerOperands])
      _ hres').1,
    (hrank.ranked hd (Spine.mem_heads_at k b x z hd)).view hready.window u (by simp [hready.operands])
      _ hres⟩

theorem Ready.inner_mem_before (hl : Layered (k.plug (b ++ .node hd x z)).heads)
    (ho : Node.Ordered (k.plug (b ++ .node hd x z)).heads) (hx : x = .nil) : inner ∈ k.before b := by
  obtain ⟨hinner, t, hres⟩ := Code.of_definer? hready.definer
  subst hx
  rcases Spine.mem_heads_iff.1 hinner with hin | rfl | hin | hin
  · exact hin
  · obtain ⟨rank, hrank⟩ := hl.exists_ranking
    exact absurd (hready.ranks hrank hres).2.1 (lt_irrefl _)
  · cases hin
  · rw [Node.Ordered, Spine.heads_at, List.pairwise_append] at ho
    exact (List.rel_of_pairwise_cons ho.2.1 (by simpa [Code.heads] using hin) hready.window
      hready.inner_window hready.on).elim

theorem Ready.flat (hm : ∀ h ∈ (k.plug (b ++ .node hd x z)).heads, h.Made f)
    (hl : Layered (k.plug (b ++ .node hd x z)).heads)
    (hclean : inner.Clean (k.plug (b ++ .node hd x z)).heads) {below : Node}
    (hbelow : below ∈ (k.plug (b ++ .node hd x z)).heads) (hon : inner.On below) :
    below.kind ≠ .view ∧ below.kind.window? = none := by
  refine ⟨(hclean hready.inner_window below hbelow hon).1,
    Option.eq_none_iff_forall_ne_some.2 fun w₁ hw => ?_⟩
  obtain ⟨rank, hrank⟩ := hl.exists_ranking
  obtain ⟨r, t, hres⟩ := (hm hd (Spine.mem_heads_at k b x z hd)).result_of_buffer
    (by rw [hready.kind]; rfl)
  obtain ⟨u₁, _, v₁, _, _, hops, hres₁, -⟩ :=
    (hm below hbelow).operands_of_subView (OpKind.window?_eq_some.1 hw)
  obtain ⟨v, hv, hres'⟩ := hon
  obtain rfl : source = v := by simpa [hready.innerOperands] using hv
  obtain rfl : v₁ = source := by simpa [hres₁] using hres'
  have hlow := ((hrank.ranked below hbelow).view (by rw [hw]; rfl) u₁ (by simp [hops]) _ hres₁).1
  have hhigh := hready.ranks hrank hres
  dsimp only at hlow
  omega

end Ready

structure Folded (f g : Function) (k : Spine) (b z : Code) (hd last : Node) (source v : ValueId)
    (new : List Node) : Prop where
  replaces : f.Replaces g k b .nil z (hd.redirect v) new
  mem : last ∈ new
  window : last.kind.window?.isSome = true
  head : last.operands.head? = some source
  result : ∃ t, last.result = some (v, t)
  other : ∀ n ∈ new, n = last ∨ n.kind = .addIndex ∨ ∃ i, n.kind = .constant i

namespace Folded

variable {g : Function} {last : Node} {v : ValueId} {new : List Node}
  (h : Folded f g k b z hd last source v new)

include h

theorem not_has : ¬ f.Has v := by
  obtain ⟨t, hres⟩ := h.result
  exact h.replaces.values last h.mem v (by simp [Node.defined, hres])

theorem eq_last {n : Node} (hn : n ∈ new) (hw : n.kind.window?.isSome = true) : n = last :=
  (h.other n hn).resolve_right fun hk => by rcases hk with hk | ⟨i, hk⟩ <;> simp [hk, OpKind.window?] at hw

theorem on_inner (hinner : inner.operands.head? = some source) {below : Node} (hon : last.On below) :
    inner.On below := by
  obtain ⟨u, hu, hres⟩ := hon
  obtain rfl : source = u := by simpa [h.head] using hu
  exact ⟨source, hinner, hres⟩

variable (hb : f.Built) (hr : f.Represents (k.plug (b ++ .node hd .nil z)))
  (hwindow : hd.kind.window?.isSome = true) (hdef : hd.defined = [r]) (hres : hd.result = some (r, t))
  (hhas : f.Has source)

include hb hr hwindow hdef hres hhas

theorem layered (hl : Layered (k.plug (b ++ .node hd .nil z)).heads)
    (hlow : ∀ rank, Ranking (k.plug (b ++ .node hd .nil z)).heads rank →
      rank source < rank r ∧ rank r ≤ 2) : Layered g.code.heads := by
  obtain ⟨t, hlast⟩ := h.result
  have hrankIn : ∀ rank, f.rankIn g rank v = rank source + 1 := fun rank => by
    rw [Function.rankIn_of_window h.replaces.wellFormed h.not_has (h.replaces.mem_new h.mem) hlast
      h.window h.head, Function.rankBelow_of_has hhas]
  refine h.replaces.layered_of_fixed hr hl (hb.has_of hr) (fun rank hrank n hn => ?_)
    (fun u hu => hd.redirect_of_not_mem hu v) (fun rank hrank u hu hne => ?_) (fun _ _ _ halloc => ?_)
    (by simp) fun n hn hview => ?_
  · rcases h.other n hn with rfl | hk | ⟨i, hk⟩
    · refine ⟨fun _ u hu p hp => ?_, fun hk => ?_⟩
      · obtain rfl : source = u := by simpa [h.head] using hu
        obtain rfl : (v, t) = p := by simpa [hlast] using hp
        have := hlow rank hrank
        rw [hrankIn, Function.rankIn_of_has hhas]
        omega
      · obtain ⟨w, hw⟩ := Option.isSome_iff_exists.1 h.window
        rw [OpKind.window?_eq_some.1 hw] at hk
        cases hk
    · exact .of_other (by rw [hk]; rfl) (by rw [hk]; rfl)
    · exact .of_other (by rw [hk]; rfl) (by rw [hk]; rfl)
  · obtain rfl : u = r := by simpa [hdef] using hu
    rw [hd.redirect_of_result hres, Function.swapped_self, hrankIn]
    exact (hlow rank hrank).1
  · simp [halloc, OpKind.window?] at hwindow
  · have hw := h.window
    rcases h.other n hn with rfl | hk | ⟨i, hk⟩ <;> simp_all [OpKind.window?]

variable (ho : Node.Ordered (k.plug (b ++ .node hd .nil z)).heads)
  (hhead : inner.operands.head? = some source)

include ho hhead

theorem ordered (hinner : inner ∈ k.before b) (hinner' : inner.kind.window?.isSome = true) :
    Node.Ordered g.code.heads := by
  have hacross := ho
  rw [Node.Ordered, Spine.heads_at, List.pairwise_append] at hacross
  replace hacross := hacross.2.2
  refine h.replaces.ordered hr (hd.redirect_fresh h.not_has) ho ?_ (fun h' hh' n hn hw hw' hon => ?_)
    fun n hn h' hh' hw hw' hon => ?_
  · refine List.pairwise_of_forall_mem_list fun n hn n' hn' hw hw' ⟨u, hu, hres⟩ => ?_
    rw [h.eq_last hn hw] at hu
    obtain rfl : source = u := by simpa [h.head] using hu
    exact h.replaces.values n' hn' source (by simp [Node.defined, hres]) hhas
  · rw [h.eq_last hn hw'] at hon
    obtain ⟨_, hu, hres'⟩ := hon
    rw [Node.rename, List.head?_map, Option.mem_def, Option.map_eq_some_iff] at hu
    obtain ⟨u, hu, rfl⟩ := hu
    obtain ⟨t', hlast⟩ := h.result
    have hv : v = hd.redirect v u := by simpa [hlast] using hres'
    refine hacross h' hh' hd List.mem_cons_self hw hwindow
      (Node.on_of_redirect hdef hres hu fun (hsame : hd.redirect v u = u) => ?_)
    exact h.not_has (hv.trans hsame ▸
      hb.has_of hr h' (Spine.mem_heads_iff.2 (.inl hh')) u (List.mem_of_mem_head? hu))
  · rw [h.eq_last hn hw] at hon
    obtain hh' : h' ∈ k.behind z := by simpa [Code.heads] using hh'
    exact hacross inner hinner h' (List.mem_cons_of_mem _ (List.mem_append_right _ hh')) hinner' hw'
      (h.on_inner hhead hon)

theorem clean (hclean : ∀ h ∈ k.before b, h.Clean (k.plug (b ++ .node hd .nil z)).heads)
    (hflat : ∀ below ∈ (k.plug (b ++ .node hd .nil z)).heads, inner.On below →
      below.kind ≠ .view ∧ below.kind.window? = none) :
    ∀ n ∈ (k.before b).map (·.rename (hd.redirect v)) ++ new, n.Clean g.code.heads := by
  rw [Node.Ordered, Spine.heads_at, List.pairwise_append] at ho
  refine List.forall_mem_append.2 ⟨List.forall_mem_map.2 fun h' hh' => ?_,
    fun n hn hw below hbelow hon => ?_⟩
  · exact h.replaces.clean hr (hd.redirect_fresh h.not_has)
      (hb.has_of hr h' (Spine.mem_heads_iff.2 (.inl hh'))) (fun hw u hu hne => absurd
        (Node.on_of_redirect hdef hres hu hne) (ho.2.2 h' hh' hd List.mem_cons_self hw hwindow)) (hclean h' hh')
  · rw [h.eq_last hn hw] at hon ⊢
    have hon' := h.on_inner hhead hon
    obtain ⟨u, hu, hres'⟩ := hon'
    obtain rfl : source = u := by simpa [hhead] using hu
    rcases h.replaces.cases hbelow with hbelow | ⟨h₁, hh₁, rfl⟩
    · exact absurd hhas (h.replaces.values below hbelow source (by simp [Node.defined, hres']))
    · obtain ⟨hview, hnone⟩ := hflat h₁ (Spine.mem_heads_iff.2 (hh₁.imp_right .inr)) ⟨source, hu, hres'⟩
      exact ⟨hview, Node.not_liesIn hnone⟩

end Folded

theorem gives_folded (hb : f.Built) (hr : f.Represents (k.plug (b ++ .node hd x z))) :
    (Rule.viewFolding.apply f hd.op).Gives True fun g => ∃ inner w w' u source supplied supplied' type,
      Ready f (k.plug (b ++ .node hd x z)) hd inner w w' u source supplied supplied' type ∧
        (source ∉ hd.defined → ∃ last v new, Folded f g k b z hd last source v new) := by
  refine (gives_splice hr (hb.made_of hr)).mono ?_
  rintro g - ⟨inner, w, w', u, source, supplied, supplied', type, y, offsets, vs, op, v, result,
    hready, -, hsums, -, hsplice⟩
  refine ⟨inner, w, w', u, source, supplied, supplied', type, hready, fun hsource => ⟨_, v, _,
    hsplice.replaces, ?_, rfl, ?_, ⟨_, rfl⟩, fun n hn => (hsums.kinds hn).symm⟩⟩
  · simp [Code.heads_rename, Code.heads]
  · simp [Node.rename, Node.value, hd.redirect_of_not_mem hsource]

theorem gives_cleans (hf : f.Cleanable) (hr : f.Represents (k.plug (b ++ .node hd x z)))
    (hclean : ∀ h ∈ k.before b, h.Clean f.code.heads) :
    (Rule.viewFolding.apply f hd.op).Gives True fun g => f.Cleans g k b x z := by
  obtain ⟨hb, hl, ho⟩ := hf
  rw [hr.code_eq] at hclean hl ho
  refine (gives_folded hb hr).mono ?_
  rintro g hg ⟨inner, w, w', u, source, supplied, supplied', type, hready, hfolded⟩
  obtain rfl : x = .nil := Spine.body_eq_nil (hb.nested_of hr) (by rw [hready.kind]; rfl)
  obtain ⟨r, t, hres⟩ := (hb.made_at hr).result_of_buffer (by rw [hready.kind]; rfl)
  have hdef : hd.defined = [r] := hr.defined_of_result (Spine.mem_heads_at k b .nil z hd)
    (by rw [hready.kind]; rfl) hres
  have hlow : ∀ rank, Ranking (k.plug (b ++ .node hd .nil z)).heads rank →
      rank source < rank r ∧ rank r ≤ 2 := fun rank hrank => by
    have := hready.ranks hrank hres
    omega
  have hsource : source ∉ hd.defined := by
    obtain ⟨rank, hrank⟩ := hl.exists_ranking
    rw [hdef, List.mem_singleton]
    rintro rfl
    exact absurd (hlow rank hrank).1 (lt_irrefl _)
  obtain ⟨last, v, new, h⟩ := hfolded hsource
  have hhas : f.Has source := Function.has_of_bufferType? hready.source
  have hinner := hready.inner_mem_before hl ho rfl
  have hhead : inner.operands.head? = some source := by simp [hready.innerOperands]
  refine ⟨_, new, h.replaces, ⟨((gives_built hb hr).of_answers hg).1,
    h.layered hb hr hready.window hdef hres hhas hl hlow,
    h.ordered hb hr hready.window hdef hres hhas ho hhead hinner hready.inner_window⟩,
    h.clean hb hr hready.window hdef hres hhas ho hhead hclean fun below hbelow hon => ?_⟩
  exact hready.flat (hb.made_of hr) hl (hclean inner hinner) hbelow hon

end ViewFolding

namespace Greedy

theorem gives_cleans {rule : Rule} (hrule : rule ∈ Rule.viewCleanup) (hf : f.Cleanable)
    (hr : f.Represents (k.plug (b ++ .node hd x z))) (hclean : ∀ h ∈ k.before b, h.Clean f.code.heads) :
    (rule.apply f hd.op).Gives True fun g => f.Cleans g k b x z := by
  simp only [Rule.viewCleanup, List.mem_cons, List.not_mem_nil, or_false] at hrule
  rcases hrule with rfl | rfl
  · exact Reallocation.gives_cleans hf hr hclean
  · exact ViewFolding.gives_cleans hf hr hclean

theorem settles_viewCleanup : Settles (· = .overflow) Rule.viewCleanup fun f done =>
    f.Cleanable ∧ ∀ h ∈ done, h.Clean f.code.heads where
  wellFormed h := h.1.built.wellFormed
  change := by
    rintro f k b hd x z hr ⟨hf, hclean⟩ rule hrule
    exact (gives_cleans hrule hf hr hclean).endsWith.mono fun g _ hg => hg
  skip := by
    rintro f k b hd x z hr ⟨hf, hclean⟩ hdeclines
    refine ⟨hf, List.forall_mem_append.2 ⟨hclean, List.forall_mem_singleton.2 ?_⟩⟩
    exact (hf.clean_iff (hr.code_eq ▸ Spine.mem_heads_at k b x z hd)).2 hdeclines

theorem converges_viewCleanup : Converges (· = .overflow) Rule.viewCleanup 1 fun n f =>
    f.Cleanable ∧ (n = 1 → ∀ h ∈ f.code.heads, h.Clean f.code.heads) :=
  settles_viewCleanup.converges
    (fun _ _ _ _ _ _ _ hf hclean hs => ⟨hf.shed hs, hf.clean_shed hs hclean⟩)
    (fun hf hr rule _ => (rule.gives_built hf.built hr).endsWith.mono fun _ _ _ => trivial)
    fun _ hf _ hh => (hf.clean_iff hh).1

end Greedy

end KernelLowering
