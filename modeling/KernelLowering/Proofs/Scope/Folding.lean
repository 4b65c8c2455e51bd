import KernelLowering.Proofs.Execution.Canonicalization
import KernelLowering.Proofs.Folding.Views
import KernelLowering.Proofs.Scope.Tidy

namespace KernelLowering

variable {f g : Function} {k : Spine} {b x z : Code} {hd : Node} {known : List ValueId}

theorem Function.Tidy.has (h : f.Tidy) {c : Code} (hr : f.Represents c) :
    ∀ hd ∈ c.heads, ∀ v ∈ hd.operands, f.Has v := hr.code_eq ▸ h.forward.has

namespace AdditionFolding

theorem Folded.tidy {c y : Code} {lhs rhs w : ValueId} (h : Folded c lhs rhs y w)
    (hl : lhs ∈ known) (hr : rhs ∈ known) : y.Tidy known ∧ w ∈ y.exports ++ known := by
  cases h with
  | constants op v => exact ⟨.value (by simp) rfl .nil, List.mem_cons_self⟩
  | right => exact ⟨.nil, hr⟩
  | left => exact ⟨.nil, hl⟩

theorem tidy (h : f.Tidy) (hr : f.Represents (k.plug (b ++ .node hd x z)))
    (hcheck : (Rule.additionFolding.check f hd.op).Answers ())
    (hg : Rule.additionFolding.performAt f hd.op = .ok g) : g.Tidy ∧ f.Grows g := by
  obtain ⟨-, lhs, rhs, rest, hops, hl, hr', hfold⟩ :=
    (gives_check hr (ready_of_answers hr hcheck)).of_answers hcheck
  obtain ⟨y, w, hy, hsplice⟩ := (yields_perform hr hops hl hr' hfold).of_ok hg
  obtain ⟨htidy, hw⟩ := hy.tidy (h.known_operand hr (v := lhs) (by simp [hops]))
    (h.known_operand hr (v := rhs) (by simp [hops]))
  exact ⟨h.replace hr hsplice htidy hw, hsplice.grows⟩

end AdditionFolding

namespace OffsetFolding

theorem tidy (h : f.Tidy) (hr : f.Represents (k.plug (b ++ .node hd x z)))
    (hg : Rule.offsetFolding.performAt f hd.op = .ok g) : g.Tidy ∧ f.Grows g := by
  obtain ⟨w, source, supplied, type, hready⟩ := ready_of_ok hr hg
  obtain ⟨op, v, result, -, hsplice⟩ := (yields_perform hr hready).of_ok hg
  refine ⟨h.replace hr hsplice (.value (fun u hu => h.known_operand hr ?_) rfl .nil)
    List.mem_cons_self, hsplice.grows⟩
  rw [hready.operands, List.mem_cons]
  exact (List.mem_cons.1 hu).imp_right mem_remaining

end OffsetFolding

namespace ViewFolding

theorem Summed.tidy {o o' : SuppliedOffset ValueId} {y : Code} {offset : Offset} {vs : List ValueId}
    (h : Summed o o' y offset vs) (ho : ∀ u, o = .supplied u → u ∈ known)
    (ho' : ∀ u, o' = .supplied u → u ∈ known) :
    y.Tidy known ∧ ∀ v ∈ vs, v ∈ y.exports ++ known := by
  have hadded : ∀ {u b : _} (op op' : OpId) (c v : ValueId), u ∈ known →
      (Code.node (.value op (.constant b) [] c .index) .nil
        (.node (.value op' .addIndex [u, c] v .index) .nil .nil)).Tidy known := fun _ _ _ _ hu =>
    .value (by simp) rfl (.value (by simp [hu]) rfl .nil)
  cases h with
  | static => exact ⟨.nil, by simp⟩
  | outer u => exact ⟨.nil, by simpa [Code.exports] using ho u rfl⟩
  | inner u => exact ⟨.nil, by simpa [Code.exports] using ho' u rfl⟩
  | outerShifted op op' c v => exact ⟨hadded op op' c v (ho _ rfl), by simp [Code.exports, Node.value]⟩
  | innerShifted op op' c v =>
    exact ⟨hadded op op' c v (ho' _ rfl), by simp [Code.exports, Node.value]⟩
  | both u u' op v =>
    exact ⟨.value (by simp [ho u rfl, ho' u' rfl]) rfl .nil, by simp [Code.exports, Node.value]⟩

theorem SummedAll.tidy (known : List ValueId) {dims : List (SuppliedOffset ValueId × SuppliedOffset ValueId)} {y : Code}
    {offsets : List Offset} {supplied : List ValueId} (h : SummedAll dims y offsets supplied)
    (hdims : ∀ d ∈ dims, (∀ u, d.1 = .supplied u → u ∈ known) ∧ ∀ u, d.2 = .supplied u → u ∈ known) :
    y.Tidy known ∧ ∀ v ∈ supplied, v ∈ y.exports ++ known := by
  induction h generalizing known with
  | nil => exact ⟨.nil, by simp⟩
  | @cons o o' dims y y' offset offsets vs supplied hfirst hrest ih =>
    obtain ⟨⟨ho, ho'⟩, hdims⟩ := List.forall_mem_cons.1 hdims
    obtain ⟨hy, hvs⟩ := hfirst.tidy ho ho'
    obtain ⟨hy', hsupplied⟩ := ih (y.exports ++ known) fun d hd =>
      ⟨fun u hu => List.mem_append_right _ ((hdims d hd).1 u hu),
        fun u hu => List.mem_append_right _ ((hdims d hd).2 u hu)⟩
    refine ⟨hy.append hy', fun v hv => ?_⟩
    rw [Code.exports_append, List.append_assoc]
    exact (List.mem_append.1 hv).elim (fun hv => List.mem_append_right _ (hvs v hv)) (hsupplied v)

theorem SummedAll.tidy_view {w w' combined : Window} {u source v : ValueId}
    {supplied supplied' vs : List ValueId} {y : Code} {offsets : List Offset} {op : OpId}
    {t : ValueType} (h : SummedAll ((Offset.supply w.offsets supplied).zip
      (Offset.supply w'.offsets supplied')) y offsets vs)
    (houter : ∀ u' ∈ u :: supplied, u' ∈ known) (hinner : ∀ u' ∈ source :: supplied', u' ∈ known) :
    (y ++ .node (.value op (.subView combined) (source :: vs) v t) .nil .nil).Tidy known := by
  obtain ⟨hy, hvs⟩ := h.tidy known fun d hd => by
    obtain ⟨hd₁, hd₂⟩ := List.of_mem_zip hd
    exact ⟨fun u' hu' => houter u' (List.mem_cons_of_mem _ (Offset.mem_of_supplied (hu' ▸ hd₁))),
      fun u' hu' => hinner u' (List.mem_cons_of_mem _ (Offset.mem_of_supplied (hu' ▸ hd₂)))⟩
  refine hy.append (.value (fun u' hu' => ?_) rfl .nil)
  rcases List.mem_cons.1 hu' with rfl | hu'
  · exact List.mem_append_right _ (hinner u' List.mem_cons_self)
  · exact hvs u' hu'

theorem tidy (h : f.Tidy) (hr : f.Represents (k.plug (b ++ .node hd x z)))
    (hg : Rule.viewFolding.performAt f hd.op = .ok g) : g.Tidy ∧ f.Grows g := by
  obtain ⟨inner, w, w', u, source, supplied, supplied', type, hready⟩ := ready_of_ok hr hg
  obtain ⟨y, offsets, vs, op, v, result, hsums, -, hsplice⟩ := (yields_perform hr hready).of_ok hg
  obtain ⟨hinner, t, hres⟩ := Code.of_definer? hready.definer
  have houter : ∀ u' ∈ u :: supplied, u' ∈ k.knownBehind b f.arguments := fun u' hu' =>
    h.known_operand hr (hready.operands ▸ hu')
  have hbelow : ∀ u' ∈ source :: supplied', u' ∈ k.knownBehind b f.arguments := fun u' hu' =>
    h.operands_of_definer hr hinner hres (houter u List.mem_cons_self) u' (hready.innerOperands ▸ hu')
  exact ⟨h.replace hr hsplice (hsums.tidy_view houter hbelow) (by simp [Code.exports, Node.value]),
    hsplice.grows⟩

end ViewFolding

namespace TrivialLoops

theorem replaced_mem {swaps : List (ValueId × ValueId)} {v : ValueId} (hv : v ∈ swaps.map (·.1)) :
    replaced swaps v ∈ swaps.map (·.2) := by
  induction swaps generalizing v with
  | nil => cases hv
  | cons p swaps ih =>
    rw [replaced_cons, Function.comp, List.map_cons, List.mem_cons]
    by_cases hvp : v = p.1
    · rw [hvp, Function.swapped_self]
      by_cases hp : p.2 ∈ swaps.map (·.1)
      · exact .inr (ih hp)
      · exact .inl (replaced_of_not_mem hp)
    · rw [Function.swapped_of_ne hvp]
      rw [List.map_cons, List.mem_cons] at hv
      exact .inr (ih (hv.resolve_left hvp))

theorem Drops.tidy (known : List ValueId) {pairs kept : List (LoopRange × ValueId)} {swaps : List (ValueId × ValueId)}
    {y : Code} (h : Drops pairs kept swaps y) :
    y.Tidy known ∧ y.exports = (swaps.map (·.2)).reverse := by
  induction h generalizing known with
  | nil => exact ⟨.nil, rfl⟩
  | single op v hrange _ ih =>
    refine ⟨.value (by simp) rfl (ih (v :: known)).1, ?_⟩
    rw [Code.exports, (ih known).2, List.map_cons, List.reverse_cons]
    rfl
  | keep _ ih => exact ih known

theorem tidy (h : f.Tidy) (hr : f.Represents (k.plug (b ++ .node hd x z)))
    (hcheck : (Rule.trivialLoops.check f hd.op).Answers ())
    (hg : Rule.trivialLoops.performAt f hd.op = .ok g) : g.Tidy ∧ f.Grows g := by
  obtain ⟨ρ, y, ht, hrep, hgrows⟩ := (yields_perform hr).of_ok hg
  have hres : hd.result = none :=
    h.plain_at hr (OpKind.isStatement_of_isLoop (isLoop_of_answers hr hcheck))
  have hfix : ∀ v, v ∉ hd.defined → ρ v = v := fun v hv =>
    vars_of_trimmed hr ht fun hm => hv (List.mem_append_right _ hm)
  refine ⟨h.splice hr hrep hgrows.arity (fun v hv _ => hfix v hv) ?_
    (fun v t hv => by simp [hres] at hv), hgrows⟩
  have hbody : ∀ {news : List ValueId}, (∀ v ∈ hd.inductionVars, ρ v ∈ news) →
      (x.rename ρ).Tidy (news ++ k.knownBehind b f.arguments) := by
    intro news hnews
    refine (h.body_at hr).rename (fun v hv => ?_) fun v hv => hfix v fun hm =>
      (nodup_at hr).2.2 hm hv
    rcases List.mem_append.1 hv with hv | hv
    · exact List.mem_append_left _ (hnews v hv)
    · rw [hfix v fun hm => hr.not_known hm hv]
      exact List.mem_append_right _ hv
  have hvars := (pairs_of_represents hr).2
  cases ht with
  | never => exact .nil
  | @once swaps yd hdrops hnew =>
    obtain ⟨hy, hexports⟩ := hdrops.tidy (k.knownBehind b f.arguments)
    refine hy.append (hexports ▸ hbody fun v hv => List.mem_reverse.2 (replaced_mem ?_))
    have hmem := (hdrops.vars.mem_iff (a := v)).2 (by rwa [hvars])
    simpa using hmem
  | @loop kept swaps yd kind vars op hdrops hloop hranges hlen hnew =>
    obtain ⟨hy, hexports⟩ := hdrops.tidy (k.knownBehind b f.arguments)
    refine hy.append (.loop hloop ?_ .nil)
    rw [hexports, ← List.append_assoc]
    refine hbody fun v hv => ?_
    have hmem := (hdrops.vars.mem_iff (a := v)).2 (by rwa [hvars])
    have hold : v ∈ (swaps ++ (kept.map (·.2)).zip vars).map (·.1) := by
      rwa [List.map_append, List.map_fst_zip (by simp [hlen])]
    have hin := replaced_mem hold
    rw [List.map_append, List.map_snd_zip (by simp [hlen]), List.mem_append] at hin
    exact List.mem_append.2 (hin.symm.imp_right List.mem_reverse.2)

end TrivialLoops

end KernelLowering
