import KernelLowering.Proofs.Scope.ViewCleanup
import KernelLowering.Proofs.Tiling.Updates

namespace KernelLowering

variable {f g : Function} {k : Spine} {b x y z : Code} {hd : Node}

theorem Splice.sort?_rename {σ : ValueId → ValueId} (hs : Splice f g k b (y.rename σ) z) {h : Node}
    {v : ValueId} {t : ValueType} (hh : h ∈ y.heads) (hres : h.result = some (v, t)) :
    g.sort? v = some t.sort := by
  refine hs.represents.sort?_result (h := h.rename σ) ?_ hres
  simp only [Spine.mem_heads_plug, Code.heads_append, Code.heads_rename, List.mem_append]
  exact .inl (.inr (.inl (List.mem_map_of_mem hh)))

namespace TrivialLoops

theorem respectsBuffers {ρ : ValueId → ValueId} (hr : f.Represents (k.plug (b ++ .node hd x z)))
    (hg : g.Represents ((k.rename ρ).plug (b.rename ρ ++ (y ++ z.rename ρ)))) (hgrows : f.Grows g)
    (ht : Trimmed f hd x ρ y) : f.RespectsBuffers g ρ := by
  have hdefined : ∀ v ∈ y.defined, g.Has v := fun v hv => by
    refine hg.has_of_mem ?_
    rw [(Spine.defined_plug _ _).mem_iff]
    simp [hv]
  have hnew : ∀ v, ρ v = v ∨ ρ v ∈ y.defined := by
    intro v
    cases ht with
    | never => exact .inl rfl
    | once hdrops hnew =>
      refine (replaced_cases _ v).imp_right fun hv => ?_
      rw [Code.defined_append, hdrops.defined_eq]
      exact List.mem_append_left _ hv
    | loop op hdrops hloop hranges hlen hnew =>
      refine (replaced_cases _ v).imp_right fun hv => ?_
      rw [List.map_append, List.map_snd_zip (by simp [hlen]), List.mem_append] at hv
      simp only [Code.defined_append, hdrops.defined_eq, Code.defined_node, Node.defined, Node.loop,
        List.mem_append]
      tauto
  refine ⟨fun v hv => ?_, fun v hv => ?_⟩
  · rcases hnew v with h | h
    · rw [h]
      exact hgrows.has hv
    · exact hdefined _ h
  · by_cases hvar : v ∈ hd.inductionVars
    · rw [hr.sort?_var (Spine.mem_heads_at k b x z hd) hvar] at hv
      cases hv
    · rw [vars_of_trimmed hr ht hvar]
      exact hgrows.sort? hv

theorem gives_built (h : f.Built) (hr : f.Represents (k.plug (b ++ .node hd x z))) :
    (Rule.trivialLoops.apply f hd.op).Gives True fun g => g.Built ∧ f.Grows g := by
  rw [Rule.apply, Inspect.gives_bind]
  refine (gives_check hr).mono fun _ _ _ => ?_
  rw [Inspect.gives_lift]
  refine (yields_perform hr).mono ?_
  rintro g - ⟨ρ, y, ht, hg, hgrows⟩
  have hσ := respectsBuffers hr hg hgrows ht
  have hbody : ∀ h ∈ (x.rename ρ).heads, (∀ v ∈ h.operands, g.Has v) ∧ h.Made g := by
    intro h' hh'
    obtain ⟨h'', hh'', rfl⟩ := List.mem_map.1 (Code.heads_rename _ x ▸ hh')
    have hin : h'' ∈ (k.plug (b ++ .node hd x z)).heads := Spine.mem_heads_node.2 (.inr (.inl hh''))
    refine ⟨fun v hv => ?_, hσ.made (h.made_of hr h'' hin)⟩
    obtain ⟨u, hu, rfl⟩ := List.mem_map.1 hv
    exact hσ.has u (h.has_of hr h'' hin u hu)
  have hconstants : ∀ {pairs kept swaps yd}, Drops pairs kept swaps yd →
      ∀ h ∈ yd.heads, (∀ v ∈ h.operands, g.Has v) ∧ h.Made g := by
    intro pairs kept swaps yd hdrops
    induction hdrops with
    | nil => simp [Code.heads]
    | single op v _ _ ih =>
      simp only [Code.heads, List.nil_append, List.forall_mem_cons]
      exact ⟨⟨by simp [Node.value], .ofConstant⟩, ih⟩
    | keep _ ih => exact ih
  have hyheads : ∀ h ∈ y.heads, (∀ v ∈ h.operands, g.Has v) ∧ h.Made g := by
    cases ht with
    | never => simp [Code.heads]
    | once hdrops =>
      simp only [Code.heads_append, List.forall_mem_append]
      exact ⟨hconstants hdrops, hbody⟩
    | @loop kept swaps yd kind vars op hdrops hloop =>
      simp only [Code.heads_append, Code.heads, List.append_nil, List.forall_mem_append,
        List.forall_mem_cons]
      refine ⟨hconstants hdrops, ⟨by simp [Node.loop], ?_⟩, hbody⟩
      refine .of_sorts?_eq_none ?_
      cases kind <;> first | rfl | cases hloop
  exact ⟨h.splice hr hg hσ (ht.nested (Spine.nested_body (h.nested_of hr)))
    (fun h' hh' => (hyheads h' hh').1) fun h' hh' => (hyheads h' hh').2, hgrows⟩

end TrivialLoops

namespace AdditionFolding

theorem gives_built (h : f.Built) (hr : f.Represents (k.plug (b ++ .node hd x z))) :
    (Rule.additionFolding.apply f hd.op).Gives True fun g => g.Built ∧ f.Grows g := by
  refine (gives_splice hr fun hkind => ?_).mono ?_
  · obtain ⟨lhs, rhs, r, hops, hl, hr', -⟩ := (h.made_at hr).operands_of_addIndex hkind
    exact ⟨lhs, rhs, [], hops, hl, hr'⟩
  rintro g - ⟨hkind, lhs, rhs, rest, y, w, hops, hl, hr', hy, hsplice⟩
  obtain ⟨-, -, r, -, -, -, hres⟩ := (h.made_at hr).operands_of_addIndex hkind
  have hhas : ∀ v ∈ [lhs, rhs], f.Has v := by simp [hl, hr']
  obtain ⟨htidy, hw⟩ : y.Tidy [lhs, rhs] ∧ w ∈ y.exports ++ [lhs, rhs] := hy.tidy (by simp) (by simp)
  refine ⟨h.replace hr hsplice hres htidy hhas ?_ (fun hbuffer => by cases hbuffer) ?_,
    hsplice.grows⟩
  · refine (List.mem_append.1 hw).elim (fun hw => hsplice.has_defined ?_)
      fun hw => hsplice.grows.has (hhas w hw)
    rw [Code.defined_rename]
    exact y.exports_subset_defined hw
  · cases hy with
    | constants op v => exact fun h' hh' => List.mem_singleton.1 hh' ▸ .ofConstant
    | right => exact fun h' hh' => by cases hh'
    | left => exact fun h' hh' => by cases hh'

end AdditionFolding

namespace OffsetFolding

theorem ready_of_made (hm : hd.Made f) {w : Window} (hkind : hd.kind = .subView w) :
    ∃ source supplied type, Ready f hd w source supplied type ∧ ∀ v ∈ supplied, f.Has v := by
  obtain ⟨source, supplied, -, -, below, hops, -, hbelow, hcount, hhas⟩ :=
    hm.operands_of_subView hkind
  exact ⟨source, supplied, below, ⟨hkind, hops, .of_has hhas, hbelow, hcount.le⟩, hhas⟩

theorem gives_built (h : f.Built) (hr : f.Represents (k.plug (b ++ .node hd x z))) :
    (Rule.offsetFolding.apply f hd.op).Gives True fun g => g.Built ∧ f.Grows g := by
  refine (gives_splice hr fun w hkind => ready_of_made (h.made_at hr) hkind).mono ?_
  rintro g - ⟨w, source, supplied, type, op, v, result, hready, -, hsplice⟩
  obtain ⟨r, t, hres⟩ := (h.made_at hr).result_of_buffer (by rw [hready.kind]; rfl)
  have hhas : ∀ u ∈ source :: supplied, f.Has u := hready.operands ▸ h.has_at hr
  have hv : g.sort? v = some .buffer := hsplice.sort?_rename (List.mem_singleton_self _) rfl
  have htidy : (Code.node (.value op (.subView (foldedWindow (k.plug (b ++ .node hd x z)) w supplied))
      (source :: remaining (k.plug (b ++ .node hd x z)) w supplied) v (.buffer result)) .nil .nil).Tidy
      (source :: supplied) := by
    refine .value (fun u hu => ?_) rfl .nil
    rw [List.mem_cons] at hu ⊢
    exact hu.imp_right mem_remaining
  refine ⟨h.replace hr hsplice hres htidy hhas (Function.has_of_sort? hv)
      (fun _ => hv) fun h' hh' => ?_, hsplice.grows⟩
  rw [List.mem_singleton.1 hh']
  exact .ofSubView (hsplice.grows.sort? (Function.sort?_of_bufferType? hready.source))
    (fun u hu => hsplice.grows.has (hhas u (List.mem_cons_of_mem _ (mem_remaining hu))))
    (dynamicCount_foldedWindow.2 hready.count)

end OffsetFolding

namespace ViewFolding

theorem Summed.made {o o' : SuppliedOffset ValueId} {offset : Offset} {vs : List ValueId}
    (h : Summed o o' y offset vs) (hy : ∀ v ∈ y.defined, g.Has v)
    (ho : ∀ u, o = .supplied u → g.Has u) (ho' : ∀ u, o' = .supplied u → g.Has u) :
    (∀ h ∈ y.heads, h.Made g) ∧ ∀ v ∈ vs, g.Has v := by
  cases h with
  | static => simp [Code.heads]
  | outer u => exact ⟨by simp [Code.heads], List.forall_mem_singleton.2 (ho u rfl)⟩
  | inner u => exact ⟨by simp [Code.heads], List.forall_mem_singleton.2 (ho' u rfl)⟩
  | outerShifted op op' c v =>
    simp only [Code.defined_node, Node.defined, Node.value, Code.defined_nil, Option.map_some,
      Option.toList_some, List.append_nil, List.nil_append, List.cons_append,
      List.forall_mem_cons] at hy
    simp only [Code.heads, List.nil_append, List.forall_mem_cons]
    exact ⟨⟨.ofConstant, .ofAddIndex (ho _ rfl) hy.1, by simp⟩, hy.2.1, by simp⟩
  | innerShifted op op' c v =>
    simp only [Code.defined_node, Node.defined, Node.value, Code.defined_nil, Option.map_some,
      Option.toList_some, List.append_nil, List.nil_append, List.cons_append,
      List.forall_mem_cons] at hy
    simp only [Code.heads, List.nil_append, List.forall_mem_cons]
    exact ⟨⟨.ofConstant, .ofAddIndex (ho' _ rfl) hy.1, by simp⟩, hy.2.1, by simp⟩
  | both u u' op v =>
    simp only [Code.heads, List.nil_append, List.forall_mem_cons]
    exact ⟨⟨.ofAddIndex (ho' u' rfl) (ho u rfl), by simp⟩, hy v (by simp [Node.defined, Node.value]),
      by simp⟩

theorem SummedAll.made {dims : List (SuppliedOffset ValueId × SuppliedOffset ValueId)}
    {offsets : List Offset} {supplied : List ValueId} (h : SummedAll dims y offsets supplied)
    (hy : ∀ v ∈ y.defined, g.Has v)
    (hdims : ∀ d ∈ dims, (∀ u, d.1 = .supplied u → g.Has u) ∧ ∀ u, d.2 = .supplied u → g.Has u) :
    (∀ h ∈ y.heads, h.Made g) ∧ ∀ v ∈ supplied, g.Has v := by
  induction h with
  | nil => simp [Code.heads]
  | cons hfirst _ ih =>
    rw [List.forall_mem_cons] at hdims
    simp only [Code.defined_append, Code.heads_append, List.forall_mem_append] at hy ⊢
    obtain ⟨hy₁, hvs⟩ := hfirst.made hy.1 hdims.1.1 hdims.1.2
    obtain ⟨hy₂, hsupplied⟩ := ih hy.2 hdims.2
    exact ⟨⟨hy₁, hy₂⟩, hvs, hsupplied⟩

theorem gives_built (h : f.Built) (hr : f.Represents (k.plug (b ++ .node hd x z))) :
    (Rule.viewFolding.apply f hd.op).Gives True fun g => g.Built ∧ f.Grows g := by
  refine (gives_splice hr (h.made_of hr)).mono ?_
  rintro g - ⟨inner, w, w', u, source, supplied, supplied', type, y, offsets, vs, op, v, result,
    hready, -, hsums, -, hsplice⟩
  obtain ⟨r, t, hres⟩ := (h.made_at hr).result_of_buffer (by rw [hready.kind]; rfl)
  have houter : ∀ u' ∈ u :: supplied, f.Has u' := hready.operands ▸ h.has_at hr
  have hinner : ∀ u' ∈ source :: supplied', f.Has u' :=
    hready.innerOperands ▸ h.has_of hr inner (Code.of_definer? hready.definer).1
  have hv : g.sort? v = some .buffer := by
    refine hsplice.sort?_rename
      (h := .value op (.subView (combined w offsets)) (source :: vs) v (.buffer result)) ?_ rfl
    simp [Code.heads]
  obtain ⟨hy, hvs⟩ := hsums.made (g := g)
    (fun v' hv' => hsplice.has_defined (by rw [Code.defined_rename]; simp [hv'])) fun d hd' => by
      obtain ⟨hd₁, hd₂⟩ := List.of_mem_zip hd'
      exact ⟨fun u' hu' => hsplice.grows.has
          (houter u' (List.mem_cons_of_mem _ (Offset.mem_of_supplied (hu' ▸ hd₁)))),
        fun u' hu' => hsplice.grows.has
          (hinner u' (List.mem_cons_of_mem _ (Offset.mem_of_supplied (hu' ▸ hd₂))))⟩
  refine ⟨h.replace hr hsplice hres
    (hsums.tidy_view (fun u' hu' => List.mem_append_left _ hu') fun u' hu' => List.mem_append_right _ hu')
    (List.forall_mem_append.2 ⟨houter, hinner⟩) (Function.has_of_sort? hv) (fun _ => hv) ?_,
    hsplice.grows⟩
  simp only [Code.heads_append, List.forall_mem_append, Code.heads, List.nil_append,
    List.forall_mem_singleton]
  exact ⟨hy, .ofSubView (hsplice.grows.sort? (Function.sort?_of_bufferType? hready.source)) hvs
    hsums.dynamicCount⟩

end ViewFolding

namespace Tiling

variable {t : Tiling}

theorem gives_built (h : f.Built) (hr : f.Represents (k.plug (b ++ .node hd x z))) :
    ((Rule.tiling t).apply f hd.op).Gives True fun g => g.Built ∧ f.Grows g := by
  have hops := h.has_at hr
  refine (gives_splice hops hr).mono ?_
  rintro g - ⟨plan, ns, y, htypes, hnests, hsplice⟩
  have htidy : y.Tidy hd.operands := hnests.tidy fun v hv => hv
  refine ⟨h.emit hr hsplice htidy hops
    fun h' hh' => (hnests.sorted ?_ (fun v hv => ?_) h' hh').made, hsplice.grows⟩
  · exact hsplice.represents.sortsIn fun h' hh' => by simp [Spine.mem_heads_plug, hh']
  · exact hsplice.grows.sort? (sort?_of_types htypes v hv)

end Tiling

namespace Promotion

variable {p : Promotion}

theorem gives_built (h : f.Built) (hr : f.Represents (k.plug (b ++ .node hd x z))) :
    ((Rule.promotion p).apply f hd.op).Gives True fun g => g.Built ∧ f.Grows g := by
  have hops := h.has_at hr
  refine (gives_splice hops hr).mono ?_
  rintro g - ⟨types, y, -, hpromoted, hsplice⟩
  have htidy : y.Tidy hd.operands := hpromoted.tidy fun v hv => hv
  refine ⟨h.emit hr hsplice htidy hops
    fun h' hh' => (hpromoted.sorted ?_ h' hh').made, hsplice.grows⟩
  exact hsplice.represents.sortsIn fun h' hh' => by simp [Spine.mem_heads_plug, hh']

end Promotion

namespace Reallocation

variable {space : MemorySpace}

theorem gives_built (h : f.Built) (hr : f.Represents (k.plug (b ++ .node hd x z))) :
    ((Rule.reallocation space).apply f hd.op).Gives True fun g => g.Built ∧ f.Grows g := by
  refine (gives_splice hr (h.made_of hr)).mono ?_
  rintro g - ⟨view, alloc, tile, bytes, type, type', op, new, ht, hres, hbytes, hsplice⟩
  have hnew : g.sort? new = some .buffer :=
    hsplice.represents.sort?_result (h := made op new type space)
      (by simp [Spine.mem_heads_plug, Code.heads]) rfl
  have hσ : f.RespectsBuffers g (merged tile bytes new) := by
    constructor
    · intro v hv
      rcases merged_cases tile bytes new v with rfl | rfl | hsame
      · rw [merged_tile]
        exact Function.has_of_sort? hnew
      · rw [merged_bytes]
        exact Function.has_of_sort? hnew
      · rw [hsame]
        exact hsplice.grows.has hv
    · intro v hv
      rcases merged_cases tile bytes new v with rfl | rfl | hsame
      · rw [merged_tile, hnew]
      · rw [merged_bytes, hnew]
      · rw [hsame]
        exact hsplice.grows.sort? hv
  refine ⟨h.splice hr hsplice.represents hσ ⟨.inr rfl, trivial, trivial⟩ (fun h' hh' => ?_)
    fun h' hh' => ?_, hsplice.grows⟩
  · rw [List.mem_singleton.1 hh']
    simp [made, Node.value]
  · exact List.mem_singleton.1 hh' ▸ .ofAlloc

end Reallocation

theorem Rule.gives_built (rule : Rule) (h : f.Built)
    (hr : f.Represents (k.plug (b ++ .node hd x z))) :
    (rule.apply f hd.op).Gives True fun g => g.Built ∧ f.Grows g := by
  cases rule with
  | tiling t => exact Tiling.gives_built h hr
  | promotion p => exact Promotion.gives_built h hr
  | viewFolding => exact ViewFolding.gives_built h hr
  | reallocation space => exact Reallocation.gives_built h hr
  | trivialLoops => exact TrivialLoops.gives_built h hr
  | additionFolding => exact AdditionFolding.gives_built h hr
  | offsetFolding => exact OffsetFolding.gives_built h hr

theorem Greedy.keeps_built (rules : List Rule) : Keeps (· = .overflow) Function.Built rules where
  wellFormed _ h := h.wellFormed
  sheds _ _ _ _ _ _ _ h hs := h.shed hs
  rule rule _ _ _ _ _ _ _ h hr := ends_overflow.2 <|
    Yields.mono (rule.gives_built h hr) fun _ _ hgives g hg =>
      have hstep := hgives g hg
      ⟨hstep.1, hstep.2.ops⟩

theorem Rule.yields_built {f : Function} (h : f.Built) :
    (∀ (rule : Rule) (op : OpId), f.isLive op = .ok true →
      (rule.check f op).Gives True fun _ => Yields True (rule.performAt f op) Function.Built) ∧
    ∀ rules maxSweeps, Yields True (Greedy.run rules maxSweeps f).outcome fun r => r.1.Built := by
  constructor
  · intro rule op hlive
    obtain ⟨k, b, hd, x, z, rfl, hc⟩ := h.wellFormed.exists_at hlive
    have hr : f.Represents (k.plug (b ++ .node hd x z)) := hc ▸ h.wellFormed
    have hgives := rule.gives_built h hr
    rw [Rule.apply, Inspect.gives_bind] at hgives
    refine hgives.mono fun _ _ hperform => ?_
    rw [Inspect.gives_lift] at hperform
    exact hperform.mono fun _ _ hg => hg.1
  · exact fun rules maxSweeps => ends_overflow.1 ((Greedy.keeps_built rules).run maxSweeps h)

theorem Rule.yields_built_markedProduct :
    (∃ g, (Rule.tiling Tiling.rowTiling).performAt Tiling.markedProduct ⟨0⟩ = .ok g ∧ g.Built) ∧
      ∃ g outcome, (Greedy.run [.tiling Tiling.rowTiling] 4 Tiling.markedProduct).outcome =
        .ok (g, outcome) ∧ outcome.changes = 1 ∧ g.Built := by
  have hbuilt : Tiling.markedProduct.Built := by decide +kernel
  have hlive : Tiling.markedProduct.isLive ⟨0⟩ = .ok true := rfl
  have hcheck : ((Rule.tiling Tiling.rowTiling).check Tiling.markedProduct ⟨0⟩).Answers () := rfl
  have hok : ((Rule.tiling Tiling.rowTiling).performAt Tiling.markedProduct ⟨0⟩).toOption.isSome =
      true := by decide +kernel
  have hrun : (Greedy.run [.tiling Tiling.rowTiling] 4 Tiling.markedProduct).outcome.toOption.map
      (·.2.changes) = some 1 := by decide +kernel
  -- Neither computation is to be unfolded again.
  generalize Tiling.markedProduct = f at *
  obtain ⟨hrule, hruns⟩ := Rule.yields_built hbuilt
  have hperform := (hrule (.tiling Tiling.rowTiling) ⟨0⟩ hlive).of_answers hcheck
  refine ⟨?_, ?_⟩
  · rcases hperform.cases with ⟨hover, -⟩ | hg
    · rw [hover] at hok
      cases hok
    · exact hg
  · obtain ⟨⟨g, outcome⟩, hg, hchanges⟩ := Fault.toOption_map_eq_some.1 hrun
    exact ⟨g, outcome, hg, hchanges, (hruns _ _).of_ok hg⟩

def indexTile : Function where
  name := "tile"
  ops := #[⟨.alloc, [], some ⟨0⟩, none, [], [], none, true⟩,
    ⟨.view, [⟨0⟩], some ⟨1⟩, none, [], [], none, true⟩,
    ⟨.subView (.origin [4]), [⟨1⟩], some ⟨2⟩, none, [], [], none, true⟩]
  values := #[⟨.buffer (.rowMajor [16] .uint8 .global), .result ⟨0⟩⟩,
    ⟨.buffer (.rowMajor [4] .float32 .global), .result ⟨1⟩⟩, ⟨.index, .result ⟨2⟩⟩]
  arity := 0
  body := [⟨0⟩, ⟨1⟩, ⟨2⟩]

def indexWindow : Function where
  name := "window"
  ops := #[⟨.constant 0, [], some ⟨0⟩, none, [], [], none, true⟩,
    ⟨.subView ⟨[.dynamic], [1], [1]⟩, [⟨0⟩, ⟨0⟩], some ⟨1⟩, none, [], [], none, true⟩]
  values := #[⟨.index, .result ⟨0⟩⟩, ⟨.buffer (.rowMajor [1] .float32 .global), .result ⟨1⟩⟩]
  arity := 0
  body := [⟨0⟩, ⟨1⟩]

def Function.Furnished (f : Function) : Prop :=
  ∀ h ∈ f.code.heads, (∀ v ∈ h.operands, f.Has v) ∧
    ∀ io ∈ h.kind.sorts?, h.operands.length = io.1.length

instance (f : Function) : Decidable f.Furnished :=
  inferInstanceAs (Decidable (∀ h ∈ f.code.heads, (∀ v ∈ h.operands, f.Has v) ∧
    ∀ io ∈ h.kind.sorts?, h.operands.length = io.1.length))

theorem Rule.performAt_faults_indexTile :
    (indexTile.WellFormed ∧ indexTile.code.Nested ∧ indexTile.Furnished ∧
      (Rule.check (.reallocation .l1) indexTile ⟨2⟩).Answers () ∧
        Rule.performAt (.reallocation .l1) indexTile ⟨2⟩ = .error .resultNotBuffer) ∧
    indexWindow.WellFormed ∧ indexWindow.code.Nested ∧ indexWindow.Furnished ∧
      (Rule.check .offsetFolding indexWindow ⟨1⟩).Answers () ∧
        Rule.performAt .offsetFolding indexWindow ⟨1⟩ = .error .sourceNotBuffer :=
  ⟨⟨by decide +kernel, by decide +kernel, by decide +kernel, rfl, rfl⟩,
    by decide +kernel, by decide +kernel, by decide +kernel, rfl, rfl⟩

end KernelLowering
