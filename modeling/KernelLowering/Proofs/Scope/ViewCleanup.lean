import KernelLowering.Proofs.Scope.Sorts
import KernelLowering.Proofs.Scope.Tiles

namespace KernelLowering

variable {f g : Function} {k : Spine} {b x z : Code} {hd : Node}

theorem Node.redirect_fresh {w : ValueId} (hd : Node) (hw : ¬ f.Has w) (v : ValueId) :
    hd.redirect w v = v ∨ ¬ f.Has (hd.redirect w v) :=
  (hd.redirect_cases w v).imp_right fun he => by rwa [he]

namespace ViewFolding

theorem SummedAll.kinds {dims : List (SuppliedOffset ValueId × SuppliedOffset ValueId)}
    {y : Code} {offsets : List Offset} {supplied : List ValueId} {σ : ValueId → ValueId}
    {h last : Node} (hsums : SummedAll dims y offsets supplied)
    (hh : h ∈ (Code.rename σ (y ++ .node last .nil .nil)).heads) :
    (h.kind = .addIndex ∨ ∃ n, h.kind = .constant n) ∨ h = last.rename σ := by
  simp only [Code.heads_rename, Code.heads_append, Code.heads, List.append_nil, List.map_append,
    List.mem_append, List.map_cons, List.map_nil, List.mem_singleton, List.mem_map] at hh
  rcases hh with ⟨h', hh', rfl⟩ | rfl
  · exact .inl (hsums.kind_eq h' hh')
  · exact .inr rfl

theorem relinks {inner : Node} {w w' : Window} {u source v : ValueId}
    {supplied supplied' vs : List ValueId} {type result : BufferType} {y : Code}
    {offsets : List Offset} {op : OpId}
    (hready : Ready f (k.plug (b ++ .node hd x z)) hd inner w w' u source supplied supplied' type)
    (hsums : SummedAll ((Offset.supply w.offsets supplied).zip (Offset.supply w'.offsets supplied')) y
      offsets vs)
    (hsplice : Splice f g (k.rename (hd.redirect v)) (b.rename (hd.redirect v))
      (.rename (hd.redirect v) (y ++ .node (.value op (.subView (combined w offsets)) (source :: vs) v
        (.buffer result)) .nil .nil)) (z.rename (hd.redirect v)))
    (hsource : hd.redirect v source = source) :
    Relinks f k b hd x z (.rename (hd.redirect v) (y ++ .node (.value op
      (.subView (combined w offsets)) (source :: vs) v (.buffer result)) .nil .nil))
        (hd.redirect v) := by
  obtain ⟨hinner, t, hres⟩ := Code.of_definer? hready.definer
  have hwindow : inner.kind.window?.isSome = true := by rw [hready.innerKind]; rfl
  have huses : hd.Uses inner := ⟨u, by simp [hready.operands], by simp [Node.defined, hres]⟩
  have hold : ∀ {u}, u ∈ (y ++ .node (.value op (.subView (combined w offsets)) (source :: vs) v
      (.buffer result)) .nil .nil).defined → ¬ f.Has u := fun hu =>
    Nat.not_lt.2 (hsplice.size_le (by rwa [Code.defined_rename]))
  have hnew : ¬ f.Has v := hold (by simp [Node.value, Node.defined])
  refine ⟨by rw [hready.kind]; rfl, hd.redirect_fresh hnew, fun h hh v' hv' hhas => ?_,
    fun h hh => ?_, fun h hh hsub => ?_, fun h hh halloc => ?_⟩
  · rw [Code.heads_rename] at hh
    obtain ⟨h, hh₀, rfl⟩ := List.mem_map.1 hh
    obtain ⟨u', hu', rfl⟩ := List.mem_map.1 hv'
    have hsame := (hd.redirect_fresh hnew u').resolve_right (not_not.2 hhas)
    rw [hsame] at hhas ⊢
    have htidy : Code.Tidy (y ++ .node (.value op (.subView (combined w offsets)) (source :: vs) v
        (.buffer result)) .nil .nil) (hd.operands ++ inner.operands) :=
      hsums.tidy_view (u := u) (fun u hu => List.mem_append_left _ (hready.operands ▸ hu))
        fun u hu => List.mem_append_right _ (hready.innerOperands ▸ hu)
    rcases List.mem_append.1 (htidy.inScope.mem_operands hh₀ hu') with hdef | hu
    · exact (hold hdef hhas).elim
    · rcases List.mem_append.1 hu with hu | hu
      · exact ⟨hd, Spine.mem_heads_at k b x z hd, by rw [hready.kind]; rfl, .inl rfl, hu⟩
      · exact ⟨inner, hinner, hwindow, .inr huses, hu⟩
  · rcases hsums.kinds hh with (hk | ⟨n, hk⟩) | rfl
    · simp [hk]
    · simp [hk]
    · simp [Node.rename, Node.value]
  · rcases hsums.kinds hh with (hk | ⟨n, hk⟩) | rfl
    · simp [hk, OpKind.window?] at hsub
    · simp [hk, OpKind.window?] at hsub
    · exact ⟨inner, hinner, hwindow, huses,
        by simp [Node.rename, Node.value, hsource, hready.innerOperands]⟩
  · rcases hsums.kinds hh with (hk | ⟨n, hk⟩) | rfl
    · simp [hk] at halloc
    · simp [hk] at halloc
    · cases halloc

theorem gives_settling (h : f.Settling) (hr : f.Represents (k.plug (b ++ .node hd x z))) :
    (Rule.viewFolding.apply f hd.op).Gives True fun g => g.Settling ∧ f.Grows g := by
  refine (gives_splice hr (h.sorted.made hr)).mono ?_
  rintro g hans ⟨inner, w, w', u, source, supplied, supplied', type, y, offsets, vs, op, v, result,
    hready, -, hsums, -, hsplice⟩
  obtain ⟨hinner, t, hres⟩ := Code.of_definer? hready.definer
  have houter : ∀ u' ∈ u :: supplied, u' ∈ k.knownBehind b f.arguments := fun u' hu' =>
    h.known_operand hr (by simp [hready.kind]) (hready.operands ▸ hu')
  have hbelow : ∀ u' ∈ source :: supplied', u' ∈ k.knownBehind b f.arguments := fun u' hu' =>
    h.operands_of_definer hr hinner (by simp [hready.innerKind]) hres
      (houter u List.mem_cons_self) u' (hready.innerOperands ▸ hu')
  have hsource : hd.redirect v source = source := hd.redirect_of_not_mem
    (fun hdef => hr.not_known hdef (hbelow source List.mem_cons_self)) v
  have htidy := hr.tidy_redirect hsplice (hsums.tidy_view houter hbelow)
  obtain ⟨-, howned, hplaced⟩ := h.represented hr
  have hlinks := relinks hready hsums hsplice hsource
  refine ⟨h.relink hr hsplice ((gives_sorted hr h.sorted).of_answers hans) hlinks htidy.nested
    (hlinks.placed hr howned (D := fun _ => True) hplaced (fun _ _ _ _ => .inl trivial)
      (fun _ _ _ _ _ => trivial)
      (fun v' hv' _ => hr.fixes (fun v' hv' _ => hd.redirect_of_not_mem hv' v) hv') htidy.inScope
      fun r t hres _ => ?_), hsplice.grows⟩
  rw [hd.redirect_of_result hres, Function.swapped_self, Code.exports_rename]
  simp [Code.exports, Node.value]

end ViewFolding

namespace Reallocation

variable {view alloc : Node} {tile bytes new : ValueId} {t : ValueType} {type : BufferType}
  {space : MemorySpace} {op : OpId}

theorem merged_tile : merged tile bytes new tile = new := by simp [merged]

theorem merged_bytes : merged tile bytes new bytes = new := by
  unfold merged Function.comp Function.swapped
  split <;> simp

theorem merged_of_ne {v : ValueId} (ht : v ≠ tile) (hb : v ≠ bytes) :
    merged tile bytes new v = v := by
  rw [merged, Function.comp, Function.swapped_of_ne ht, Function.swapped_of_ne hb]

theorem merged_cases (tile bytes new v : ValueId) :
    v = tile ∨ v = bytes ∨ merged tile bytes new v = v := by
  by_cases ht : v = tile
  · exact .inl ht
  · by_cases hb : v = bytes
    · exact .inr (.inl hb)
    · exact .inr (.inr (merged_of_ne ht hb))

theorem gives_splice (hr : f.Represents (k.plug (b ++ .node hd x z)))
    (hm : ∀ h ∈ (k.plug (b ++ .node hd x z)).heads, h.Made f) :
    ((Rule.reallocation space).apply f hd.op).Gives True fun g =>
      ∃ view alloc tile bytes type type' op new, (k.plug (b ++ .node hd x z)).Tile hd view alloc ∧
        hd.result = some (tile, .buffer type) ∧ alloc.result = some (bytes, .buffer type') ∧
          Splice f g (k.rename (merged tile bytes new)) (b.rename (merged tile bytes new))
            (.node (made op new type space) .nil .nil) (z.rename (merged tile bytes new)) := by
  rw [Rule.apply, Inspect.gives_bind, Rule.check, check, Inspect.gives_discard]
  refine (gives_allocationOf hr hm).mono ?_
  rintro _ hans ⟨view, alloc, ht, rfl⟩
  obtain ⟨w, hw⟩ := Option.isSome_iff_exists.1 ht.tile_kind
  obtain ⟨tile, type, hres⟩ := (hm hd ht.tile_mem).result_of_buffer
    (by rw [OpKind.window?_eq_some.1 hw]; rfl)
  obtain ⟨bytes, type', hbytes⟩ := (hm alloc ht.alloc_mem).result_of_buffer
    (by rw [ht.alloc_kind]; rfl)
  rw [Inspect.gives_lift]
  refine (yields_perform hr ht.alloc_mem hbytes hres hans).mono ?_
  rintro g - ⟨op, new, hsplice⟩
  exact ⟨view, alloc, tile, bytes, type, type', op, new, ht, hres, hbytes, hsplice⟩

section Splice

variable {type' : BufferType} (hr : f.Represents (k.plug (b ++ .node hd x z))) (hs : f.Sorted)
  (ht : (k.plug (b ++ .node hd x z)).Tile hd view alloc)
  (hres : hd.result = some (tile, .buffer type)) (hbytes : alloc.result = some (bytes, .buffer type'))
  (hsplice : Splice f g (k.rename (merged tile bytes new)) (b.rename (merged tile bytes new))
    (.node (made op new type space) .nil .nil) (z.rename (merged tile bytes new)))

include hsplice in
theorem not_has_new : ¬ f.Has new :=
  Nat.not_lt.2 (hsplice.size_le (by simp [made, Node.value, Node.defined]))

include hr ht hres hbytes hsplice in
theorem respectsSorts : f.RespectsSorts g (merged tile bytes new) := by
  have hnew : g.sort? new = some .buffer := by
    refine hsplice.represents.sort?_result (h := made op new type space) ?_ rfl
    simp [Spine.mem_heads_plug, Code.heads]
  intro v s hv
  rcases merged_cases tile bytes new v with rfl | rfl | hsame
  · rw [merged_tile, hnew, ← hv, hr.sort?_result ht.tile_mem hres]
    rfl
  · rw [merged_bytes, hnew, ← hv, hr.sort?_result ht.alloc_mem hbytes]
    rfl
  · rw [hsame]
    exact hsplice.grows.sort? hv

include hr hs ht hres hbytes hsplice in
theorem sorted : g.Sorted := by
  refine hr.sorted_splice hsplice.represents hs (respectsSorts hr ht hres hbytes hsplice)
    fun h hh => ?_
  rw [List.mem_singleton.1 hh]
  exact ⟨rfl, rfl⟩

include hsplice in
theorem merged_fresh (v : ValueId) :
    merged tile bytes new v = v ∨ ¬ f.Has (merged tile bytes new v) := by
  rcases merged_cases tile bytes new v with rfl | rfl | hsame
  · exact .inr (merged_tile ▸ not_has_new hsplice)
  · exact .inr (merged_bytes ▸ not_has_new hsplice)
  · exact .inl hsame

variable (ho : (k.plug (b ++ .node hd x z)).Owned)

include hr ht hsplice ho in
theorem not_uses_view : ∀ h ∈ ((k.rename (merged tile bytes new)).plug
    (b.rename (merged tile bytes new) ++ ((.node (made op new type space) .nil .nil) ++
      z.rename (merged tile bytes new)))).heads, ¬ h.Uses view := by
  intro h hh hu
  rcases Spine.mem_heads_splice.1 hh with ⟨h₁, hh₁, rfl⟩ | hh
  · have hu₁ := hu.of_rename (merged_fresh hsplice) (hr.has_defined ht.view_mem)
    obtain rfl := ho.shown ht h₁ (Spine.mem_heads_around hh₁ hd x) hu₁
    exact hr.not_mem_around hh₁
  · obtain ⟨v, hv, -⟩ := hu
    rw [List.mem_singleton.1 hh] at hv
    cases hv

include hr hs ht hres hbytes hsplice ho in
theorem relinks : Relinks f k b hd x z (.node (made op new type space) .nil .nil)
    (merged tile bytes new) := by
  have hmade : ∀ h ∈ (Code.node (made op new type space) .nil .nil).heads,
      h = made op new type space := fun h hh => List.mem_singleton.1 hh
  refine ⟨ht.tile_kind, merged_fresh hsplice, fun h hh v hv => ?_, fun h hh => ?_,
    fun h hh hsub => ?_, fun h hh _ view' hview hkind hon h' hh' hu => ?_⟩ <;> obtain rfl := hmade h hh
  · cases hv
  · simp [made, Node.value]
  · cases hsub
  · have hmem := Spine.mem_heads_around hview hd x
    obtain ⟨source, -, -, hops, hsource, -⟩ := (hr.sorted_iff.1 hs view' hmem).of_view hkind
    have hnew : merged tile bytes new source = new := by
      obtain ⟨v, hv, hres'⟩ := hon
      simp only [Node.rename, hops, List.map_cons, List.head?_cons, Option.mem_def,
        Option.some.injEq] at hv
      simpa [hv, made, Node.value] using hres'.symm
    rcases merged_cases tile bytes new source with rfl | rfl | hsame
    · exact (ho.last ht view' hmem ⟨source, by simp [hops], by simp [Node.defined, hres]⟩).2 hkind
    · rcases ho.freed ht view' hmem ⟨source, by simp [hops], by simp [Node.defined, hbytes]⟩ with
        rfl | hdealloc
      · exact not_uses_view hr ht hsplice ho h' hh' hu
      · simp [hkind] at hdealloc
    · exact not_has_new hsplice (hnew.symm.trans hsame ▸ Function.has_of_sort? hsource)

end Splice

theorem gives_settling (h : f.Settling) (hr : f.Represents (k.plug (b ++ .node hd x z))) :
    ((Rule.reallocation space).apply f hd.op).Gives True fun g => g.Settling ∧ f.Grows g := by
  refine (gives_splice hr (h.sorted.made hr)).mono ?_
  rintro g - ⟨view, alloc, tile, bytes, type, type', op, new, ht, hres, hbytes, hsplice⟩
  obtain ⟨-, howned, hplaced⟩ := h.represented hr
  have hlinks := relinks hr h.sorted ht hres hbytes hsplice howned
  have htile : tile ∈ hd.defined := by simp [Node.defined, hres]
  have hne : ∀ h' ∈ (k.plug (b ++ .node hd x z)).heads, h'.kind.window?.isSome = true →
      ∀ v ∈ h'.defined, v ≠ bytes := by
    intro h' hh' hkind v hv e
    obtain ⟨w, hw⟩ := Option.isSome_iff_exists.1 hkind
    have hwindow := OpKind.window?_eq_some.1 hw
    rw [Node.defined, hr.inductionVars_eq_nil hh' (by rw [hwindow]; rfl), List.append_nil,
      Option.mem_toList, Option.map_eq_some_iff] at hv
    obtain ⟨⟨u, t⟩, hres', rfl⟩ := hv
    have hsame := hr.eq_of_result hh' ht.alloc_mem hres' (e ▸ hbytes)
    simp [hsame, ht.alloc_kind] at hwindow
  refine ⟨h.relink hr hsplice (sorted hr h.sorted ht hres hbytes hsplice) hlinks
    ⟨.inr rfl, trivial, trivial⟩ (hlinks.placed hr howned (D := (· ≠ bytes)) hplaced
      (fun h₁ hh₁ v hv => ?_) (fun h₁ hh₁ => hne h₁ (Spine.mem_heads_around hh₁ hd x))
      (fun v hv hb => ?_) ⟨by simp [made, Node.value], trivial, trivial⟩ fun v t hres' _ => ?_),
    hsplice.grows⟩
  · refine or_iff_not_imp_left.2 fun hb => ?_
    obtain rfl := not_not.1 hb
    have hu : h₁.Uses alloc := ⟨v, hv, by simp [Node.defined, hbytes]⟩
    rcases howned.freed ht h₁ (Spine.mem_heads_around hh₁ hd x) hu with rfl | hkind
    · exact .inl ⟨ht.view_kind, fun h' hh' hu' => not_uses_view hr ht hsplice howned h' hh' hu'⟩
    · exact .inr ⟨hkind, view, alloc, ht, hu, tile, htile, hne hd ht.tile_mem ht.tile_kind tile htile,
        merged_bytes.trans merged_tile.symm⟩
  · refine merged_of_ne (fun e => ?_) hb
    subst e
    rcases hv with hv | hv
    · exact hr.not_around htile hv
    · exact hr.not_argument (List.mem_flatMap.2 ⟨hd, ht.tile_mem, htile⟩)
        (Function.mem_arguments.1 hv)
  · rw [hres] at hres'
    cases hres'
    rw [merged_tile]
    simp [Code.exports, made, Node.value]

end Reallocation

def Rule.cleansViews : Rule → Bool
  | viewFolding | reallocation _ => true
  | _ => false

theorem Rule.gives_settling {rule : Rule} (hrule : rule.cleansViews = true) (h : f.Settling)
    (hr : f.Represents (k.plug (b ++ .node hd x z))) :
    (rule.apply f hd.op).Gives True fun g => g.Settling ∧ f.Grows g := by
  cases rule with
  | viewFolding => exact ViewFolding.gives_settling h hr
  | reallocation space => exact Reallocation.gives_settling h hr
  | _ => cases hrule

namespace Greedy

variable {rules : List Rule}

theorem keeps_settling (hrules : ∀ rule ∈ rules, rule.cleansViews = true) :
    Keeps (· = .overflow) Function.Settling rules where
  wellFormed _ h := h.wellFormed
  sheds _ _ _ _ _ _ _ h hs := h.shed hs
  rule rule hmem _ _ _ _ _ _ h hr := ends_overflow.2 <|
    (Rule.gives_settling (hrules rule hmem) h hr).mono fun _ _ hg => ⟨hg.1, hg.2.ops⟩

theorem run_viewCleanup_tidy {f : Function} (hf : f.Tidy) (hs : f.Sorted) (ho : f.Owned)
    (hrules : ∀ rule ∈ rules, rule.cleansViews = true) (maxSweeps : Nat) :
    Yields True (run rules maxSweeps f).outcome fun (g, _) => g.Tidy ∧ g.Sorted ∧ g.Owned :=
  ends_overflow.1 <| (keeps_settling hrules).run_settles (Q := fun g => g.Tidy ∧ g.Sorted ∧ g.Owned)
    (fun _ hg hlive => ⟨hg.tidy hlive, hg.sorted, hg.ownedBuffers⟩) maxSweeps
      (hf.settling hs ho) ⟨hf, hs, ho⟩

def gathered : Function where
  name := "gathered"
  ops := #[⟨.alloc, [], some ⟨1⟩, none, [], [], none, true⟩,
    ⟨.view, [⟨1⟩], some ⟨2⟩, none, [], [], none, true⟩,
    ⟨.subView ⟨[.static 0], [4], [1]⟩, [⟨2⟩], some ⟨3⟩, none, [], [], none, true⟩,
    ⟨.subView ⟨[.static 1], [6], [1]⟩, [⟨0⟩], some ⟨4⟩, none, [], [], none, true⟩,
    ⟨.subView ⟨[.static 2], [4], [1]⟩, [⟨4⟩], some ⟨5⟩, none, [], [], none, true⟩,
    ⟨.copy, [⟨5⟩, ⟨3⟩], none, none, [], [], none, true⟩,
    ⟨.dealloc, [⟨1⟩], none, none, [], [], none, true⟩]
  values := #[⟨.buffer (.rowMajor [8] .float32 .global), .argument 0⟩,
    ⟨.buffer (.rowMajor [16] .uint8 .global), .result ⟨0⟩⟩,
    ⟨.buffer (.rowMajor [4] .float32 .global), .result ⟨1⟩⟩,
    ⟨.buffer ⟨[4], .float32, .strided (some 0) [1], .global⟩, .result ⟨2⟩⟩,
    ⟨.buffer ⟨[6], .float32, .strided (some 1) [1], .global⟩, .result ⟨3⟩⟩,
    ⟨.buffer ⟨[4], .float32, .strided (some 3) [1], .global⟩, .result ⟨4⟩⟩]
  arity := 1
  body := [⟨0⟩, ⟨1⟩, ⟨2⟩, ⟨3⟩, ⟨4⟩, ⟨5⟩, ⟨6⟩]

theorem run_viewCleanup_tidy_gathered : ∃ g outcome,
    (run Rule.viewCleanup 4 gathered).outcome = .ok (g, outcome) ∧ outcome.changes = 2 ∧
      g.Tidy ∧ g.Sorted ∧ g.Owned := by
  have hok : ((run Rule.viewCleanup 4 gathered).outcome.toOption.map (·.2.changes)) = some 2 := by
    decide +kernel
  have htidy : gathered.Tidy := by decide +kernel
  have hsorted : gathered.Sorted := by decide +kernel
  have howned : gathered.Owned := by decide +kernel
  -- The run is not to be unfolded again: from here on the function is any that these hold of.
  generalize gathered = f at *
  have hyields := run_viewCleanup_tidy htidy hsorted howned
    (show ∀ rule ∈ Rule.viewCleanup, rule.cleansViews = true by decide) 4
  obtain ⟨⟨g, outcome⟩, hrun, hchanges⟩ := Fault.toOption_map_eq_some.1 hok
  exact ⟨g, outcome, hrun, hchanges, hyields.of_ok hrun⟩

def outlived : Function where
  name := "outlived"
  ops := #[⟨.alloc, [], some ⟨1⟩, none, [], [], none, true⟩,
    ⟨.view, [⟨1⟩], some ⟨2⟩, none, [], [], none, true⟩,
    ⟨.forLoop ⟨0, 2, 1, Int.zero_lt_one⟩, [], none, none, [⟨3⟩, ⟨4⟩], [⟨3⟩], none, true⟩,
    ⟨.subView ⟨[.static 0], [4], [1]⟩, [⟨2⟩], some ⟨4⟩, none, [], [], some ⟨2⟩, true⟩,
    ⟨.copy, [⟨0⟩, ⟨4⟩], none, none, [], [], some ⟨2⟩, true⟩,
    ⟨.dealloc, [⟨1⟩], none, none, [], [], none, true⟩]
  values := #[⟨.buffer (.rowMajor [4] .float32 .global), .argument 0⟩,
    ⟨.buffer (.rowMajor [16] .uint8 .global), .result ⟨0⟩⟩,
    ⟨.buffer (.rowMajor [4] .float32 .global), .result ⟨1⟩⟩, ⟨.index, .inductionVar ⟨2⟩ 0⟩,
    ⟨.buffer ⟨[4], .float32, .strided (some 0) [1], .global⟩, .result ⟨3⟩⟩]
  arity := 1
  body := [⟨0⟩, ⟨1⟩, ⟨2⟩, ⟨5⟩]

theorem not_scoped_run_outlived : outlived.Tidy ∧ outlived.Sorted ∧ ∃ g outcome,
    (run Rule.viewCleanup 10 outlived).outcome = .ok (g, outcome) ∧ ¬ g.Scoped := by
  have htidy : outlived.Tidy := by decide +kernel
  have hsorted : outlived.Sorted := by decide +kernel
  have hok : ((run Rule.viewCleanup 10 outlived).outcome.toOption.map
      fun r => decide r.1.Scoped) = some false := by decide +kernel
  obtain ⟨⟨g, outcome⟩, hrun, hout⟩ := Fault.toOption_map_eq_some.1 hok
  exact ⟨htidy, hsorted, g, outcome, hrun, of_decide_eq_false hout⟩

end Greedy

end KernelLowering
