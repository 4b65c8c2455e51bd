import KernelLowering.Proofs.Lifetime.Views

namespace KernelLowering.Reallocation

variable {f g : Function} {k : Spine} {b z : Code} {hd view alloc h : Node} {tile bytes new v w : ValueId}
  {t : ValueType} {type type' : BufferType} {space : MemorySpace} {op : OpId}

structure Reallocated (f g : Function) (k : Spine) (b z : Code) (hd view alloc : Node)
    (tile bytes new : ValueId) (made : Node) : Prop where
  before : f.Represents (k.plug (b ++ .node hd .nil z))
  has : ∀ h ∈ (k.plug (b ++ .node hd .nil z)).heads, ∀ v ∈ h.operands, f.Has v
  shown : ∀ h ∈ (k.plug (b ++ .node hd .nil z)).heads, h.kind = .view →
    ∃ a ∈ (k.plug (b ++ .node hd .nil z)).heads, a.kind = .alloc ∧ h.On a
  tended : Tended (k.plug (b ++ .node hd .nil z)).heads (k.plug (b ++ .node hd .nil z)).Beside
  covers : (k.plug (b ++ .node hd .nil z)).Tile hd view alloc
  makes : ∃ t, hd.result = some (tile, t)
  allocates : ∃ t, alloc.result = some (bytes, t)
  splice : Splice f g (k.rename (merged tile bytes new)) (b.rename (merged tile bytes new))
    (.node made .nil .nil) (z.rename (merged tile bytes new))
  kind : made.kind = .alloc
  operands : made.operands = []
  result : ∃ t, made.result = some (new, t)

namespace Reallocated

variable {made : Node} (hm : Reallocated f g k b z hd view alloc tile bytes new made)

include hm

theorem replaces : f.Replaces g k b .nil z (merged tile bytes new) [made] := hm.splice.replaces

theorem not_has : ¬ f.Has new := by
  obtain ⟨t, hres⟩ := hm.result
  exact hm.replaces.values made (List.mem_singleton_self _) new (by simp [Node.defined, hres])

theorem fresh (v : ValueId) : merged tile bytes new v = v ∨ ¬ f.Has (merged tile bytes new v) := by
  by_cases hsame : merged tile bytes new v = v
  · exact .inl hsame
  · exact .inr ((merged_of_moved hsame).symm ▸ hm.not_has)

theorem held : Held (k.plug (b ++ .node hd .nil z)).heads (k.plug (b ++ .node hd .nil z)).Beside view hd :=
  hm.tended.held view hm.covers.view_mem hm.covers.view_kind hd hm.covers.tile_mem hm.covers.tile_on.uses

theorem tile_mem_defined : tile ∈ hd.defined := by
  obtain ⟨t, hres⟩ := hm.makes
  simp [Node.defined, hres]

theorem bytes_mem_defined : bytes ∈ alloc.defined := by
  obtain ⟨t, hres⟩ := hm.allocates
  simp [Node.defined, hres]

theorem cases (hh : h ∈ g.code.heads) : h = made ∨ ∃ h₁ ∈ (k.plug (b ++ .node hd .nil z)).heads,
    h₁ ≠ hd ∧ h₁.rename (merged tile bytes new) = h := by
  rcases hm.replaces.cases hh with hn | ⟨h₁, hh₁, rfl⟩
  · exact .inl (List.mem_singleton.1 hn)
  · exact .inr ⟨h₁, Spine.mem_heads_iff.2 (hh₁.imp_right .inr), hm.before.around_ne hh₁, rfl⟩

theorem stays (hh : h ∈ (k.plug (b ++ .node hd .nil z)).heads) (hne : h ≠ hd) :
    h.rename (merged tile bytes new) ∈ g.code.heads := by
  rcases Spine.mem_heads_iff.1 hh with hin | rfl | hin | hin
  · exact hm.replaces.mem_around (.inl hin)
  · exact (hne rfl).elim
  · cases hin
  · exact hm.replaces.mem_around (.inr hin)

theorem fixed (hh : h ∈ (k.plug (b ++ .node hd .nil z)).heads) (hne : h ≠ hd) (hne' : h ≠ alloc)
    (hv : v ∈ h.defined) : merged tile bytes new v = v := by
  refine merged_of_ne ?_ ?_
  · rintro rfl
    exact hne (hm.before.eq_of_defined hh hm.covers.tile_mem hv hm.tile_mem_defined)
  · rintro rfl
    exact hne' (hm.before.eq_of_defined hh hm.covers.alloc_mem hv hm.bytes_mem_defined)

theorem exists_shows : ∃ u ∈ hd.operands.head?, Shows (k.plug (b ++ .node hd .nil z)).heads bytes u := by
  obtain ⟨t, hbytes⟩ := hm.allocates
  obtain ⟨u, hu, hon⟩ := hm.covers.tile_on
  obtain ⟨u', hu', hon'⟩ := hm.covers.view_on
  obtain ⟨⟨_, t'⟩, hview, rfl⟩ := Option.map_eq_some_iff.1 hon
  obtain rfl : u' = bytes := by simpa [hbytes, eq_comm] using hon'
  exact ⟨_, hu, .view hm.covers.view_mem (by rw [hm.covers.view_kind]; rfl) hu' hview .self⟩

theorem touches_bytes : hd.Touches (k.plug (b ++ .node hd .nil z)).heads bytes := by
  obtain ⟨u, hu, hshows⟩ := hm.exists_shows
  exact ⟨u, List.mem_of_mem_head? hu, hshows⟩

theorem shows_tile : Shows (k.plug (b ++ .node hd .nil z)).heads bytes tile := by
  obtain ⟨u, hu, hshows⟩ := hm.exists_shows
  obtain ⟨t, hres⟩ := hm.makes
  exact .view hm.covers.tile_mem (OpKind.shows_of_window hm.covers.tile_kind) hu hres hshows

theorem shows_of_merged (hv : f.Has v) (hne : v ≠ tile)
    (h : Shows g.code.heads (merged tile bytes new v) w) : ∀ u, f.Has u → merged tile bytes new u = w →
      Shows (k.plug (b ++ .node hd .nil z)).heads v u := by
  induction h with
  | self =>
    intro u hu hsame
    by_cases hb : v = bytes
    · subst hb
      rw [merged_bytes] at hsame
      rcases merged_cases tile v new u with rfl | rfl | hfix
      · exact hm.shows_tile
      · exact .self
      · exact (hm.not_has (hsame ▸ hfix.symm ▸ hu)).elim
    · rw [merged_of_ne hne hb] at hsame
      obtain rfl : u = v := ((hm.fresh u).resolve_right fun hnot => hnot (hsame ▸ hv)).symm.trans hsame
      exact .self
  | @view h u w t hh hkind hu hres _ ih =>
    rintro r hr rfl
    rcases hm.cases hh with rfl | ⟨h₁, hh₁, hne₁, rfl⟩
    · simp [hm.kind, OpKind.shows] at hkind
    · have hdef : merged tile bytes new r ∈ h₁.defined := by
        simp [Node.defined, show h₁.result = some (merged tile bytes new r, t) from hres]
      have hsame := (hm.fresh r).resolve_right (not_not.2 (hm.before.has_defined hh₁ _ hdef))
      rw [Node.rename, List.head?_map, Option.mem_def, Option.map_eq_some_iff] at hu
      obtain ⟨u₁, hu₁, rfl⟩ := hu
      rw [hsame] at hres
      exact .view hh₁ hkind hu₁ hres (ih u₁ (hm.has h₁ hh₁ u₁ (List.mem_of_mem_head? hu₁)) rfl)

theorem touches_of_merged (hv : f.Has v) (hne : v ≠ tile)
    (hh : h ∈ (k.plug (b ++ .node hd .nil z)).heads)
    (ht : (h.rename (merged tile bytes new)).Touches g.code.heads (merged tile bytes new v)) :
    h.Touches (k.plug (b ++ .node hd .nil z)).heads v := by
  obtain ⟨_, hmem, hshows⟩ := ht
  obtain ⟨u, hu, rfl⟩ := List.mem_map.1 hmem
  exact ⟨u, hu, hm.shows_of_merged hv hne hshows u (hm.has h hh u hu) rfl⟩

theorem beside_rename {a d : Node} (ha : a ≠ hd) (hd' : d ≠ hd)
    (h : (k.plug (b ++ .node hd .nil z)).Beside a d) :
    g.code.Beside (a.rename (merged tile bytes new)) (d.rename (merged tile bytes new)) := by
  rw [hm.splice.represents.code_eq]
  exact Spine.beside_rename ha hd' (fun h => by cases h) h

theorem of_freed {d : Node} (hd' : d ∈ (k.plug (b ++ .node hd .nil z)).heads) (hkind : d.kind = .dealloc) :
    ∃ a ∈ (k.plug (b ++ .node hd .nil z)).heads, a.kind = .alloc ∧ a ≠ hd ∧ ∃ v t, a.result = some (v, t) ∧
      d.operands = [v] ∧ f.Has v ∧ v ≠ tile := by
  obtain ⟨a, ha, halloc, v, t, hres, hops⟩ := hm.tended.allocated d hd' hkind
  have hne : a ≠ hd := by
    rintro rfl
    exact (OpKind.sorts_of_window hm.covers.tile_kind).1 halloc
  have hdef : v ∈ a.defined := by simp [Node.defined, hres]
  refine ⟨a, ha, halloc, hne, v, t, hres, hops, hm.before.has_defined ha v hdef, ?_⟩
  rintro rfl
  exact hne (hm.before.eq_of_defined ha hm.covers.tile_mem hdef hm.tile_mem_defined)

theorem ended : g.code.heads.Pairwise fun d later =>
    d.kind = .dealloc → ∀ v ∈ d.operands, ¬ later.Touches g.code.heads v := by
  refine hm.replaces.pairwise hm.tended.ended (fun d hd' later hlater hpair hkind v hv ht => ?_)
    (List.pairwise_singleton _ _) (fun d _ _ n hn _ v _ ht => ?_) fun n hn later _ _ hkind => ?_
  · obtain ⟨u, hu, rfl⟩ := List.mem_map.1 hv
    obtain ⟨a, ha, halloc, -, v, t, hres, hops, hhas, hne⟩ := hm.of_freed hd' hkind
    obtain rfl : u = v := by simpa [hops] using hu
    exact hpair hkind u hu (hm.touches_of_merged hhas hne hlater ht)
  · obtain ⟨w, hw, -⟩ := ht
    simp [List.mem_singleton.1 hn, hm.operands] at hw
  · rw [List.mem_singleton.1 hn, hm.kind] at hkind
    cases hkind

theorem uses_of_rename {user a : Node} (ha : a ∈ (k.plug (b ++ .node hd .nil z)).heads)
    (hu : (user.rename (merged tile bytes new)).Uses (a.rename (merged tile bytes new))) : user.Uses a := by
  have hu' : (user.rename (merged tile bytes new)).Uses a := hu
  exact hu'.of_rename hm.fresh (hm.before.has_defined ha)

theorem ne_alloc {user a : Node} (ha : a ∈ (k.plug (b ++ .node hd .nil z)).heads)
    (hu : (user.rename (merged tile bytes new)).Uses (a.rename (merged tile bytes new))) : a ≠ alloc := by
  rintro rfl
  obtain ⟨t, hres⟩ := hm.allocates
  obtain ⟨v, hv, hdef⟩ := hu
  have hdefined : a.defined = [bytes] :=
    hm.before.defined_of_result ha (by rw [hm.covers.alloc_kind]; rfl) hres
  obtain rfl : v = bytes := by simpa [hdefined] using show v ∈ a.defined from hdef
  obtain ⟨u, -, hsame⟩ := List.mem_map.1 hv
  -- No value has its name: what has it still has got that of the new one.
  have hbytes : f.Has v := hm.before.has_defined ha v hm.bytes_mem_defined
  obtain rfl : u = v := ((hm.fresh u).resolve_right fun hnot => hnot (hsame.symm ▸ hbytes)).symm.trans hsame
  rw [merged_bytes] at hsame
  exact hm.not_has (hsame.symm ▸ hbytes)

theorem freed_new : ∃ d ∈ g.code.heads, d.kind = .dealloc ∧ d.Uses made ∧ g.code.Beside made d := by
  obtain ⟨t, hres⟩ := hm.allocates
  obtain ⟨t', hnew⟩ := hm.result
  obtain ⟨d, hd', hkind, ⟨v, hv, hdef⟩, hbeside⟩ := hm.tended.freed alloc hm.covers.alloc_mem
    hm.covers.alloc_kind view hm.covers.view_mem hm.covers.view_on.uses
  have hdefined : alloc.defined = [bytes] :=
    hm.before.defined_of_result hm.covers.alloc_mem (by rw [hm.covers.alloc_kind]; rfl) hres
  obtain rfl : v = bytes := by simpa [hdefined] using hdef
  have hne : d ≠ hd := by
    rintro rfl
    exact (OpKind.sorts_of_window hm.covers.tile_kind).2.1 hkind
  -- The tile works on what is freed, so it comes before that.
  have hbehind : (k.plug (b ++ .node hd .nil z)).Beside hd d := by
    have hnd : (k.plug (b ++ .node hd .nil z)).heads.Nodup :=
      List.Nodup.of_map (·.op) (Code.ops_eq_map_heads _ ▸ hm.before.nodup)
    have htile := hm.held.beside alloc hm.covers.alloc_mem hm.covers.alloc_kind hm.covers.view_on
    rcases htile.total hnd hbeside with he | h | h
    · exact (hne he.symm).elim
    · exact h
    · exact (h.of_pairwise hm.tended.ended hkind v hv hm.touches_bytes).elim
  have htops : d ∈ z.tops := by
    rcases Spine.beside_at.1 hbehind with h | h | ⟨-, he⟩ | ⟨-, h⟩
    · cases h
    · exact (hm.before.not_mem_around h.mem_heads.1).elim
    · exact (hne he).elim
    · exact h
  refine ⟨d.rename _, hm.stays hd' hne, hkind, ⟨new, List.mem_map.2 ⟨v, hv, merged_bytes⟩, by
    simp [Node.defined, hnew]⟩, ?_⟩
  rw [hm.splice.represents.code_eq, Spine.beside_splice]
  exact .inr (.inr (.inr ⟨List.mem_singleton_self _, by
    rw [Code.tops_rename]
    exact List.mem_map_of_mem htops⟩))

theorem not_on_new (hh : h ∈ (k.plug (b ++ .node hd .nil z)).heads) (hkind : h.kind = .view)
    (hne : h ≠ view) : ¬ (h.rename (merged tile bytes new)).On made := by
  rintro ⟨_, hu, hres⟩
  obtain ⟨t, hnew⟩ := hm.result
  rw [Node.rename, List.head?_map, Option.mem_def, Option.map_eq_some_iff] at hu
  obtain ⟨u, hu, rfl⟩ := hu
  have hmem := List.mem_of_mem_head? hu
  have hsame : merged tile bytes new u = new := by simpa [hnew, eq_comm] using hres
  rcases merged_cases tile bytes new u with rfl | rfl | hfix
  · -- What a view at another type stands on has been allocated.
    obtain ⟨a, ha, halloc, v, hv, hmade⟩ := hm.shown h hh hkind
    obtain rfl : u = v := by simpa [hu] using hv
    have hdef : u ∈ a.defined := by simp [Node.defined, hmade]
    have hhd := hm.before.eq_of_defined ha hm.covers.tile_mem hdef hm.tile_mem_defined
    exact (OpKind.sorts_of_window hm.covers.tile_kind).1 (hhd ▸ halloc)
  · rcases hm.held.freed alloc hm.covers.alloc_mem hm.covers.alloc_kind hm.covers.view_on h hh
      ⟨u, hmem, hm.bytes_mem_defined⟩ with he | hfree
    · exact hne he
    · rw [hkind] at hfree
      cases hfree
  · exact hm.not_has (hsame ▸ hfix.symm ▸ hm.has h hh u hmem)

theorem allocated {d : Node} (hd' : d ∈ g.code.heads) (hkind : d.kind = .dealloc) :
    ∃ a ∈ g.code.heads, a.kind = .alloc ∧ ∃ v t, a.result = some (v, t) ∧ d.operands = [v] := by
  rcases hm.cases hd' with rfl | ⟨d, hd₁, -, rfl⟩
  · rw [hm.kind] at hkind
    cases hkind
  · obtain ⟨a, ha, halloc, hne, v, t, hres, hops, -⟩ := hm.of_freed hd₁ hkind
    by_cases hsame : a = alloc
    · subst hsame
      obtain ⟨t', hbytes⟩ := hm.allocates
      obtain ⟨t'', hnew⟩ := hm.result
      obtain ⟨rfl, rfl⟩ : v = bytes ∧ t = t' := by simpa [hres] using hbytes
      exact ⟨made, hm.replaces.mem_new (List.mem_singleton_self _), hm.kind, new, t'', hnew,
        by simp [Node.rename, hops, merged_bytes]⟩
    · exact ⟨a.rename _, hm.stays ha hne, halloc, v, t, hres, by
        simp [Node.rename, hops, hm.fixed ha hne hsame (v := v) (by simp [Node.defined, hres])]⟩

theorem freed {a : Node} (ha : a ∈ g.code.heads) (halloc : a.kind = .alloc) (hh : h ∈ g.code.heads)
    (hu : h.Uses a) : ∃ d ∈ g.code.heads, d.kind = .dealloc ∧ d.Uses a ∧ g.code.Beside a d := by
  rcases hm.cases ha with rfl | ⟨a, ha₁, hne, rfl⟩
  · exact hm.freed_new
  · rcases hm.cases hh with rfl | ⟨h, hh₁, -, rfl⟩
    · obtain ⟨v, hv, -⟩ := hu
      simp [hm.operands] at hv
    · obtain ⟨d, hd', hkind, ⟨v, hv, hdef⟩, hbeside⟩ :=
        hm.tended.freed a ha₁ halloc h hh₁ (hm.uses_of_rename ha₁ hu)
      have hne' : d ≠ hd := by
        rintro rfl
        exact (OpKind.sorts_of_window hm.covers.tile_kind).2.1 hkind
      exact ⟨d.rename _, hm.stays hd' hne', hkind, ⟨v, List.mem_map.2
        ⟨v, hv, hm.fixed ha₁ hne (hm.ne_alloc ha₁ hu) hdef⟩, hdef⟩, hm.beside_rename hne hne' hbeside⟩

theorem held_rename {view' user : Node} (hview : view' ∈ g.code.heads) (hkind : view'.kind = .view)
    (huser : user ∈ g.code.heads) (hu : user.Uses view') : Held g.code.heads g.code.Beside view' user := by
  have hold : ∀ {a h : Node}, a ∈ (k.plug (b ++ .node hd .nil z)).heads → h ∈ g.code.heads →
      h.Uses (a.rename (merged tile bytes new)) → ∃ h₁ ∈ (k.plug (b ++ .node hd .nil z)).heads, h₁ ≠ hd ∧
        h₁.Uses a ∧ h₁.rename (merged tile bytes new) = h := by
    intro a h ha hh hu
    rcases hm.cases hh with rfl | ⟨h₁, hh₁, hne, rfl⟩
    · obtain ⟨v, hv, -⟩ := hu
      simp [hm.operands] at hv
    · exact ⟨h₁, hh₁, hne, hm.uses_of_rename ha hu, rfl⟩
  rcases hm.cases hview with rfl | ⟨view', hview₁, -, rfl⟩
  · rw [hm.kind] at hkind
    cases hkind
  obtain ⟨user, huser₁, hne, hu₁, rfl⟩ := hold hview₁ huser hu
  refine (hm.tended.held view' hview₁ hkind user huser₁ hu₁).rename hkind (fun h hh hu => ?_)
    fun a ha halloc hon => ?_
  · obtain ⟨h₁, hh₁, -, hu₁, rfl⟩ := hold hview₁ hh hu
    exact ⟨h₁, hh₁, hu₁, rfl⟩
  · rcases hm.cases ha with rfl | ⟨a₁, ha₁, hne₁, rfl⟩
    · refine (hm.not_on_new hview₁ hkind ?_ hon).elim
      rintro rfl
      exact hne (hm.held.single user huser₁ hu₁)
    · have hon' : (view'.rename (merged tile bytes new)).On a₁ := hon
      refine ⟨a₁, ha₁, hon'.of_rename hm.fresh (hm.before.has_defined ha₁), rfl,
        fun hab => hm.beside_rename hne₁ hne hab, fun h hh hu => ?_⟩
      obtain ⟨h₁, hh₁, -, hu₁, rfl⟩ := hold ha₁ hh hu
      exact ⟨h₁, hh₁, hu₁, .inl rfl⟩

theorem tendsBuffers : g.TendsBuffers where
  allocated _ hd' hkind := hm.allocated hd' hkind
  ended := hm.ended
  freed _ ha halloc _ hh hu := hm.freed ha halloc hh hu
  held _ hview hkind _ huser hu := hm.held_rename hview hkind huser hu

theorem idle_view : (view.rename (merged tile bytes new)).Idle g.code := by
  refine ⟨hm.covers.view_kind, fun h hh hu => ?_⟩
  rcases hm.cases hh with rfl | ⟨h, hh₁, hne, rfl⟩
  · obtain ⟨v, hv, -⟩ := hu
    simp [hm.operands] at hv
  · exact hne (hm.held.single h hh₁ (hm.uses_of_rename hm.covers.view_mem hu))

theorem inOrder (ho : (k.plug (b ++ .node hd .nil z)).InOrder) : g.code.InOrder := by
  refine hm.replaces.inOrder hm.before hm.fresh (List.forall_mem_singleton.2 (by simp [hm.operands])) ho
    (fun h hh hidle u hu hout => List.forall_mem_singleton.2 fun hdef => ?_) (List.pairwise_singleton _ _)
    (List.forall_mem_singleton.2 (by simp [hm.operands]))
  have hin : h ∈ (k.plug (b ++ .node hd .nil z)).heads := Spine.mem_heads_iff.2 (.inl hh)
  have hfresh : ¬ f.Has (merged tile bytes new u) :=
    hm.replaces.values made (List.mem_singleton_self _) _ hdef
  rcases merged_cases tile bytes new u with rfl | rfl | hfix
  · exact hout hm.tile_mem_defined
  · -- Only the view and what frees the allocation work on it, and that comes behind the tile.
    rcases hm.held.freed alloc hm.covers.alloc_mem hm.covers.alloc_kind hm.covers.view_on h hin
      ⟨u, hu, hm.bytes_mem_defined⟩ with rfl | hkind
    · exact hidle hm.idle_view
    · have hended := hm.tended.ended
      rw [Spine.heads_at, List.pairwise_append, ← Spine.heads_at] at hended
      exact hended.2.2 h hh hd List.mem_cons_self hkind u hu hm.touches_bytes
  · exact hfresh (hfix.symm ▸ hm.has h hin u hu)

end Reallocated

theorem gives_careful {x : Code} (h : f.Careful) (hr : f.Represents (k.plug (b ++ .node hd x z))) :
    ((Rule.reallocation space).apply f hd.op).Gives True fun g =>
      g.Sorted ∧ g.code.InOrder ∧ g.TendsBuffers := by
  obtain ⟨⟨hb, hl, -⟩, hs, ho, ht⟩ := h
  rw [hr.code_eq] at hl ho
  rw [Function.TendsBuffers, hr.code_eq] at ht
  refine (gives_splice hr (hs.made hr)).mono ?_
  rintro g - ⟨view, alloc, tile, bytes, type, type', op, new, hcovers, hres, hbytes, hsplice⟩
  obtain rfl : x = .nil := Spine.body_eq_nil (hb.nested_of hr) (by
    obtain ⟨w, hw⟩ := Option.isSome_iff_exists.1 hcovers.tile_kind
    rw [OpKind.window?_eq_some.1 hw]
    rfl)
  have hm : Reallocated f g k b z hd view alloc tile bytes new (made op new type space) :=
    ⟨hr, hb.has_of hr, hl.shown, ht, hcovers, ⟨_, hres⟩, ⟨_, hbytes⟩, hsplice, rfl, rfl, ⟨_, rfl⟩⟩
  exact ⟨sorted hr hs hcovers hres hbytes hsplice, hm.inOrder ho, hm.tendsBuffers⟩

end KernelLowering.Reallocation
