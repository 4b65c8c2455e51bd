import KernelLowering.Proofs.Lifetime.Buffers

namespace KernelLowering

variable {f g : Function} {k : Spine} {b x y z c : Code} {hd h : Node} {σ : ValueId → ValueId}
  {new hs hs' : List Node} {u v w : ValueId} {Beside Beside' : Node → Node → Prop}

namespace Node

theorem Sorted.shows_buffer (hs : h.Sorted f) (hkind : h.kind.shows = true) :
    ∃ r t, h.result = some (r, .buffer t) := by
  cases hk : h.kind with
  | view =>
    obtain ⟨-, r, t, -, -, hres⟩ := hs.of_view hk
    exact ⟨r, t, hres⟩
  | subView w =>
    obtain ⟨-, -, r, t, -, -, -, -, hres⟩ := hs.of_subView hk
    exact ⟨r, t, hres⟩
  | _ => simp [hk, OpKind.shows] at hkind

end Node

theorem Held.extend {view tile : Node} (h : Held hs Beside view tile)
    (hmem : ∀ n ∈ hs', n ∈ hs ∨ ¬ n.Uses view ∧ ¬ view.On n ∧
      ∀ alloc ∈ hs, alloc.kind = .alloc → view.On alloc → n.Uses alloc → n.kind = .dealloc)
    (hbeside : ∀ a d, Beside a d → Beside' a d) : Held hs' Beside' view tile := by
  have halloc : ∀ alloc ∈ hs', view.On alloc → alloc ∈ hs := fun alloc ha hon =>
    (hmem alloc ha).resolve_right fun hout => hout.2.1 hon
  refine ⟨h.window, h.alone, fun n hn hu => ?_, fun alloc ha hk hon n hn hu => ?_,
    fun alloc ha hk hon => hbeside alloc tile (h.beside alloc (halloc alloc ha hon) hk hon)⟩
  · exact h.single n ((hmem n hn).resolve_right fun hout => hout.1 hu) hu
  · rcases hmem n hn with hin | ⟨-, -, hfree⟩
    · exact h.freed alloc (halloc alloc ha hon) hk hon n hin hu
    · exact .inr (hfree alloc (halloc alloc ha hon) hk hon hu)

theorem Held.rename {view tile : Node} (h : Held hs Beside view tile) (hkind : view.kind = .view)
    (husers : ∀ n ∈ hs', n.Uses (view.rename σ) → ∃ n₁ ∈ hs, n₁.Uses view ∧ n₁.rename σ = n)
    (hshown : ∀ a ∈ hs', a.kind = .alloc → (view.rename σ).On a → ∃ a₁ ∈ hs, view.On a₁ ∧ a₁.rename σ = a ∧
      (Beside a₁ tile → Beside' a (tile.rename σ)) ∧ ∀ n ∈ hs', n.Uses a → ∃ n₁ ∈ hs, n₁.Uses a₁ ∧
        (n₁.rename σ = n ∨ n₁.kind ≠ .view ∧ n₁.kind ≠ .dealloc)) :
    Held hs' Beside' (view.rename σ) (tile.rename σ) where
  window := h.window
  alone := (List.length_map _).trans h.alone
  single n hn hu := by
    obtain ⟨n₁, hn₁, hu₁, rfl⟩ := husers n hn hu
    rw [h.single n₁ hn₁ hu₁]
  freed a ha halloc hon n hn hu := by
    obtain ⟨a₁, ha₁, hon₁, rfl, -, husers⟩ := hshown a ha halloc hon
    obtain ⟨n₁, hn₁, hu₁, rfl | ⟨hview, hfree⟩⟩ := husers n hn hu
    · exact (h.freed a₁ ha₁ halloc hon₁ n₁ hn₁ hu₁).imp_left fun he => by rw [he]
    · rcases h.freed a₁ ha₁ halloc hon₁ n₁ hn₁ hu₁ with rfl | hfree'
      · exact (hview hkind).elim
      · exact (hfree hfree').elim
  beside a ha halloc hon := by
    obtain ⟨a₁, ha₁, hon₁, rfl, hbeside, -⟩ := hshown a ha halloc hon
    exact hbeside (h.beside a₁ ha₁ halloc hon₁)

theorem Shows.sort?_eq (hr : f.Represents c) (hs : f.Sorted) (hv : f.sort? v = some .buffer)
    (h : Shows c.heads v u) : f.sort? u = some .buffer := by
  cases h with
  | self => exact hv
  | view hh hkind _ hres =>
    obtain ⟨r, t, hres'⟩ := (hr.sorted_iff.1 hs _ hh).shows_buffer hkind
    obtain ⟨rfl, rfl⟩ : u = r ∧ _ = ValueType.buffer t := by simpa [hres] using hres'
    exact hr.sort?_result hh hres

namespace Function

theorem Represents.sort?_buffer (hr : f.Represents c) (hs : f.Sorted) (hh : h ∈ c.heads)
    (hkind : h.kind = .alloc ∨ h.kind = .view) : ∀ v ∈ h.defined, f.sort? v = some .buffer := by
  have hsorted := hr.sorted_iff.1 hs h hh
  have hvars : h.kind.loopRanges = [] := by rcases hkind with hk | hk <;> rw [hk] <;> rfl
  obtain ⟨r, t, hres⟩ : ∃ r t, h.result = some (r, .buffer t) := by
    rcases hkind with hk | hk
    · exact (hsorted.of_alloc hk).2
    · obtain ⟨-, r, t, -, -, hres⟩ := hsorted.of_view hk
      exact ⟨r, t, hres⟩
  intro v hv
  rw [hr.defined_of_result hh (by rcases hkind with hk | hk <;> rw [hk] <;> rfl) hres] at hv
  rw [List.mem_singleton.1 hv]
  exact hr.sort?_result hh hres

theorem Represents.around_ne (hr : f.Represents (k.plug (b ++ .node hd x z)))
    (hh : h ∈ k.before b ∨ h ∈ x.heads ∨ h ∈ k.behind z) : h ≠ hd := by
  have hnodup : ((k.plug (b ++ .node hd x z)).heads.map (·.op)).Nodup := by
    rw [← Code.ops_eq_map_heads]
    exact hr.nodup
  rw [Spine.heads_at, List.map_append, List.nodup_append', List.map_cons, List.nodup_cons] at hnodup
  obtain ⟨-, ⟨hout, -⟩, hdis⟩ := hnodup
  rintro rfl
  rcases hh with hh | hh
  · exact hdis (List.mem_map_of_mem hh) List.mem_cons_self
  · exact hout (List.mem_map_of_mem (List.mem_append.2 hh))

structure Inherits (f g : Function) (k : Spine) (b x z : Code) (hd : Node) (σ : ValueId → ValueId)
    (y : Code) (new : List Node) : Prop where
  before : f.Represents (k.plug (b ++ .node hd x z))
  sorted : f.Sorted
  has : ∀ h ∈ (k.plug (b ++ .node hd x z)).heads, ∀ v ∈ h.operands, f.Has v
  after : g.Represents ((k.rename σ).plug (b.rename σ ++ (y ++ z.rename σ)))
  replaces : f.Replaces g k b x z σ new
  kind : hd.kind ≠ .alloc ∧ hd.kind ≠ .dealloc
  fixes : ∀ v, v ∉ hd.defined → σ v = v
  tells : ∀ u v, f.Has u → f.Has v → σ u = σ v →
    u = v ∨ f.sort? u = some .index ∧ f.sort? v = some .index
  body : ∀ v ∈ x.defined, ∀ h ∈ g.code.heads, v ∈ h.operands → v ∈ g.code.defined
  beside : ∀ a d, x.Beside a d → a.rename σ ∈ g.code.heads → y.Beside (a.rename σ) (d.rename σ)
  moves : ∀ n ∈ new, n.kind = .alloc ∨ n.kind = .view → ∀ w ∈ n.defined, ∀ u, f.Has u → σ u ≠ w
  views : ∀ n ∈ new, n.kind = .view → ∀ w ∈ n.operands, ∀ u, f.Has u → σ u ≠ w
  uses : ∀ n ∈ new, ∀ u ∈ n.operands, f.Has u →
    (∃ h ∈ (k.plug (b ++ .node hd x z)).heads, h.kind ≠ .view ∧ h.kind ≠ .dealloc ∧ u ∈ h.operands) ∧
      ∀ view ∈ (k.plug (b ++ .node hd x z)).heads, view.kind = .view → u ∉ view.defined
  takes : ∀ n ∈ new, ∀ u ∈ n.operands, f.Has u → ∀ v, f.sort? v = some .buffer →
    Shows (k.plug (b ++ .node hd x z)).heads v u → hd.Touches (k.plug (b ++ .node hd x z)).heads v
  follows : ∀ n ∈ new, n.kind.shows = true → ∀ r ∈ hd.defined, ∀ t, n.result = some (σ r, t) →
    ∀ w ∈ n.operands.head?, ∃ u, f.Has u ∧ σ u = w ∧ ∀ v, f.sort? v = some .buffer →
      Shows (k.plug (b ++ .node hd x z)).heads v u → Shows (k.plug (b ++ .node hd x z)).heads v r

namespace Inherits

variable (hi : f.Inherits g k b x z hd σ y new)

include hi

theorem cases (hh : h ∈ g.code.heads) : h ∈ new ∨ ∃ h₁ ∈ (k.plug (b ++ .node hd x z)).heads,
    h₁ ≠ hd ∧ h₁.rename σ = h := by
  refine (hi.replaces.cases hh).imp_right ?_
  rintro ⟨h₁, hh₁, rfl⟩
  exact ⟨h₁, Spine.mem_heads_iff.2 (hh₁.imp_right .inr), hi.before.around_ne hh₁, rfl⟩

theorem not_defined_at (hh : h ∈ (k.plug (b ++ .node hd x z)).heads) (hne : h ≠ hd) (hv : v ∈ h.defined) :
    v ∉ hd.defined := fun hdef =>
  hne (hi.before.eq_of_defined hh (Spine.mem_heads_at k b x z hd) hv hdef)

theorem eq_of_renamed (hh : h ∈ (k.plug (b ++ .node hd x z)).heads) (hne : h ≠ hd) (hv : v ∈ h.defined)
    (hsort : f.sort? v = some .buffer) (hu : f.Has u) (hsame : σ u = v) : u = v := by
  have hfix := hi.fixes v (hi.not_defined_at hh hne hv)
  refine (hi.tells u v hu (hi.before.has_defined hh v hv) (hsame.trans hfix.symm)).resolve_right ?_
  rintro ⟨-, hindex⟩
  rw [hsort] at hindex
  cases hindex

theorem stays (hh : h ∈ (k.plug (b ++ .node hd x z)).heads) (hne : h ≠ hd) (hv : v ∈ h.defined) {user : Node}
    (huser : user ∈ g.code.heads) (huses : v ∈ user.operands) : h.rename σ ∈ g.code.heads := by
  rcases Spine.mem_heads_iff.1 hh with hin | rfl | hin | hin
  · exact hi.replaces.mem_around (.inl hin)
  · exact (hne rfl).elim
  · obtain ⟨h', hh', hdef⟩ :=
      List.mem_flatMap.1 (hi.body v (List.mem_flatMap.2 ⟨h, hin, hv⟩) user huser huses)
    rcases hi.cases hh' with hn | ⟨h₁, hh₁, -, rfl⟩
    · exact (hi.replaces.values h' hn v hdef (hi.before.has_defined hh v hv)).elim
    · rwa [hi.before.eq_of_defined hh hh₁ hv hdef]
  · exact hi.replaces.mem_around (.inr hin)

theorem beside_rename {a d : Node} (ha : a ≠ hd) (hd' : d ≠ hd) (hin : a.rename σ ∈ g.code.heads)
    (h : (k.plug (b ++ .node hd x z)).Beside a d) : g.code.Beside (a.rename σ) (d.rename σ) := by
  rw [hi.after.code_eq]
  exact Spine.beside_rename ha hd' (fun h => hi.beside a d h hin) h

theorem touches_of_defined (hout : v ∉ hd.defined) (hu : u ∈ hd.defined)
    (h : Shows (k.plug (b ++ .node hd x z)).heads v u) :
    hd.Touches (k.plug (b ++ .node hd x z)).heads v := by
  cases h with
  | self => exact (hout hu).elim
  | @view h w _ t hh _ hw hres hshows =>
    obtain rfl := hi.before.eq_of_defined hh (Spine.mem_heads_at k b x z hd) (by simp [Node.defined, hres]) hu
    exact ⟨w, List.mem_of_mem_head? hw, hshows⟩

theorem touches_of_operand {n : Node} (hn : n ∈ new) (hu : f.Has u) (hmem : σ u ∈ n.operands)
    (hsort : f.sort? v = some .buffer) (hout : v ∉ hd.defined)
    (h : Shows (k.plug (b ++ .node hd x z)).heads v u) :
    hd.Touches (k.plug (b ++ .node hd x z)).heads v := by
  by_cases hdef : u ∈ hd.defined
  · exact hi.touches_of_defined hout hdef h
  · exact hi.takes n hn u (hi.fixes u hdef ▸ hmem) hu v hsort h

theorem shows_cases (hsort : f.sort? v = some .buffer) (hout : v ∉ hd.defined)
    (h : Shows g.code.heads v w) : (∃ u, f.Has u ∧ σ u = w ∧ Shows (k.plug (b ++ .node hd x z)).heads v u) ∨
      (∀ u, f.Has u → σ u ≠ w) ∧ hd.Touches (k.plug (b ++ .node hd x z)).heads v := by
  induction h with
  | self => exact .inl ⟨v, has_of_sort? hsort, hi.fixes v hout, .self⟩
  | @view h u w t hh hkind hu hres _ ih =>
    rcases hi.cases hh with hn | ⟨h₁, hh₁, hne, rfl⟩
    · by_cases hold : ∃ r, f.Has r ∧ σ r = w
      · obtain ⟨r, hr, rfl⟩ := hold
        have hdef : r ∈ hd.defined := not_not.1 fun hout =>
          hi.replaces.values h hn (σ r) (by simp [Node.defined, hres]) (by rwa [hi.fixes r hout])
        obtain ⟨u', hu', rfl, hshows⟩ := hi.follows h hn hkind r hdef t hres u hu
        rcases ih with ⟨u'', hu'', hsame, hshows'⟩ | ⟨hfresh, -⟩
        · rcases hi.tells u'' u' hu'' hu' hsame with rfl | ⟨hindex, -⟩
          · exact .inl ⟨r, hr, rfl, hshows v hsort hshows'⟩
          · rw [hshows'.sort?_eq hi.before hi.sorted hsort] at hindex
            cases hindex
        · exact (hfresh u' hu' rfl).elim
      · refine .inr ⟨fun u hu he => hold ⟨u, hu, he⟩, ?_⟩
        rcases ih with ⟨u', hu', rfl, hshows⟩ | ⟨-, htouches⟩
        · exact hi.touches_of_operand hn hu' (List.mem_of_mem_head? hu) hsort hout hshows
        · exact htouches
    · rw [Node.rename, List.head?_map, Option.mem_def, Option.map_eq_some_iff] at hu
      obtain ⟨u₁, hu₁, rfl⟩ := hu
      have hhas := hi.has h₁ hh₁ u₁ (List.mem_of_mem_head? hu₁)
      have hdef : w ∈ h₁.defined := by simp [Node.defined, show h₁.result = some (w, t) from hres]
      rcases ih with ⟨u', hu', hsame, hshows⟩ | ⟨hfresh, -⟩
      · rcases hi.tells u' u₁ hu' hhas hsame with rfl | ⟨hindex, -⟩
        · exact .inl ⟨w, hi.before.has_defined hh₁ w hdef, hi.fixes w (hi.not_defined_at hh₁ hne hdef),
            .view hh₁ hkind hu₁ hres hshows⟩
        · rw [hshows.sort?_eq hi.before hi.sorted hsort] at hindex
          cases hindex
      · exact (hfresh u₁ hhas rfl).elim

variable (hsort : f.sort? v = some .buffer) (hout : v ∉ hd.defined)

include hsort hout

theorem touches_of_rename (hh : h ∈ (k.plug (b ++ .node hd x z)).heads)
    (ht : (h.rename σ).Touches g.code.heads v) : h.Touches (k.plug (b ++ .node hd x z)).heads v := by
  obtain ⟨_, hmem, hshows⟩ := ht
  obtain ⟨u, hu, rfl⟩ := List.mem_map.1 hmem
  have hhas := hi.has h hh u hu
  rcases hi.shows_cases hsort hout hshows with ⟨u', hu', hsame, hshows'⟩ | ⟨hfresh, -⟩
  · rcases hi.tells u' u hu' hhas hsame with rfl | ⟨hindex, -⟩
    · exact ⟨u', hu, hshows'⟩
    · rw [hshows'.sort?_eq hi.before hi.sorted hsort] at hindex
      cases hindex
  · exact (hfresh u hhas rfl).elim

theorem touches_of_new (hn : h ∈ new) (ht : h.Touches g.code.heads v) :
    hd.Touches (k.plug (b ++ .node hd x z)).heads v := by
  obtain ⟨w, hw, hshows⟩ := ht
  rcases hi.shows_cases hsort hout hshows with ⟨u, hu, rfl, hshows'⟩ | ⟨-, htouches⟩
  · exact hi.touches_of_operand hn hu hw hsort hout hshows'
  · exact htouches

omit hsort hout

theorem shows_new (hfresh : ∀ u, f.Has u → σ u ≠ v) (h : Shows g.code.heads v w) :
    Shows new v w ∧ ∀ u, f.Has u → σ u ≠ w := by
  induction h with
  | self => exact ⟨.self, hfresh⟩
  | @view h u w t hh hkind hu hres _ ih =>
    rcases hi.cases hh with hn | ⟨h₁, hh₁, -, rfl⟩
    · refine ⟨.view hn hkind hu hres ih.1, ?_⟩
      rintro r hr rfl
      have hdef : r ∈ hd.defined := not_not.1 fun hout =>
        hi.replaces.values h hn (σ r) (by simp [Node.defined, hres]) (by rwa [hi.fixes r hout])
      obtain ⟨u', hu', rfl, -⟩ := hi.follows h hn hkind r hdef t hres u hu
      exact ih.2 u' hu' rfl
    · rw [Node.rename, List.head?_map, Option.mem_def, Option.map_eq_some_iff] at hu
      obtain ⟨u₁, hu₁, rfl⟩ := hu
      exact (ih.2 u₁ (hi.has h₁ hh₁ u₁ (List.mem_of_mem_head? hu₁)) rfl).elim

theorem mem_new_of_uses {n : Node} (hn : n ∈ new) (hkind : n.kind = .alloc ∨ n.kind = .view)
    (hh : h ∈ g.code.heads) (hu : h.Uses n) : h ∈ new := by
  obtain ⟨v, hv, hdef⟩ := hu
  rcases hi.cases hh with hh | ⟨h₁, hh₁, -, rfl⟩
  · exact hh
  · obtain ⟨u, hu, rfl⟩ := List.mem_map.1 hv
    exact (hi.moves n hn hkind _ hdef u (hi.has h₁ hh₁ u hu) rfl).elim

theorem uses_of_rename {a : Node} (ha : a ∈ (k.plug (b ++ .node hd x z)).heads) (hne : a ≠ hd)
    (hbuffer : ∀ v ∈ a.defined, f.sort? v = some .buffer) (hh : h ∈ (k.plug (b ++ .node hd x z)).heads)
    (hu : (h.rename σ).Uses (a.rename σ)) : h.Uses a := by
  obtain ⟨v, hv, hdef⟩ := hu
  obtain ⟨u, hu, rfl⟩ := List.mem_map.1 hv
  have hsame := hi.eq_of_renamed ha hne hdef (hbuffer _ hdef) (hi.has h hh u hu) rfl
  exact ⟨u, hu, hsame ▸ hdef⟩

section Tended

variable (hold : Tended (k.plug (b ++ .node hd x z)).heads (k.plug (b ++ .node hd x z)).Beside)
  (hnew : Tended new y.Beside)

include hold

theorem of_freed {d : Node} (hd' : d ∈ (k.plug (b ++ .node hd x z)).heads) (hkind : d.kind = .dealloc)
    (hv : v ∈ (d.rename σ).operands) :
    v ∈ d.operands ∧ f.sort? v = some .buffer ∧ v ∉ hd.defined := by
  obtain ⟨a, ha, halloc, v', t, hres, hops⟩ := hold.allocated d hd' hkind
  have hne : a ≠ hd := fun he => hi.kind.1 (he ▸ halloc)
  have hdef : v' ∈ a.defined := by simp [Node.defined, hres]
  have hout := hi.not_defined_at ha hne hdef
  obtain rfl : v = v' := by simpa [Node.rename, hops, hi.fixes v' hout] using hv
  exact ⟨by simp [hops], hi.before.sort?_buffer hi.sorted ha (.inl halloc) v hdef, hout⟩

theorem ended_rename {d later : Node} (hd' : d ∈ (k.plug (b ++ .node hd x z)).heads)
    (hlater : later ∈ (k.plug (b ++ .node hd x z)).heads)
    (hpair : d.kind = .dealloc → ∀ v ∈ d.operands,
      ¬ later.Touches (k.plug (b ++ .node hd x z)).heads v) (hkind : d.kind = .dealloc) :
    ∀ v ∈ (d.rename σ).operands, ¬ (later.rename σ).Touches g.code.heads v := by
  intro v hv ht
  obtain ⟨hv', hsort, hout⟩ := hi.of_freed hold hd' hkind hv
  exact hpair hkind v hv' (hi.touches_of_rename hsort hout hlater ht)

omit hold

theorem beside_of_new {a d : Node} (h : y.Beside a d) : g.code.Beside a d := by
  rw [hi.after.code_eq, Spine.beside_splice]
  exact .inl h

include hnew

theorem fresh_of_freed {d : Node} (hn : d ∈ new) (hkind : d.kind = .dealloc) (hv : v ∈ d.operands) :
    ∀ u, f.Has u → σ u ≠ v := by
  obtain ⟨a, ha, halloc, v', t, hres, hops⟩ := hnew.allocated d hn hkind
  obtain rfl : v = v' := by simpa [hops] using hv
  exact hi.moves a ha (.inl halloc) v (by simp [Node.defined, hres])

include hold

theorem allocated {d : Node} (hd' : d ∈ g.code.heads) (hkind : d.kind = .dealloc) :
    ∃ a ∈ g.code.heads, a.kind = .alloc ∧ ∃ v t, a.result = some (v, t) ∧ d.operands = [v] := by
  rcases hi.cases hd' with hn | ⟨d₁, hd₁, -, rfl⟩
  · obtain ⟨a, ha, halloc, hres⟩ := hnew.allocated d hn hkind
    exact ⟨a, hi.replaces.mem_new ha, halloc, hres⟩
  · obtain ⟨a, ha, halloc, v, t, hres, hops⟩ := hold.allocated d₁ hd₁ hkind
    have hne : a ≠ hd := fun he => hi.kind.1 (he ▸ halloc)
    have hdef : v ∈ a.defined := by simp [Node.defined, hres]
    have hfix := hi.fixes v (hi.not_defined_at ha hne hdef)
    exact ⟨a.rename σ, hi.stays ha hne hdef hd' (by simp [Node.rename, hops, hfix]), halloc, v, t, hres,
      by simp [Node.rename, hops, hfix]⟩

theorem ended : g.code.heads.Pairwise fun d later =>
    d.kind = .dealloc → ∀ v ∈ d.operands, ¬ later.Touches g.code.heads v := by
  -- New operations work on old buffers where `hd` did, and no old one works on new buffers.
  refine hi.replaces.pairwise hold.ended
    (fun d hd' later hlater hpair => hi.ended_rename hold hd' hlater hpair)
    (hnew.ended.imp_of_mem fun hd' _ hpair hkind v hv => ?_) (fun d hd' hpair n hn hkind v hv ht => ?_)
    fun d hd' later hlater _ hkind v hv => ?_
  · rintro ⟨w, hw, hshows⟩
    exact hpair hkind v hv ⟨w, hw, (hi.shows_new (hi.fresh_of_freed hnew hd' hkind hv) hshows).1⟩
  · obtain ⟨hv', hsort, hout⟩ := hi.of_freed hold (Spine.mem_heads_iff.2 (.inl hd')) hkind hv
    exact hpair hkind v hv' (hi.touches_of_new hsort hout hn ht)
  · rintro ⟨_, hmem, hshows⟩
    obtain ⟨u, hu, rfl⟩ := List.mem_map.1 hmem
    have hin : later ∈ (k.plug (b ++ .node hd x z)).heads := Spine.mem_heads_iff.2 (.inr (.inr hlater))
    exact (hi.shows_new (hi.fresh_of_freed hnew hd' hkind hv) hshows).2 u (hi.has later hin u hu) rfl

theorem freed {a : Node} (ha : a ∈ g.code.heads) (halloc : a.kind = .alloc) (hh : h ∈ g.code.heads)
    (hu : h.Uses a) : ∃ d ∈ g.code.heads, d.kind = .dealloc ∧ d.Uses a ∧ g.code.Beside a d := by
  rcases hi.cases ha with hn | ⟨a, ha₁, hne, rfl⟩
  · obtain ⟨d, hd', hkind, hud, hbeside⟩ :=
      hnew.freed a hn halloc h (hi.mem_new_of_uses hn (.inl halloc) hh hu) hu
    exact ⟨d, hi.replaces.mem_new hd', hkind, hud, hi.beside_of_new hbeside⟩
  · have hbuffer := hi.before.sort?_buffer hi.sorted ha₁ (.inl halloc)
    obtain ⟨h₁, hh₁, hu₁⟩ : ∃ h₁ ∈ (k.plug (b ++ .node hd x z)).heads, h₁.Uses a := by
      rcases hi.cases hh with hn | ⟨h₁, hh₁, -, rfl⟩
      · obtain ⟨v, hv, hdef⟩ := hu
        obtain ⟨⟨h₁, hh₁, -, -, hv₁⟩, -⟩ := hi.uses h hn v hv (hi.before.has_defined ha₁ v hdef)
        exact ⟨h₁, hh₁, v, hv₁, hdef⟩
      · exact ⟨h₁, hh₁, hi.uses_of_rename ha₁ hne hbuffer hh₁ hu⟩
    obtain ⟨d, hd', hkind, ⟨v, hv, hdef⟩, hbeside⟩ := hold.freed a ha₁ halloc h₁ hh₁ hu₁
    have hbeside' := hi.beside_rename hne (fun he => hi.kind.2 (he ▸ hkind)) ha hbeside
    exact ⟨d.rename σ, hbeside'.mem_heads.2, hkind, ⟨v, List.mem_map.2
      ⟨v, hv, hi.fixes v (hi.not_defined_at ha₁ hne hdef)⟩, hdef⟩, hbeside'⟩

omit hold in
theorem held_new {view tile : Node} (hn : view ∈ new) (hkind : view.kind = .view)
    (htile : tile ∈ g.code.heads) (hu : tile.Uses view) : Held g.code.heads g.code.Beside view tile := by
  refine (hnew.held view hn hkind tile (hi.mem_new_of_uses hn (.inr hkind) htile hu) hu).extend
    (fun h hh => or_iff_not_imp_left.2 fun hout => ⟨fun hu => hout (hi.mem_new_of_uses hn (.inr hkind) hh hu),
      ?_, fun alloc ha hk _ hu => (hout (hi.mem_new_of_uses ha (.inl hk) hh hu)).elim⟩)
        fun a d hab => hi.beside_of_new hab
  rintro ⟨v, hv, hres⟩
  obtain ⟨a, ha, hne, rfl⟩ := (hi.cases hh).resolve_left hout
  have hdef : v ∈ a.defined := by simp [Node.defined, show a.result.map (·.1) = some v from hres]
  exact hi.views view hn hkind v (List.mem_of_mem_head? hv) v (hi.before.has_defined ha v hdef)
    (hi.fixes v (hi.not_defined_at ha hne hdef))

omit hnew in
theorem held_rename {view tile : Node} (hview : view ∈ (k.plug (b ++ .node hd x z)).heads) (hne : view ≠ hd)
    (hkind : view.kind = .view) (htile : tile ∈ g.code.heads) (hu : tile.Uses (view.rename σ)) :
    Held g.code.heads g.code.Beside (view.rename σ) tile := by
  have hbuffer := hi.before.sort?_buffer hi.sorted hview (.inr hkind)
  have husers : ∀ h ∈ g.code.heads, h.Uses (view.rename σ) →
      ∃ h₁ ∈ (k.plug (b ++ .node hd x z)).heads, h₁ ≠ hd ∧ h₁.Uses view ∧ h₁.rename σ = h := by
    intro h hh hu
    rcases hi.cases hh with hn | ⟨h₁, hh₁, hne₁, rfl⟩
    · obtain ⟨v, hv, hdef⟩ := hu
      exact ((hi.uses h hn v hv (hi.before.has_defined hview v hdef)).2 view hview hkind hdef).elim
    · exact ⟨h₁, hh₁, hne₁, hi.uses_of_rename hview hne hbuffer hh₁ hu, rfl⟩
  obtain ⟨tile, htile₁, hne₁, hu₁, rfl⟩ := husers tile htile hu
  refine (hold.held view hview hkind tile htile₁ hu₁).rename hkind (fun h hh hu => ?_)
    fun alloc ha hk hon => ?_
  · obtain ⟨h₁, hh₁, -, hu₁, rfl⟩ := husers h hh hu
    exact ⟨h₁, hh₁, hu₁, rfl⟩
  · obtain ⟨_, hv, hres⟩ := hon
    rw [Node.rename, List.head?_map, Option.mem_def, Option.map_eq_some_iff] at hv
    obtain ⟨u, hu, rfl⟩ := hv
    have hhas := hi.has view hview u (List.mem_of_mem_head? hu)
    rcases hi.cases ha with hn | ⟨a, ha₁, hne₂, rfl⟩
    · exact (hi.moves alloc hn (.inl hk) (σ u) (by simp [Node.defined, hres]) u hhas rfl).elim
    · have hdef : σ u ∈ a.defined := by
        simp [Node.defined, show a.result.map (·.1) = some (σ u) from hres]
      have hbuffer' := hi.before.sort?_buffer hi.sorted ha₁ (.inl hk)
      have hsame := hi.eq_of_renamed ha₁ hne₂ hdef (hbuffer' _ hdef) hhas rfl
      refine ⟨a, ha₁, ⟨u, hu, hres.trans (congrArg some hsame.symm)⟩, rfl,
        fun hab => hi.beside_rename hne₂ hne₁ ha hab, fun h hh hu => ?_⟩
      rcases hi.cases hh with hn | ⟨h₁, hh₁, -, rfl⟩
      · obtain ⟨v, hv, hdef⟩ := hu
        obtain ⟨⟨h₁, hh₁, hview', hfree, hv₁⟩, -⟩ := hi.uses h hn v hv (hi.before.has_defined ha₁ v hdef)
        exact ⟨h₁, hh₁, ⟨v, hv₁, hdef⟩, .inr ⟨hview', hfree⟩⟩
      · exact ⟨h₁, hh₁, hi.uses_of_rename ha₁ hne₂ hbuffer' hh₁ hu, .inl rfl⟩

theorem tended : g.TendsBuffers where
  allocated _ hd' hkind := hi.allocated hold hnew hd' hkind
  ended := hi.ended hold hnew
  freed _ ha halloc _ hh hu := hi.freed hold hnew ha halloc hh hu
  held _ hview hkind _ htile hu := by
    rcases hi.cases hview with hn | ⟨view, hview₁, hne, rfl⟩
    · exact hi.held_new hnew hn hkind htile hu
    · exact hi.held_rename hold hview₁ hne hkind htile hu

end Tended

end Inherits

theorem Sheds.tended (hs : f.Sheds g k b .nil z hd) (h : f.TendsBuffers) : g.TendsBuffers := by
  have hcode := hs.before.code_eq
  have hcode' := hs.after.code_eq
  have hsub : g.code.heads.Sublist f.code.heads := by
    rw [hcode, hcode', Spine.heads_plug_eq, Spine.heads_plug_eq]
    simp [Code.heads]
  have hstays : ∀ h ∈ f.code.heads, h ≠ hd → h ∈ g.code.heads := fun h hh hne => by
    rw [hcode, Spine.mem_heads_node] at hh
    rw [hcode']
    exact (hh.resolve_left hne).resolve_left (by simp [Code.heads])
  have hunused : ∀ h ∈ g.code.heads, ¬ h.Uses hd := by
    rintro h hh ⟨v, hv, hdef⟩
    exact hs.unused v hdef h (hcode ▸ hsub.mem hh) hv
  have hbeside : ∀ a d, a ≠ hd → d ≠ hd → f.code.Beside a d → g.code.Beside a d := by
    intro a d ha hd' hab
    rw [hcode, Spine.beside_at] at hab
    rw [hcode']
    rcases hab with hab | hab | ⟨-, rfl⟩ | ⟨rfl, -⟩
    · cases hab
    · exact hab
    · exact (hd' rfl).elim
    · exact (ha rfl).elim
  have hused : ∀ {h a : Node}, h ∈ g.code.heads → h.Uses a → a ≠ hd := fun hh hu he =>
    hunused _ hh (he ▸ hu)
  refine ⟨fun d hd' hkind => ?_, ?_, fun a ha halloc user huser hu => ?_,
    fun view hview hkind tile htile hu => ?_⟩
  · obtain ⟨a, ha, halloc, v, t, hres, hops⟩ := h.allocated d (hsub.mem hd') hkind
    have hu : d.Uses a := ⟨v, by simp [hops], by simp [Node.defined, hres]⟩
    exact ⟨a, hstays a ha (hused hd' hu), halloc, v, t, hres, hops⟩
  · exact (h.ended.sublist hsub).imp fun hpair hkind v hv ht => hpair hkind v hv (ht.mono hsub.subset)
  · obtain ⟨d, hd', hkind, hud, hab⟩ := h.freed a (hsub.mem ha) halloc user (hsub.mem huser) hu
    have hne : d ≠ hd := by
      rintro rfl
      have hpure := hs.pure
      rw [hkind] at hpure
      cases hpure
    exact ⟨d, hstays d hd' hne, hkind, hud, hbeside a d (hused huser hu) hne hab⟩
  · obtain ⟨hwindow, halone, hsingle, hfreed, hbehind⟩ :=
      h.held view (hsub.mem hview) hkind tile (hsub.mem htile) hu
    have hne : tile ≠ hd := by
      rintro rfl
      exact hs.before.not_mem_around (hcode' ▸ htile)
    exact ⟨hwindow, halone, fun h hh => hsingle h (hsub.mem hh),
      fun alloc ha hk hon h hh => hfreed alloc (hsub.mem ha) hk hon h (hsub.mem hh),
      fun alloc ha hk hon => hbeside alloc tile (hused hview hon.uses) hne
        (hbehind alloc (hsub.mem ha) hk hon)⟩

end Function

end KernelLowering
