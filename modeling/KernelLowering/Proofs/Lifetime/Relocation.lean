import KernelLowering.Proofs.Folding.Trimming
import KernelLowering.Proofs.Lifetime.Reallocation

namespace KernelLowering

namespace Standing

def moved (bytes new : ValueId) (place : List Int → List Int) (shape : Shape)
    (hinj : ∀ i ∈ box shape, ∀ j ∈ box shape, place i = place j → i = j) : Standing where
  pairing c c' := (c = c' ∧ c.1 ≠ bytes ∧ c.1 ≠ new) ∨
    ∃ i ∈ box shape, c = (bytes, place i) ∧ c' = (new, i)
  stands r r' := (r' = r ∧ r.root ≠ bytes ∧ r.root ≠ new) ∨
    ∃ g : List Int → List Int, (∀ i ∈ box r.shape, g i ∈ box shape) ∧
      r = ⟨bytes, fun i => place (g i), r.shape⟩ ∧ r' = ⟨new, g, r.shape⟩
  oneToOne := by
    rintro c c' d d' (⟨rfl, hc, hc'⟩ | ⟨i, hi, rfl, rfl⟩) (⟨rfl, hd, hd'⟩ | ⟨j, hj, rfl, rfl⟩)
    · rfl
    · exact ⟨fun e => (hc (congrArg Prod.fst e)).elim, fun e => (hc' (congrArg Prod.fst e)).elim⟩
    · exact ⟨fun e => (hd (congrArg Prod.fst e).symm).elim, fun e => (hd' (congrArg Prod.fst e).symm).elim⟩
    · simp only [Prod.mk.injEq, true_and]
      exact ⟨hinj i hi j hj, congrArg place⟩
  shape := by
    rintro r _ (⟨rfl, -⟩ | ⟨g, -, -, rfl⟩)
    · rfl
    · rfl
  cells := by
    rintro r _ (⟨rfl, h⟩ | ⟨g, hg, hr, rfl⟩) i hi
    · exact .inl ⟨rfl, h⟩
    · exact .inr ⟨g i, hg i hi, by rw [hr]; rfl, rfl⟩
  slice := by
    rintro r _ (⟨rfl, h⟩ | ⟨g, hg, hr, rfl⟩) shape' g' hg'
    · exact .inl ⟨rfl, h⟩
    · exact .inr ⟨fun i => g (g' i), fun i hi => hg _ (hg' i hi), by rw [hr], rfl⟩
  roots := by
    rintro r _ s _ (⟨rfl, hr, hr'⟩ | ⟨g, -, hr, rfl⟩) (⟨rfl, hs, hs'⟩ | ⟨g', -, hs, rfl⟩) e
    · exact e
    · exact (hr' e).elim
    · exact (hs' e.symm).elim
    · rw [hr, hs]

structure Fixes (s : Standing) (v : ValueId) : Prop where
  stands : ∀ {r r' : Ref}, r.root = v → (s.stands r r' ↔ r' = r)
  pairing : ∀ {c c' : Ref.Cell}, s.pairing c c' → (c.1 = v ↔ c'.1 = v)

theorem fixes_keep {hidden : ValueId → Prop} {v : ValueId} (hv : ¬ hidden v) : (keep hidden).Fixes v where
  stands := by
    rintro r r' rfl
    exact and_iff_left hv
  pairing := by
    rintro c _ ⟨rfl, -⟩
    rfl

theorem fixes_moved {bytes new v : ValueId} {place : List Int → List Int} {shape : Shape}
    {hinj : ∀ i ∈ box shape, ∀ j ∈ box shape, place i = place j → i = j} (hbytes : v ≠ bytes)
    (hnew : v ≠ new) : (moved bytes new place shape hinj).Fixes v where
  stands := by
    rintro r r' rfl
    constructor
    · rintro (⟨rfl, -⟩ | ⟨g, -, hr, -⟩)
      · rfl
      · exact (hbytes (congrArg Ref.root hr)).elim
    · exact fun e => .inl ⟨e, hbytes, hnew⟩
  pairing := by
    rintro _ _ (⟨rfl, -⟩ | ⟨i, -, rfl, rfl⟩)
    · rfl
    · exact ⟨fun e => (hbytes e.symm).elim, fun e => (hnew e.symm).elim⟩

end Standing

theorem Follows.delayed {bytes new : ValueId} {place : List Int → List Int} {shape : Shape}
    {as as' : List Action} (hinj : ∀ i ∈ box shape, ∀ j ∈ box shape, place i = place j → i = j)
    (h : Follows (.keep fun v => v = bytes ∨ v = new) as' as)
    (hframe : ∀ m m₁, Runs as m m₁ → ∀ i, m₁ (bytes, i) = m (bytes, i)) :
    Follows (Standing.moved bytes new place shape hinj).pairing ([.alloc bytes] ++ (as' ++ [.alloc new]))
      ([.alloc bytes] ++ as) := by
  classical
  rintro m m' m₁' hm ⟨a', hbytes, hrest⟩
  have hrest : Runs (as' ++ [.alloc new]) a' m₁' := hrest
  obtain ⟨b', hrun, _, hnew, rfl⟩ := runs_append.1 hrest
  -- the old buffer starts with what the new one has in the end
  let a : Memory := fun c => if c.1 = bytes then
    if hi : ∃ i ∈ box shape, place i = c.2 then m₁' (new, hi.choose) else 0 else m c
  have hstart : Mirrors (.keep fun v => v = bytes ∨ v = new) a a' := by
    rintro c _ ⟨rfl, hc⟩
    rw [not_or] at hc
    rw [hbytes c hc.1, hm c c (.inl ⟨rfl, hc⟩)]
    exact (if_neg hc.1).symm
  obtain ⟨b, hrun₁, hb⟩ := h a a' b' hstart hrun
  refine ⟨b, ⟨a, fun c hc => if_neg hc, hrun₁⟩, ?_⟩
  rintro c c' (⟨rfl, hc⟩ | ⟨i, hi, rfl, rfl⟩)
  · rw [hnew c hc.2]
    exact hb c c ⟨rfl, not_or.2 hc⟩
  · have hex : ∃ j ∈ box shape, place j = place i := ⟨i, hi, rfl⟩
    have hsame : hex.choose = i := hinj _ hex.choose_spec.1 i hi hex.choose_spec.2
    rw [hframe a b hrun₁]
    simp only [a, if_pos, dif_pos hex, hsame]

namespace Reallocation

namespace Reallocated

variable {f g : Function} {k : Spine} {b z m : Code} {hd view alloc made h : Node}
  {tile bytes new v : ValueId} {σ : ValueId → ValueId} {env env' : Env} {s : Standing}
  (hm : Reallocated f g k b z hd view alloc tile bytes new made)
  (hs : f.Sound (k.plug (b ++ .node hd .nil z)))

def Kept (view : Node) (bytes v : ValueId) : Prop := v ≠ bytes ∧ v ∉ view.defined

include hm

theorem kept (hh : h ∈ (k.plug (b ++ .node hd .nil z)).heads) (hne : h ≠ hd) (hview : h ≠ view)
    (hfree : h.kind ≠ .dealloc) : ∀ v ∈ h.operands, Kept view bytes v := by
  refine fun v hv => ⟨?_, fun hdef => hne (hm.held.single h hh ⟨v, hv, hdef⟩)⟩
  rintro rfl
  rcases hm.held.freed alloc hm.covers.alloc_mem hm.covers.alloc_kind hm.covers.view_on h hh
    ⟨v, hv, hm.bytes_mem_defined⟩ with he | hk
  · exact hview he
  · exact hfree hk

theorem ne_new (hv : f.Has v) : v ≠ new := by
  rintro rfl
  exact hm.not_has hv

include hs

theorem root_of_view (hh : h ∈ (k.plug (b ++ .node hd .nil z)).heads) (hkind : h.kind = .view)
    (henv : env.Informed f (k.plug (b ++ .node hd .nil z))) {r : Ref} (hv : v ∈ h.operands)
    (hr : env.ref? v = some r) : ∃ shape, r = .whole v shape := by
  obtain ⟨a, ha, halloc, u, hu, hon⟩ := hm.shown h hh hkind
  obtain ⟨x, -, -, hops, -⟩ := (hs.typed h hh).of_view hkind
  obtain ⟨w, type, -, hres⟩ := (hs.typed a ha).of_alloc halloc
  obtain rfl : u = x := by simpa [hops, eq_comm] using hu
  obtain rfl : v = u := by simpa [hops] using hv
  obtain rfl : w = v := by simpa [hres] using hon
  have hitem := henv.computed a ha w _ _ hres (Env.ref?_eq_some.1 hr)
  simp only [Node.item, halloc, hres, Option.some.injEq, Item.buffer.injEq] at hitem
  exact ⟨_, hitem.symm⟩

theorem takes (hfix : ∀ v, v ≠ bytes → v ≠ new → s.Fixes v)
    (hh : h ∈ (k.plug (b ++ .node hd .nil z)).heads) (hne : h ≠ hd) (hne' : h ≠ alloc)
    (hσ : ∀ v ∈ h.defined, σ v = v) : (Passage.standing s σ (Kept view bytes)
      (Env.Informed f (k.plug (b ++ .node hd .nil z)))).Takes h (h.rename σ) := by
  by_cases hview : h = view
  · subst hview
    refine Passage.takes_unasked (.inl hm.covers.view_kind) fun v t hres hkept => hkept.2 ?_
    simp [Node.defined, hres]
  by_cases hfree : h.kind = .dealloc
  · refine Passage.takes_unasked (.inr hfree) fun v t hres _ => ?_
    have hlinalg := (hs.typed h hh).isLinalg_of_result hres
    cases hs.typed h hh <;> simp_all [Node.value, Node.effect, Node.loop]
  have hkept := hm.kept hh hne hview hfree
  refine Passage.Leaves.takes ⟨hkept, hσ, fun v hv => ?_, fun hk env henv x hx r r' hr hstands shape g => ?_⟩
  · have hdef : v ∈ h.defined := by
      unfold Node.allocated at hv
      split at hv
      · exact hv
      · cases hv
    have hv := hfix v (fun e => hne' (hm.before.eq_of_defined hh hm.covers.alloc_mem hdef
      (e ▸ hm.bytes_mem_defined))) (hm.ne_new (hm.before.has_defined hh v hdef))
    exact ⟨fun shape => (hv.stands rfl).2 rfl, fun c c' hc => hv.pairing hc⟩
  · obtain ⟨shape', rfl⟩ := hm.root_of_view hs hh hk henv hx hr
    have hx' := hfix x (hkept x hx).1 (hm.ne_new (hm.has h hh x hx))
    rw [hx'.stands rfl] at hstands
    subst hstands
    exact (hx'.stands rfl).2 rfl

theorem exists_shown : ∃ shown type, view.result = some (shown, .buffer type) ∧
    view.operands = [bytes] ∧ hd.operands = [shown] := by
  obtain ⟨x, shown, type, hops, hres, -⟩ := (hs.typed view hm.covers.view_mem).of_view hm.covers.view_kind
  obtain ⟨t, hbytes⟩ := hm.allocates
  obtain ⟨u, hu, hon⟩ := hm.covers.view_on
  obtain ⟨u', hu', hon'⟩ := hm.covers.tile_on
  obtain ⟨v, hv⟩ := List.length_eq_one_iff.1 hm.held.alone
  obtain rfl : x = u := by simpa [hops] using hu
  obtain rfl : bytes = x := by simpa [hbytes] using hon
  obtain rfl : v = u' := by simpa [hv] using hu'
  obtain rfl : shown = v := by simpa [hres] using hon'
  exact ⟨shown, type, hres, hops, hv⟩

theorem exists_place {w : Window} (hkind : hd.kind = .subView w) : ∃ place : List Int → List Int,
    (∀ i ∈ box w.sizes, ∀ j ∈ box w.sizes, place i = place j → i = j) ∧
      ∀ env, env.Informed f (k.plug (b ++ .node hd .nil z)) → hd.Fit env →
        hd.item env = some (.buffer ⟨bytes, place, w.sizes⟩) := by
  obtain ⟨shown, type, hres, hops, hops'⟩ := hm.exists_shown hs
  have hshown : ∀ {env : Env} {r : Ref}, env.Informed f (k.plug (b ++ .node hd .nil z)) →
      env.ref? shown = some r →
        r = ⟨bytes, fun i => [type.element.size * linearIndex type.shape i], type.shape⟩ := by
    intro env r henv hr
    have hitem := henv.computed view hm.covers.view_mem shown _ _ hres (Env.ref?_eq_some.1 hr)
    simp only [Node.item, hm.covers.view_kind, hops, hres, Option.bind_eq_bind, Option.bind_eq_some_iff,
      Option.pure_def, Option.some.injEq, Item.buffer.injEq] at hitem
    obtain ⟨r₀, hr₀, rfl⟩ := hitem
    obtain ⟨shape, rfl⟩ := hm.root_of_view hs hm.covers.view_mem hm.covers.view_kind henv
      (by simp [hops]) hr₀
    rfl
  -- Where it never runs, any places will do.
  by_cases hex : ∃ env, env.Informed f (k.plug (b ++ .node hd .nil z)) ∧ hd.Fit env
  · obtain ⟨env, henv, hfit⟩ := hex
    obtain ⟨x, supplied, r, starts, hsame, hr, hs', hembeds⟩ := hfit.shows w hkind
    obtain ⟨rfl, rfl⟩ : shown = x ∧ [] = supplied := by simpa [hops'] using hsame
    obtain rfl := hshown henv hr
    refine ⟨fun i => [type.element.size * linearIndex type.shape (w.shift starts i)],
      fun i hi j hj hij => ?_, fun env' henv' hfit' => ?_⟩
    · have hsize : (type.element.size : Int) ≠ 0 := by
        cases type.element <;> decide
      rw [List.cons.injEq] at hij
      exact hembeds.distinct i hi j hj (linearIndex_inj (hembeds.inside i hi) (hembeds.inside j hj)
        (Int.eq_of_mul_eq_mul_left hsize hij.1))
    · obtain ⟨x', supplied', r', starts', hsame', hr', hs'', -⟩ := hfit'.shows w hkind
      obtain ⟨rfl, rfl⟩ : shown = x' ∧ [] = supplied' := by simpa [hops'] using hsame'
      obtain rfl := hshown henv' hr'
      -- without operands of its own the window starts at the same place everywhere
      have hstarts : w.starts env' ([].map id) = some starts :=
        Window.starts_rename (fun v hv => (List.not_mem_nil hv).elim) hs'
      obtain rfl : starts = starts' := Option.some.inj (hstarts.symm.trans hs'')
      simp only [Node.item, hkind, hops', hr', hs'', Option.bind_eq_bind, Option.bind_some, Option.pure_def]
  · exact ⟨id, fun i _ j _ hij => hij, fun env henv hfit => (hex ⟨env, henv, hfit⟩).elim⟩

end Reallocated

section Hole

variable {f g : Function} {k : Spine} {b z m : Code} {hd view alloc h : Node} {tile bytes new : ValueId}
  {type : BufferType} {space : MemorySpace} {op : OpId} {w : Window} {place : List Int → List Int}
  {σ : ValueId → ValueId} {env env' : Env}

theorem plug_between (k : Spine) (b m z : Code) (alloc hd : Node) :
    k.plug (b ++ .node alloc .nil m ++ .node hd .nil z) =
      k.plug (b ++ .node alloc .nil (m ++ .node hd .nil z)) := by
  rw [Code.append_assoc]
  rfl

variable (hm : Reallocated f g k (b ++ .node alloc .nil m) z hd view alloc tile bytes new
  (made op new type space))
  (hs : f.Sound (k.plug (b ++ .node alloc .nil m ++ .node hd .nil z)))
  (hres : hd.result = some (tile, .buffer type))

namespace Reallocated

include hm

theorem around (hh : h ∈ (k.plug (b ++ (m ++ z))).heads) :
    h ∈ (k.plug (b ++ .node alloc .nil m ++ .node hd .nil z)).heads ∧ h ≠ hd ∧ h ≠ alloc := by
  have hr := hm.before
  have hin : h ∈ (k.plug (b ++ .node alloc .nil m ++ z)).heads := by
    simp only [Spine.mem_heads_plug, Code.heads_append, Code.heads, List.mem_append, List.mem_cons] at hh ⊢
    tauto
  refine ⟨Spine.mem_heads_around hin hd .nil, fun e => hr.not_mem_around (e ▸ hin), ?_⟩
  rintro rfl
  rw [plug_between] at hr
  refine hr.not_mem_around ?_
  simp only [Spine.mem_heads_plug, Code.heads_append, Code.heads, List.mem_append, List.mem_cons] at hh ⊢
  tauto

theorem new_not_between : new ∉ (Code.node alloc .nil m).defined := fun hnew => hm.not_has <|
  hm.before.has_of_mem <| by
    rw [(k.defined_plug _).mem_iff, Code.defined_append, Code.defined_append]
    exact List.mem_append_left _ (List.mem_append_left _ (List.mem_append_right _ hnew))

theorem nodup_between : (Code.node alloc .nil m ++ .node hd .nil .nil).defined.Nodup := by
  have hnd := Spine.nodup_defined_plug (plug_between k b m z alloc hd ▸ hm.before.nodup_defined)
  have hsame : b ++ Code.node alloc .nil (m ++ .node hd .nil z) =
      b ++ ((Code.node alloc .nil m ++ .node hd .nil .nil) ++ z) := by
    simp [Code.append_assoc]
  rw [hsame, Code.defined_append, Code.defined_append] at hnd
  exact (List.nodup_append'.1 (List.nodup_append'.1 hnd).2.1).1

theorem links_tile (hinj : ∀ i ∈ box w.sizes, ∀ j ∈ box w.sizes, place i = place j → i = j)
    (hitem : hd.item env = some (.buffer ⟨bytes, place, w.sizes⟩)) (hshape : type.shape = w.sizes)
    {holds : Env → Prop} (hl : (Passage.plain (merged tile bytes new) (Kept view bytes)
      (fun v => v = bytes ∨ v = new) holds).Links env env') (hun : env' new = none) :
    (Passage.standing (.moved bytes new place w.sizes hinj) (merged tile bytes new) (Kept view bytes)
      holds).Links (hd.bind env) ((made op new type space).bind env') := by
  intro v item hv hkept
  rcases Env.bind_cases hv with hv | ⟨t, hres, hi⟩
  · obtain ⟨item', he, hitems⟩ := hl v item hv hkept
    have hne : merged tile bytes new v ≠ new := fun e => by
      cases hun.symm.trans ((congrArg env' e).symm.trans he)
    refine ⟨item', (env'.set_of_ne _ hne).trans he, ?_⟩
    cases hitems with
    | index i => exact .index i
    | buffer hstands => exact .buffer (.inl ⟨hstands.1, not_or.1 hstands.2⟩)
  · obtain ⟨t', htile⟩ := hm.makes
    rw [htile] at hres
    cases hres
    rw [hitem] at hi
    cases hi
    refine ⟨.buffer (.whole new w.sizes), ?_, .buffer (.inr ⟨id, fun i hi => hi, rfl, rfl⟩)⟩
    show ((made op new type space).bind env') (merged tile bytes new tile) = _
    rw [merged_tile, made, Node.bind_value, Env.set_self, ← hshape]
    rfl

include hs

theorem passes_between (σ : ValueId → ValueId) (hσ : ∀ v ∈ m.defined, σ v = v) :
    (Passage.plain σ (Kept view bytes) (fun v => v = bytes ∨ v = new)
      (Env.Informed f (k.plug (b ++ .node alloc .nil m ++ .node hd .nil z)))).Passes m (m.rename σ) := by
  have hnd := hm.nodup_between
  rw [Code.defined_append, Code.defined_node] at hnd
  refine Passage.passes_rename (fun h hh => ?_)
    (List.nodup_append'.1 (List.nodup_append'.1 (List.nodup_append'.1 hnd).1).2.1).2.1
  obtain ⟨hin, hne, hne'⟩ := hm.around (h := h) (by
    simp [Spine.mem_heads_plug, Code.heads_append, hh])
  exact hm.takes hs (fun v hbytes hnew => Standing.fixes_keep (not_or.2 ⟨hbytes, hnew⟩)) hin hne hne'
    fun v hv => hσ v (List.mem_flatMap.2 ⟨h, hh, hv⟩)

theorem exists_alloc : ∃ op type, alloc = .value op .alloc [] bytes (.buffer type) := by
  obtain ⟨t, hres⟩ := hm.allocates
  have hkind := hm.covers.alloc_kind
  cases hs.typed alloc hm.covers.alloc_mem with
  | alloc op v type =>
    cases hres
    exact ⟨op, type, rfl⟩
  | _ => simp_all [Node.value, Node.effect, Node.loop]

theorem links_alloc {hinj : ∀ i ∈ box w.sizes, ∀ j ∈ box w.sizes, place i = place j → i = j}
    (henv : env.Informed f (k.plug (b ++ .node alloc .nil m ++ .node hd .nil z)))
    (hun : env bytes = none) (hun' : env' bytes = none)
    (hlinks : (Passage.standing (.moved bytes new place w.sizes hinj) σ (Kept view bytes)
      (Env.Informed f (k.plug (b ++ .node alloc .nil m ++ .node hd .nil z)))).Links env env') :
    (∀ v r, Kept view bytes v → alloc.bind env v = some (.buffer r) → ¬ (r.root = bytes ∨ r.root = new)) ∧
      (Passage.plain σ (Kept view bytes) (fun v => v = bytes ∨ v = new)
        (Env.Informed f (k.plug (b ++ .node alloc .nil m ++ .node hd .nil z)))).Links
          (alloc.bind env) (alloc.bind env') := by
  obtain ⟨op', bt, halloc⟩ := hm.exists_alloc hs
  have hbind : ∀ (env : Env) {v : ValueId}, v ≠ bytes → alloc.bind env v = env v := fun env v hne =>
    alloc.bind_of_not_mem env (by simpa [halloc, Node.value, Node.defined] using hne)
  have hshown : ∀ v r, env v = some (.buffer r) → ¬ (r.root = bytes ∨ r.root = new) := by
    rintro v r hv (e | e)
    · exact henv.rooted v r hv (e ▸ hun)
    · obtain ⟨-, -, -, hhas⟩ := henv.typed.ref (Env.ref?_eq_some.2 hv)
      exact hm.ne_new hhas e
  refine ⟨fun v r hkept hv => hshown v r (hbind env hkept.1 ▸ hv), fun v item hv hkept => ?_⟩
  rw [hbind env hkept.1] at hv
  obtain ⟨item', he, hitems⟩ := hlinks v item hv hkept
  have hne : σ v ≠ bytes := fun e => by cases hun'.symm.trans ((congrArg env' e).symm.trans he)
  refine ⟨item', (hbind env' hne).trans he, ?_⟩
  cases hitems with
  | index i => exact .index i
  | @buffer r r' hstands =>
    have hfixed := not_or.1 (hshown v r hv)
    exact .buffer ⟨((Standing.fixes_moved hfixed.1 hfixed.2).stands rfl).1 hstands, hshown v r hv⟩

theorem frame_between (hun : m.Unbound env)
    (hshown : ∀ v r, Kept view bytes v → env v = some (.buffer r) → ¬ (r.root = bytes ∨ r.root = new))
    (hbefore : m.Throughout (fun h env => h.Fit env ∧
      env.Informed f (k.plug (b ++ .node alloc .nil m ++ .node hd .nil z))) env) {m₀ m₁ : Memory}
    (hruns : Runs (m.trace env) m₀ m₁) (i : List Int) : m₁ (bytes, i) = m₀ (bytes, i) := by
  have hpasses := hm.passes_between hs id fun _ _ => rfl
  rw [Code.rename_id] at hpasses
  have hsteps := hpasses.steps env env hun hun (fun v item hv hkept => ⟨item, hv,
    Standing.items_keep.2 ⟨rfl, fun r hr => hshown v r hkept (hr ▸ hv)⟩⟩) hbefore
  have halloc : .alloc bytes ∉ m.trace env := fun ha => by
    have hdef := Code.mem_defined_of_allocated (Code.mem_allocated_of_trace ha)
    have hnd := hm.nodup_between
    rw [Code.defined_append, Code.defined_node] at hnd
    exact (List.nodup_append'.1 (List.nodup_append'.1 hnd).1).2.2 hm.bytes_mem_defined
      (List.mem_append_right _ hdef)
  refine Runs.of_not_changes (Code.Throughout.fit_trace (hbefore.mono fun _ _ h => h.1)) hruns halloc
    fun hc => ?_
  rcases hsteps.mimics.covers.changes _ hc with ha | ⟨_, ⟨rfl, hhidden⟩, -⟩
  · exact halloc ha
  · exact hhidden (.inl rfl)

theorem passes (hkind : hd.kind = .subView w) (hshape : type.shape = w.sizes)
    (hinj : ∀ i ∈ box w.sizes, ∀ j ∈ box w.sizes, place i = place j → i = j)
    (hplace : ∀ env, env.Informed f (k.plug (b ++ .node alloc .nil m ++ .node hd .nil z)) → hd.Fit env →
      hd.item env = some (.buffer ⟨bytes, place, w.sizes⟩)) :
    (Passage.standing (.moved bytes new place w.sizes hinj) (merged tile bytes new) (Kept view bytes)
      (Env.Informed f (k.plug (b ++ .node alloc .nil m ++ .node hd .nil z)))).Passes
        (.node alloc .nil m ++ .node hd .nil .nil)
        ((Code.node alloc .nil m).rename (merged tile bytes new) ++
          .node (made op new type space) .nil .nil) := by
  have hσ : ∀ v ∈ m.defined, merged tile bytes new v = v := fun v hv => by
    obtain ⟨h, hh, hdef⟩ := List.mem_flatMap.1 hv
    obtain ⟨hin, hne, hne'⟩ := hm.around (h := h) (by simp [Spine.mem_heads_plug, Code.heads_append, hh])
    exact hm.fixed hin hne hne' hdef
  have hpasses := hm.passes_between hs (merged tile bytes new) hσ
  obtain ⟨op', bt, halloc⟩ := hm.exists_alloc hs
  have htrace : ∀ (x y : Code) (env : Env),
      (Code.node alloc x y).trace env = [.alloc bytes] ++ y.trace (alloc.bind env) := fun x y env => by
    rw [halloc]
    rfl
  have hrename : alloc.rename (merged tile bytes new) = alloc := by rw [halloc]; rfl
  have hiter : alloc.kind.iterations = [] := by rw [halloc]; rfl
  have hdef : bytes ∈ alloc.defined := hm.bytes_mem_defined
  have hnd := hm.nodup_between
  rw [Code.defined_append] at hnd
  have hnd := (List.nodup_append'.1 hnd).1
  have htile : ∀ env, (Code.node hd .nil .nil).trace env = [] := fun env => by
    simp [Code.trace, Node.actions, hkind, OpKind.iterations, OpKind.isLoop]
  rw [Code.rename, hrename]
  constructor
  · rintro c c' (⟨rfl, -⟩ | ⟨i, -, rfl, rfl⟩) hc
    · have hnone : (Code.node hd .nil .nil).allocated = [] := by
        simp [Code.allocated, Code.heads, Node.allocated, hkind]
      rw [Code.allocated_append, hnone, List.append_nil, Code.allocated_node] at hc
      rw [Code.allocated_append, Code.allocated_node]
      simp only [Code.allocated_rename]
      exact List.mem_append_left _ hc
    · rw [Code.allocated_append]
      exact List.mem_append_right _ (by simp [Code.allocated, Code.heads, made, Node.value, Node.allocated,
        Node.defined])
  intro env env' hun hun' hlinks hbefore
  obtain ⟨⟨⟨-, henv⟩, -, hbetween⟩, ⟨hfit, hinformed⟩, -⟩ := Code.throughout_append.1 hbefore
  obtain ⟨hunx, -⟩ := Code.unbound_append.1 hun
  obtain ⟨huny, hunnew⟩ := Code.unbound_append.1 hun'
  have hunm : m.Unbound (alloc.bind env) := Code.unbound_after (x := .node alloc .nil .nil)
    (fun v hv => hunx v (by simp [Code.defined_node, hv])) hnd
  have hunm' : (m.rename (merged tile bytes new)).Unbound (alloc.bind env') :=
    Code.unbound_after (x := .node alloc .nil .nil)
      (fun v hv => huny v (by simp only [Code.defined_node, List.mem_append]; tauto))
      (by simpa only [Code.node_append, Code.nil_append, Code.defined_node, Code.defined_rename] using hnd)
  obtain ⟨hshown, hl⟩ := hm.links_alloc hs henv (hunx bytes (by simp [Code.defined_node, hdef]))
    (huny bytes (by simp [Code.defined_node, hdef])) hlinks
  have hsteps := hpasses.steps _ _ hunm hunm' hl hbetween
  refine ⟨Code.throughout_append.2 ⟨⟨?_, fun i hi => ?_, hsteps.after⟩, Node.fit_of_plain rfl rfl _,
    fun i hi => ?_, trivial⟩, ?_, fun hfree => Code.raceFree_append.2
      ⟨⟨fun hp => ?_, fun i hi => ?_, hsteps.raceFree (Code.raceFree_append.1 hfree).1.2.2⟩,
        Code.raceFree_of_loopless (by simp [Code.heads, made, Node.value, OpKind.isLoop]) _⟩, fun v item hv hkept => ?_⟩
  · rw [halloc]
    exact Node.fit_of_plain rfl rfl _
  · rw [hiter] at hi
    cases hi
  · cases hi
  · rw [Code.trace_append, Code.trace_append, htile, htrace, htrace, List.append_nil, List.append_assoc]
    refine ⟨.delayed hinj hsteps.mimics.follows fun m₀ m₁ hruns i =>
      hm.frame_between hs hunm hshown hbetween hruns i, ?_⟩
    have hcovers := (hsteps.mimics.covers.mono fun c c' hc =>
      show (Standing.moved bytes new place w.sizes hinj).pairing c c' from .inl ⟨hc.1, not_or.1 hc.2⟩).append
        (.allocs [new] : Covers _ ([new].map .alloc) [])
    rw [List.append_nil] at hcovers
    exact (Covers.allocs [bytes]).append hcovers
  · rw [halloc] at hp
    cases hp
  · rw [hiter] at hi
    cases hi
  · rw [Code.after_append] at hv ⊢
    refine hm.links_tile hinj (hplace _ hinformed hfit) hshape hsteps.links ?_ v item hv hkept
    have hnone := hunnew new (by simp [Code.defined_node, made, Node.value, Node.defined])
    refine (Code.after_of_not_mem (x := .node alloc .nil (m.rename _)) env' fun hin => ?_).trans hnone
    rw [Code.defined_node, Code.defined_rename, ← Code.defined_node] at hin
    exact hm.new_not_between hin

end Reallocated

include hm hs hres

theorem Reallocated.improves : f.Improves g (k.plug (b ++ .node alloc .nil m ++ .node hd .nil z))
    ((k.rename (merged tile bytes new)).plug ((b ++ .node alloc .nil m).rename (merged tile bytes new) ++
      (.node (made op new type space) .nil .nil ++ z.rename (merged tile bytes new)))) := by
  obtain ⟨w, hkind⟩ := Option.isSome_iff_exists.1 hm.covers.tile_kind
  have hkind := OpKind.window?_eq_some.1 hkind
  obtain ⟨-, -, v, type', -, -, hres', -, -, -, -, -, hshape⟩ := hs.typed_at.of_subView hkind
  obtain ⟨rfl, rfl⟩ : tile = v ∧ type = type' := by simpa [hres] using hres'
  obtain ⟨place, hinj, hplace⟩ := hm.exists_place hs hkind
  have hpasses := hm.passes hs hkind hshape hinj hplace
  have htakes : ∀ h ∈ (k.plug (b ++ z)).heads, (Passage.standing (.moved bytes new place w.sizes hinj)
      (merged tile bytes new) (Kept view bytes) (Env.Informed f (k.plug (b ++ .node alloc .nil m ++
        .node hd .nil z)))).Takes h (h.rename (merged tile bytes new)) := by
    intro h hh
    obtain ⟨hin, hne, hne'⟩ := hm.around (h := h) (by
      simp only [Spine.mem_heads_plug, Code.heads_append, List.mem_append] at hh ⊢
      tauto)
    exact hm.takes hs (fun v hbytes hnew => Standing.fixes_moved hbytes hnew) hin hne hne'
      fun v hv => hm.fixed hin hne hne' hv
  have hrespects := (Function.Cleaned.reallocated hm.covers.tile_kind hm.replaces).respectsBuffers
    hm.splice.grows |>.respects
  have hbefore : b ++ .node alloc .nil m ++ .node hd .nil z =
      b ++ ((.node alloc .nil m ++ .node hd .nil .nil) ++ z) := by
    simp [Code.append_assoc]
  have hafter : (b ++ .node alloc .nil m).rename (merged tile bytes new) ++
      (.node (made op new type space) .nil .nil ++ z.rename (merged tile bytes new)) =
        b.rename (merged tile bytes new) ++ (((Code.node alloc .nil m).rename (merged tile bytes new) ++
          .node (made op new type space) .nil .nil) ++ z.rename (merged tile bytes new)) := by
    simp [Code.append_assoc, Code.rename_append]
  have hg := hm.splice.represents
  have hold : ∀ h ∈ (Code.node alloc .nil m).heads, h.Typed f := fun h hh => hs.typed h (by
    simp only [Spine.mem_heads_plug, Code.heads_append, List.mem_append]
    tauto)
  have harguments : f.KeepsArguments (.moved bytes new place w.sizes hinj) (merged tile bytes new) := by
    intro v hv
    have hout : ∀ {h : Node}, h ∈ (k.plug (b ++ .node alloc .nil m ++ .node hd .nil z)).heads → v ∉ h.defined :=
      fun hh hdef => hm.before.not_argument (List.mem_flatMap.2 ⟨_, hh, hdef⟩) hv
    have hbytes : v ≠ bytes := fun e => hout hm.covers.alloc_mem (e ▸ hm.bytes_mem_defined)
    have hfix : (Standing.moved bytes new place w.sizes hinj).Fixes v :=
      Standing.fixes_moved hbytes (hm.ne_new (hm.before.has_argument hv))
    exact ⟨merged_of_ne (fun e => hout hm.covers.tile_mem (e ▸ hm.tile_mem_defined)) hbytes,
      fun shape => (hfix.stands rfl).2 rfl, fun i => .inl ⟨rfl, hbytes, hm.ne_new (hm.before.has_argument hv)⟩⟩
  rw [hafter] at hg ⊢
  rw [hbefore] at hs hpasses htakes ⊢
  refine hs.exchange hg hm.splice.grows hrespects (fun h hh => ?_) htakes harguments hpasses
  rw [Code.heads_append, Code.heads_rename, List.mem_append, List.mem_map] at hh
  rcases hh with ⟨h, hh, rfl⟩ | hh
  · exact hrespects.typed (hold h hh)
  · obtain rfl : h = made op new type space := by simpa [Code.heads] using hh
    exact .alloc op new _

end Hole

theorem gives_refinement {f : Function} {k : Spine} {b x z : Code} {hd : Node} {space : MemorySpace}
    (h : f.Careful) (hs : f.Sound (k.plug (b ++ .node hd x z))) :
    ((Rule.reallocation space).apply f hd.op).Gives True fun g =>
      ∃ c, f.Improves g (k.plug (b ++ .node hd x z)) c := by
  obtain ⟨⟨hb, hl, -⟩, hsorted, -, ht⟩ := h
  have hr := hs.represents
  rw [hr.code_eq] at hl
  rw [Function.TendsBuffers, hr.code_eq] at ht
  refine (gives_splice hr (hsorted.made hr)).mono ?_
  rintro g - ⟨view, alloc, tile, bytes, type, type', op, new, hcovers, hres, hbytes, hsplice⟩
  have hnested := hb.nested_of hr
  obtain rfl : x = .nil := Spine.body_eq_nil hnested (by
    obtain ⟨w, hw⟩ := Option.isSome_iff_exists.1 hcovers.tile_kind
    rw [OpKind.window?_eq_some.1 hw]
    rfl)
  have hm : Reallocated f g k b z hd view alloc tile bytes new (made op new type space) :=
    ⟨hr, hb.has_of hr, hl.shown, ht, hcovers, ⟨_, hres⟩, ⟨_, hbytes⟩, hsplice, rfl, rfl, ⟨_, rfl⟩⟩
  -- The allocation stands in the region of the tile, before it.
  have halloc : alloc ∈ b.tops := by
    rcases Spine.beside_at.1 (hm.held.beside alloc hcovers.alloc_mem hcovers.alloc_kind hcovers.view_on) with
      hin | hin | ⟨hin, -⟩ | ⟨rfl, -⟩
    · cases hin
    · exact (hr.not_mem_around hin.mem_heads.2).elim
    · exact hin
    · exact ((OpKind.sorts_of_window hcovers.tile_kind).1 hcovers.alloc_kind).elim
  obtain ⟨b, p, m, rfl⟩ := Code.exists_of_mem_tops halloc
  obtain rfl : p = .nil := by
    have hsame : b ++ .node alloc p m ++ .node hd .nil z = b ++ .node alloc p (m ++ .node hd .nil z) := by
      rw [Code.append_assoc]
      rfl
    rw [hsame] at hnested
    exact Spine.body_eq_nil hnested (by rw [hcovers.alloc_kind]; rfl)
  exact ⟨_, hm.improves hs hres⟩

end Reallocation

end KernelLowering
