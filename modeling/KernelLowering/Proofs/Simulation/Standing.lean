import KernelLowering.Proofs.Simulation.Renaming

namespace KernelLowering

structure Standing where
  pairing : Pairing
  stands : Ref → Ref → Prop
  oneToOne : pairing.OneToOne
  shape : ∀ {r r'}, stands r r' → r'.shape = r.shape
  cells : ∀ {r r'}, stands r r' → ∀ i ∈ box r.shape, pairing (r.cell i) (r'.cell i)
  slice : ∀ {r r'}, stands r r' → ∀ (shape : Shape) (g : List Int → List Int),
    (∀ i ∈ box shape, g i ∈ box r.shape) →
      stands ⟨r.root, fun i => r.place (g i), shape⟩ ⟨r'.root, fun i => r'.place (g i), shape⟩
  roots : ∀ {r r' s s'}, stands r r' → stands s s' → r'.root = s'.root → r.root = s.root

namespace Standing

def keep (hidden : ValueId → Prop) : Standing where
  pairing := .keep hidden
  stands r r' := r' = r ∧ ¬ hidden r.root
  oneToOne := Pairing.oneToOne_keep hidden
  shape := by
    rintro r _ ⟨rfl, -⟩
    rfl
  cells := by
    rintro r _ ⟨rfl, h⟩ i -
    exact ⟨rfl, h⟩
  slice := by
    rintro r _ ⟨rfl, h⟩ shape g -
    exact ⟨rfl, h⟩
  roots := by
    rintro r _ s _ ⟨rfl, -⟩ ⟨rfl, -⟩ e
    exact e

inductive Items (s : Standing) : Item → Item → Prop
  | index (i : Int) : Items s (.index i) (.index i)
  | buffer {r r' : Ref} (h : s.stands r r') : Items s (.buffer r) (.buffer r')

inductive Acts (s : Standing) : Action → Action → Prop
  | alloc {v : ValueId} (h : ∀ c c', s.pairing c c' → c'.1 = v → c.1 = v) :
      Acts s (.alloc v) (.alloc v)
  | copy {r r' t t' : Ref} (hr : s.stands r r') (ht : s.stands t t') :
      Acts s (.copy r t) (.copy r' t')
  | kernel (kind : KernelKind) {refs refs' : List Ref} (h : List.Forall₂ s.stands refs refs') :
      Acts s (.kernel kind refs) (.kernel kind refs')

variable {s : Standing} {refs refs' : List Ref} {a a' : Action}

@[simp] theorem items_keep {hidden : ValueId → Prop} {item item' : Item} :
    (keep hidden).Items item item' ↔ item' = item ∧ ∀ r, item = .buffer r → ¬ hidden r.root := by
  constructor
  · rintro (_ | ⟨rfl, h⟩)
    · simp
    · exact ⟨rfl, by rintro _ ⟨⟩; exact h⟩
  · rintro ⟨rfl, h⟩
    cases item' with
    | index i => exact .index i
    | buffer r => exact .buffer ⟨rfl, h r rfl⟩

theorem distinct {r r' : Ref} (h : s.stands r r') (hd : r.Distinct) : r'.Distinct := by
  intro i hi j hj hij
  rw [s.shape h] at hi hj
  exact hd i hi j hj ((s.oneToOne _ _ _ _ (s.cells h i hi) (s.cells h j hj)).2 hij)

theorem shapes (h : List.Forall₂ s.stands refs refs') : refs'.map (·.shape) = refs.map (·.shape) := by
  induction h with
  | nil => rfl
  | cons hr _ ih => rw [List.map_cons, List.map_cons, s.shape hr, ih]

theorem among (h : List.Forall₂ s.stands refs refs') {c' : Ref.Cell} (hc : Ref.Among refs' c') :
    ∃ c, s.pairing c c' ∧ Ref.Among refs c := by
  obtain ⟨r', hr', i, hi, rfl⟩ := hc
  obtain ⟨n, hn, rfl⟩ := List.mem_iff_getElem.1 hr'
  have hn' : n < refs.length := h.length_eq ▸ hn
  have hstands := (List.forall₂_iff_get.1 h).2 n hn' hn
  rw [List.get_eq_getElem, List.get_eq_getElem] at hstands
  rw [s.shape hstands] at hi
  exact ⟨_, s.cells hstands i hi, _, List.getElem_mem hn', i, hi, rfl⟩

theorem nodup_roots (h : List.Forall₂ s.stands refs refs') (hnd : (refs.map (·.root)).Nodup) :
    (refs'.map (·.root)).Nodup := by
  induction h with
  | nil => exact .nil
  | @cons r r' refs refs' hr hrefs ih =>
    rw [List.map_cons, List.nodup_cons] at hnd ⊢
    refine ⟨fun hmem => hnd.1 ?_, ih hnd.2⟩
    obtain ⟨t', ht', he⟩ := List.mem_map.1 hmem
    obtain ⟨n, hn, rfl⟩ := List.mem_iff_getElem.1 ht'
    have hn' : n < refs.length := hrefs.length_eq ▸ hn
    have ht := (List.forall₂_iff_get.1 hrefs).2 n hn' hn
    exact s.roots hr ht he.symm ▸ List.mem_map_of_mem (List.getElem_mem hn')

theorem updates {kind : KernelKind} {extents : List Int} (h : List.Forall₂ s.stands refs refs')
    (hextents : kind.extentsOf (refs.map (·.shape)) = .ok (some extents)) :
    List.Forall₂ (List.Forall₂ s.pairing) (kind.updates refs) (kind.updates refs') := by
  have hshaped := (KernelKind.extentsOf_eq_ok.1 hextents).1
  rw [KernelKind.updates, KernelKind.updates, shapes h, List.forall₂_map_left_iff,
    List.forall₂_map_right_iff, KernelKind.points, hextents]
  refine List.forall₂_same.2 fun point hp => ?_
  have hindex := hshaped.indexAt_mem hp
  rw [List.forall₂_map_right_iff] at hindex
  rw [KernelKind.updateAt, KernelKind.updateAt]
  generalize kind.operandMaps = maps at hindex
  clear hextents hshaped
  induction hindex generalizing refs' with
  | nil =>
    cases h
    exact .nil
  | cons hi _ ih =>
    cases h with
    | cons hr hrefs => exact .cons (s.cells hr _ hi) (ih hrefs)

namespace Acts

theorem fit (h : s.Acts a a') (hf : a.Fit) : a'.Fit := by
  cases h with
  | alloc => trivial
  | copy hr ht => exact (s.shape hr).trans (Eq.trans hf (s.shape ht).symm)
  | kernel kind h =>
    obtain ⟨⟨extents, hextents⟩, hnd, hdistinct⟩ := hf
    refine ⟨⟨extents, shapes h ▸ hextents⟩, nodup_roots h hnd, fun z' hz' => ?_⟩
    obtain ⟨hn, rfl⟩ := List.getElem?_eq_some_iff.1 hz'
    have hn' := h.length_eq ▸ hn
    exact distinct ((List.forall₂_iff_get.1 h).2 _ hn' hn)
      (hdistinct _ (List.getElem?_eq_getElem hn'))

theorem buffers (h : s.Acts a a') (hf : a.Fit) :
    List.Forall₂ s.stands a.buffers a'.buffers ∧ List.Forall₂ s.stands a.outputs a'.outputs := by
  cases h with
  | alloc => exact ⟨.nil, .nil⟩
  | @copy r r' t t' hr ht =>
    have hshape : r.shape = t.shape := hf
    have ht' : s.stands { t with shape := r.shape } { t' with shape := r'.shape } := by
      have hsame : { t' with shape := r'.shape } = t' := by rw [s.shape hr, hshape, ← s.shape ht]
      rwa [hsame, hshape]
    exact ⟨.cons hr (.cons ht' .nil), .cons ht' .nil⟩
  | @kernel kind refs refs' h =>
    refine ⟨h, ?_⟩
    show List.Forall₂ _ (refs[kind.outputOperand]?).toList (refs'[kind.outputOperand]?).toList
    rcases Nat.lt_or_ge kind.outputOperand refs.length with hn | hn
    · have hn' := h.length_eq ▸ hn
      rw [List.getElem?_eq_getElem hn, List.getElem?_eq_getElem hn']
      exact .cons ((List.forall₂_iff_get.1 h).2 _ hn hn') .nil
    · rw [List.getElem?_eq_none hn, List.getElem?_eq_none (h.length_eq ▸ hn)]
      exact .nil

theorem mimics (h : s.Acts a a') (hf : a.Fit) : Mimics s.pairing [a'] [a] := by
  obtain ⟨hbuffers, houtputs⟩ := h.buffers hf
  refine ⟨?_, fun c' hc => .inr ?_, fun c' hc => .inr ?_⟩
  · cases h with
    | @alloc v h =>
      show Follows _ ([v].map .alloc) ([v].map .alloc)
      refine .allocs s.oneToOne fun hc hm => ?_
      exact List.mem_singleton.2 (h _ _ hc (List.mem_singleton.1 hm))
    | @copy r r' t t' hr ht =>
      have hshape : r.shape = t.shape := hf
      exact .copy s.oneToOne (s.shape hr) fun i hi => ⟨s.cells hr i hi, s.cells ht i (hshape ▸ hi)⟩
    | kernel kind h =>
      obtain ⟨⟨extents, hextents⟩, -⟩ := hf
      exact .kernel s.oneToOne (updates h hextents)
  · obtain ⟨_, ha, hc⟩ := hc
    obtain rfl := List.mem_singleton.1 ha
    obtain ⟨c, hρ, hc⟩ := among hbuffers hc
    exact ⟨c, hρ, a, List.mem_singleton_self a, hc⟩
  · obtain ⟨_, ha, hc⟩ := hc
    obtain rfl := List.mem_singleton.1 ha
    obtain ⟨c, hρ, hc⟩ := among houtputs hc
    exact ⟨c, hρ, a, List.mem_singleton_self a, hc⟩

end Acts

theorem mimics_of_acts {as as' : List Action} (h : List.Forall₂ s.Acts as as')
    (hf : ∀ a ∈ as, a.Fit) : Mimics s.pairing as' as := by
  induction h with
  | nil => exact .nil
  | cons ha _ ih =>
    obtain ⟨hfit, hfits⟩ := List.forall_mem_cons.1 hf
    exact (ha.mimics hfit).append (ih hfits)

end Standing

namespace Passage

def standing (s : Standing) (σ : ValueId → ValueId) (kept : ValueId → Prop) (holds : Env → Prop) :
    Passage where
  rename := σ
  link v item new := kept v → ∃ item', new = some item' ∧ s.Items item item'
  before h env := h.Fit env ∧ holds env
  after h env := h.Fit env
  pairing := s.pairing
  oneToOne := s.oneToOne

variable {s : Standing} {σ : ValueId → ValueId} {kept : ValueId → Prop} {holds : Env → Prop}
  {env env' : Env} {h h' : Node}

section Links

variable (hl : (standing s σ kept holds).Links env env')

include hl

theorem Links.index? {v : ValueId} (hv : kept v) {i : Int} (hi : env.index? v = some i) :
    env'.index? (σ v) = some i := by
  obtain ⟨item, hnew, hitem⟩ := hl v _ (Env.index?_eq_some.1 hi) hv
  cases hitem
  exact Env.index?_eq_some.2 hnew

theorem Links.ref? {v : ValueId} (hv : kept v) {r : Ref} (hr : env.ref? v = some r) :
    ∃ r', env'.ref? (σ v) = some r' ∧ s.stands r r' := by
  obtain ⟨item, hnew, hitem⟩ := hl v _ (Env.ref?_eq_some.1 hr) hv
  cases hitem with
  | buffer hstands => exact ⟨_, Env.ref?_eq_some.2 hnew, hstands⟩

theorem Links.refs {vs : List ValueId} (hvs : ∀ v ∈ vs, kept v) {refs : List Ref}
    (hr : vs.mapM env.ref? = some refs) :
    ∃ refs', (vs.map σ).mapM env'.ref? = some refs' ∧ List.Forall₂ s.stands refs refs' := by
  rw [Env.mapM_ref?_eq_some] at hr
  induction hr with
  | nil => exact ⟨[], rfl, .nil⟩
  | @cons v r vs refs hr _ ih =>
    obtain ⟨hv, hvs⟩ := List.forall_mem_cons.1 hvs
    obtain ⟨r', hr', hstands⟩ := Links.ref? hl hv hr
    obtain ⟨refs', hrefs', hall⟩ := ih hvs
    refine ⟨r' :: refs', ?_, .cons hstands hall⟩
    rw [List.map_cons, List.mapM_cons, hr', hrefs']
    rfl

theorem Links.starts {w : Window} {supplied : List ValueId} (hvs : ∀ v ∈ supplied, kept v)
    {is : List Int} (hs : w.starts env supplied = some is) :
    w.starts env' (supplied.map σ) = some is :=
  Window.starts_rename (fun v hv _ hi => Links.index? hl (hvs v hv) hi) hs

end Links

structure Leaves (s : Standing) (σ : ValueId → ValueId) (kept : ValueId → Prop) (holds : Env → Prop)
    (h : Node) : Prop where
  operands : ∀ v ∈ h.operands, kept v
  defined : ∀ v ∈ h.defined, σ v = v
  allocs : ∀ v ∈ h.allocated, (∀ shape, s.stands (.whole v shape) (.whole v shape)) ∧
    ∀ c c', s.pairing c c' → (c.1 = v ↔ c'.1 = v)
  views : h.kind = .view → ∀ env, holds env → ∀ x ∈ h.operands, ∀ r r', env.ref? x = some r →
    s.stands r r' → ∀ (shape : Shape) (g : List Int → List Int),
      s.stands ⟨r.root, fun i => r.place (g i), shape⟩ ⟨r'.root, fun i => r'.place (g i), shape⟩

namespace Leaves

variable (hleaves : Leaves s σ kept holds h) (hl : (standing s σ kept holds).Links env env')
  (hbefore : h.Fit env ∧ holds env)

include hleaves hl hbefore

theorem item {item : Item} (hi : h.item env = some item) :
    ∃ item', (h.rename σ).item env' = some item' ∧ s.Items item item' := by
  obtain ⟨hops, -, hallocs, hviews⟩ := hleaves
  obtain ⟨⟨-, hshows⟩, hholds⟩ := hbefore
  obtain ⟨op, kind, operands, result, marker, vars⟩ := h
  cases kind with
  | constant value =>
    obtain rfl := Option.some.inj hi
    exact ⟨_, rfl, .index value⟩
  | addIndex =>
    obtain _ | ⟨x, _ | ⟨y, _ | ⟨z, rest⟩⟩⟩ := operands
    · cases hi
    · cases hi
    · simp only [Node.item, Option.bind_eq_bind, Option.bind_eq_some_iff, Option.pure_def,
        Option.some.injEq] at hi
      obtain ⟨a, ha, b, hb, rfl⟩ := hi
      refine ⟨_, ?_, .index (a + b)⟩
      simp [Node.item, Node.rename, Links.index? hl (hops x (by simp)) ha,
        Links.index? hl (hops y (by simp)) hb]
    · cases hi
  | alloc =>
    obtain _ | ⟨v, _ | type⟩ := result
    · cases hi
    · cases hi
    · obtain rfl := Option.some.inj hi
      exact ⟨_, rfl, .buffer ((hallocs v (by simp [Node.allocated, Node.defined])).1 type.shape)⟩
  | view =>
    obtain _ | ⟨x, _ | ⟨y, rest⟩⟩ := operands
    · cases hi
    · obtain _ | ⟨v, _ | type⟩ := result
      · cases hi
      · cases hi
      · simp only [Node.item, Option.bind_eq_bind, Option.bind_eq_some_iff, Option.pure_def,
          Option.some.injEq] at hi
        obtain ⟨r, hr, rfl⟩ := hi
        obtain ⟨r', hr', hstands⟩ := Links.ref? hl (hops x (by simp)) hr
        refine ⟨_, ?_, .buffer (hviews rfl env hholds x (by simp) r r' hr hstands type.shape
          fun i => [type.element.size * linearIndex type.shape i])⟩
        simp [Node.item, Node.rename, hr']
    · cases hi
  | subView w =>
    obtain ⟨x, supplied, r, starts, rfl, hr, hs, hembeds⟩ := hshows w rfl
    obtain ⟨r', hr', hstands⟩ := Links.ref? hl (hops x (by simp)) hr
    have hs' := Links.starts hl (fun v hv => hops v (List.mem_cons_of_mem x hv)) hs
    have hsame : item = .buffer ⟨r.root, fun i => r.place (w.shift starts i), w.sizes⟩ := by
      simpa [Node.item, hr, hs] using hi.symm
    subst hsame
    refine ⟨_, ?_, .buffer (s.slice hstands w.sizes _ hembeds.inside)⟩
    simp [Node.item, Node.rename, hr', hs']
  | _ => cases hi

theorem actions : List.Forall₂ s.Acts (h.actions env) ((h.rename σ).actions env') := by
  obtain ⟨hops, -, hallocs, -⟩ := hleaves
  obtain ⟨⟨hacts, -⟩, -⟩ := hbefore
  obtain ⟨op, kind, operands, result, marker, vars⟩ := h
  cases kind with
  | alloc =>
    obtain _ | ⟨v, type⟩ := result
    · exact .nil
    · refine .cons (.alloc fun c c' hc => ?_) .nil
      exact ((hallocs v (by simp [Node.allocated, Node.defined])).2 c c' hc).2
  | copy =>
    obtain ⟨a, ha, -⟩ := hacts rfl
    obtain _ | ⟨x, _ | ⟨y, _ | ⟨z, rest⟩⟩⟩ := operands
    · cases ha
    · cases ha
    · simp only [Node.actions] at ha
      split at ha
      · rename_i r t hr ht
        obtain ⟨r', hr', hstands⟩ := Links.ref? hl (hops x (by simp)) hr
        obtain ⟨t', ht', hstands'⟩ := Links.ref? hl (hops y (by simp)) ht
        simp only [Node.actions, Node.rename, List.map_cons, List.map_nil, hr, ht, hr', ht']
        exact .cons (.copy hstands hstands') .nil
      · cases ha
    · cases ha
  | kernel kind =>
    obtain ⟨a, ha, -⟩ := hacts rfl
    simp only [Node.actions] at ha
    split at ha
    · rename_i refs hr
      obtain ⟨refs', hr', hall⟩ := Links.refs hl hops hr
      simp only [Node.actions, Node.rename, hr, hr']
      exact .cons (.kernel kind hall) .nil
    · cases ha
  | _ => exact .nil

theorem fit : (h.rename σ).Fit env' := by
  have hactions := hleaves.actions hl hbefore
  obtain ⟨hops, -, -, -⟩ := hleaves
  obtain ⟨⟨hacts, hshows⟩, -⟩ := hbefore
  refine ⟨fun hk => ?_, fun w hk => ?_⟩
  · obtain ⟨a, ha, hf⟩ := hacts hk
    rw [ha] at hactions
    obtain ⟨a', as', ha', has', he⟩ := List.forall₂_cons_left_iff.1 hactions
    cases has'
    exact ⟨a', he, ha'.fit hf⟩
  · obtain ⟨x, supplied, r, starts, hsame, hr, hs, hembeds⟩ := hshows w hk
    rw [hsame] at hops
    obtain ⟨r', hr', hstands⟩ := Links.ref? hl (hops x (by simp)) hr
    refine ⟨σ x, supplied.map σ, r', starts, by simp [Node.rename, hsame], hr',
      Links.starts hl (fun v hv => hops v (List.mem_cons_of_mem x hv)) hs, ?_⟩
    rwa [s.shape hstands]

end Leaves

theorem links_bind (hl : (standing s σ kept holds).Links env env')
    (hun : ∀ v ∈ h'.defined, env' v = none)
    (hnew : ∀ v t item, h.result = some (v, t) → kept v → h.item env = some item →
      ∃ item', h'.bind env' (σ v) = some item' ∧ s.Items item item') :
    (standing s σ kept holds).Links (h.bind env) (h'.bind env') := by
  intro u item hu hkept
  rcases Env.bind_cases hu with hu | ⟨t, hres, hi⟩
  · obtain ⟨item', he, hitem⟩ := hl u item hu hkept
    have hσ : σ u ∉ h'.defined := fun hm => by cases (hun _ hm).symm.trans he
    exact ⟨item', (h'.bind_of_not_mem env' hσ).trans he, hitem⟩
  · exact hnew u t item hres hkept hi

theorem links_setAll {vs : List ValueId} (hl : (standing s σ kept holds).Links env env')
    (hun : ∀ v ∈ vs, env' v = none) (hσ : ∀ v ∈ vs, σ v = v) (is : List Int) :
    (standing s σ kept holds).Links (env.setAll vs is) (env'.setAll vs is) := by
  intro u item hu hkept
  rw [Env.setAll_eq] at hu
  cases hnew : Env.setAll (fun _ => none) vs is u with
  | some item' =>
    rw [hnew, Option.some_or, Option.some.injEq] at hu
    subst item'
    obtain ⟨i, hi, rfl⟩ := Env.of_setAll hnew
    have hm := (List.of_mem_zip hi).1
    refine ⟨.index i, ?_, .index i⟩
    show env'.setAll vs is (σ u) = _
    rw [hσ u hm, Env.setAll_eq, hnew, Option.some_or]
  | none =>
    rw [hnew, Option.none_or] at hu
    obtain ⟨item', he, hitem⟩ := hl u item hu hkept
    have hσu : σ u ∉ vs := fun hm => by cases (hun _ hm).symm.trans he
    exact ⟨item', (env'.setAll_of_not_mem hσu).trans he, hitem⟩

theorem Leaves.takes (hleaves : Leaves s σ kept holds h) :
    (standing s σ kept holds).Takes h (h.rename σ) where
  kind := rfl
  allocated c c' hc hm := ((hleaves.allocs _ hm).2 c c' hc).1 rfl ▸ hm
  carries env env' _ hun' hl hbefore := by
    refine ⟨hleaves.fit hl hbefore,
      Standing.mimics_of_acts (hleaves.actions hl hbefore) hbefore.1.actions, ?_, fun i _ => ?_⟩
    · refine links_bind hl hun' fun v t item hres _ hitem => ?_
      obtain ⟨item', hitem', hitems⟩ := hleaves.item hl hbefore hitem
      refine ⟨item', ?_, hitems⟩
      have hbind : (h.rename σ).bind env' = env'.set v ((h.rename σ).item env') := by
        simp only [Node.bind, Node.rename, hres]
      rw [hleaves.defined v (by simp [Node.defined, hres]), hbind, Env.set_self, hitem']
    · exact links_setAll hl (fun v hv => hun' v (List.mem_append_right _ hv))
        (fun v hv => hleaves.defined v (List.mem_append_right _ hv)) i

theorem takes_unasked (hk : h.kind = .view ∨ h.kind = .dealloc)
    (hres : ∀ v t, h.result = some (v, t) → ¬ kept v) :
    (standing s σ kept holds).Takes h (h.rename σ) where
  kind := rfl
  allocated c c' _ hm := by rcases hk with hk | hk <;> simp [Node.allocated, hk] at hm
  carries env env' _ hun' hl _ := by
    have hnone : ∀ h' : Node, h'.kind = h.kind → ∀ env, h'.actions env = [] := by
      intro h' hk' env
      unfold Node.actions
      rcases hk with hk | hk <;> simp [hk', hk]
    have hiter : h.kind.iterations = [] := by rcases hk with hk | hk <;> rw [hk] <;> rfl
    refine ⟨Node.fit_of_plain ?_ ?_ env', ?_, ?_, by simp [hiter]⟩
    · rcases hk with hk | hk <;> rw [Node.rename, hk] <;> rfl
    · rcases hk with hk | hk <;> rw [Node.rename, hk] <;> rfl
    · rw [hnone _ rfl, hnone (h.rename σ) rfl]
      exact .nil
    · exact links_bind hl hun' fun v t item hv hkept => (hres v t hv hkept).elim

def plain (σ : ValueId → ValueId) (kept hidden : ValueId → Prop) (holds : Env → Prop) : Passage :=
  standing (.keep hidden) σ kept holds

section Plain

variable {hidden : ValueId → Prop}

theorem plain_same (hl : (plain σ (fun _ => True) hidden holds).Links env env') {v : ValueId}
    {item : Item} (hv : env v = some item) :
    env' (σ v) = some item ∧ ∀ r, item = .buffer r → ¬ hidden r.root := by
  obtain ⟨item', hv', hitem⟩ := hl v item hv trivial
  obtain ⟨rfl, hshown⟩ := Standing.items_keep.1 hitem
  exact ⟨hv', hshown⟩

theorem plain_refs (hl : (plain id (fun _ => True) hidden holds).Links env env') {vs : List ValueId}
    {refs : List Ref} (hr : vs.mapM env.ref? = some refs) :
    List.Forall₂ (fun v r => env'.ref? v = some r) vs refs ∧ ∀ r ∈ refs, ¬ hidden r.root := by
  rw [Env.mapM_ref?_eq_some] at hr
  refine ⟨hr.imp fun v r hv => Env.ref?_eq_some.2 (plain_same hl (Env.ref?_eq_some.1 hv)).1,
    fun r hmem => ?_⟩
  obtain ⟨i, hi, rfl⟩ := List.mem_iff_getElem.1 hmem
  have hget := (List.forall₂_iff_get.1 hr).2 i (hr.length_eq ▸ hi) hi
  exact (plain_same hl (Env.ref?_eq_some.1 hget)).2 _ rfl

theorem plain_links (hl : (plain σ (fun _ => True) hidden holds).Links env env') {x y : Code}
    (hitem : h.item env = none) (hun : y.Unbound env') :
    (plain σ (fun _ => True) hidden holds).Links ((Code.node h x .nil).after env) (y.after env') := by
  intro v item hv _
  rcases Env.bind_cases hv with hv | ⟨t, -, hi⟩
  · obtain ⟨hv', hshown⟩ := plain_same hl hv
    have hfree : σ v ∉ y.defined := fun hm => by cases (hun _ hm).symm.trans hv'
    exact ⟨item, (y.after_of_not_mem env' hfree).trans hv', Standing.items_keep.2 ⟨rfl, hshown⟩⟩
  · cases hitem.symm.trans hi

end Plain

theorem plain_takes {hidden : ValueId → Prop} (hops : ∀ v ∈ h.operands, kept v)
    (hdef : ∀ v ∈ h.defined, σ v = v ∧ ¬ hidden v) :
    (plain σ kept hidden holds).Takes h (h.rename σ) := by
  refine Leaves.takes ⟨hops, fun v hv => (hdef v hv).1, fun v hv => ⟨fun shape => ?_, ?_⟩, ?_⟩
  · refine ⟨rfl, (hdef v ?_).2⟩
    unfold Node.allocated at hv
    split at hv
    · exact hv
    · cases hv
  · rintro c _ ⟨rfl, -⟩
    rfl
  · rintro - env - x - r _ - ⟨rfl, hr⟩ shape g
    exact ⟨rfl, hr⟩

end Passage

end KernelLowering
