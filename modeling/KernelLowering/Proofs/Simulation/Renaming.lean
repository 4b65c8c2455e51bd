import KernelLowering.Proofs.Kernel.Elements
import KernelLowering.Proofs.Simulation.Passage

namespace KernelLowering

def Action.Fit : Action → Prop
  | alloc _ => True
  | copy source destination => source.shape = destination.shape
  | kernel kind operands => (∃ extents, kind.extentsOf (operands.map (·.shape)) = .ok (some extents)) ∧
      (operands.map (·.root)).Nodup ∧ ∀ z, operands[kind.outputOperand]? = some z → z.Distinct

structure Window.Embeds (w : Window) (starts : List Int) (shape : Shape) : Prop where
  inside : ∀ i ∈ box w.sizes, w.shift starts i ∈ box shape
  distinct : ∀ i ∈ box w.sizes, ∀ j ∈ box w.sizes, w.shift starts i = w.shift starts j → i = j

namespace Node

/-- A linear-algebra operation has its buffers where it runs, and a sub-view its source and its offsets. -/
structure Fit (h : Node) (env : Env) : Prop where
  acts : h.kind.isLinalg = true → ∃ a, h.actions env = [a] ∧ a.Fit
  shows : ∀ w, h.kind = .subView w → ∃ x supplied r starts, h.operands = x :: supplied ∧
    env.ref? x = some r ∧ w.starts env supplied = some starts ∧ w.Embeds starts r.shape

theorem Fit.kernel {h : Node} {env : Env} {kind : KernelKind} (hf : h.Fit env) (hk : h.kind = .kernel kind) :
    ∃ refs, h.operands.mapM env.ref? = some refs ∧ (Action.kernel kind refs).Fit := by
  obtain ⟨a, ha, hfit⟩ := hf.acts (by rw [hk]; rfl)
  rw [actions, hk] at ha
  dsimp only at ha
  split at ha
  · rename_i refs hrefs
    obtain rfl := List.singleton_inj.1 ha
    exact ⟨refs, hrefs, hfit⟩
  · cases ha

theorem fit_of_plain {h : Node} (hl : h.kind.isLinalg = false) (hw : h.kind.window? = none) (env : Env) :
    h.Fit env := by
  refine ⟨fun hl' => ?_, fun w hk => ?_⟩
  · rw [hl] at hl'
    cases hl'
  · rw [hk] at hw
    cases hw

end Node

theorem Code.throughout_fit {y : Code}
    (h : ∀ hd ∈ y.heads, hd.kind.isLinalg = false ∧ hd.kind.window? = none) (env : Env) :
    y.Throughout Node.Fit env := by
  induction y generalizing env with
  | nil => trivial
  | node hd body rest ihb ihr =>
    simp only [Code.heads, List.forall_mem_cons, List.forall_mem_append] at h
    exact ⟨Node.fit_of_plain h.1.1 h.1.2 env, fun i _ => ihb h.2.1 _, ihr h.2.2 _⟩

theorem Offset.supply_map {α β : Type} (g : α → β) (offsets : List Offset) (sources : List α) :
    supply offsets (sources.map g) = (supply offsets sources).map fun
      | .static value => .static value
      | .supplied source => .supplied (g source)
      | .missing => .missing := by
  fun_induction supply offsets sources <;> simp_all [supply]

theorem Offset.mem_of_supplied {α : Type} {offsets : List Offset} {sources : List α} {source : α}
    (h : .supplied source ∈ supply offsets sources) : source ∈ sources := by
  fun_induction supply offsets sources <;> grind

section Operands

variable {σ : ValueId → ValueId} {env env' : Env} {h : Node}

def Node.Keeps (σ : ValueId → ValueId) (env env' : Env) (h : Node) : Prop :=
  ∀ v ∈ h.operands, ∀ item, env v = some item → env' (σ v) = some item

theorem Env.index?_eq_some {v : ValueId} {i : Int} : env.index? v = some i ↔ env v = some (.index i) := by
  simp only [index?, Option.bind_eq_some_iff]
  constructor
  · rintro ⟨_ | _, hv, hi⟩
    · cases hi
      exact hv
    · cases hi
  · exact fun hv => ⟨_, hv, rfl⟩

theorem Env.ref?_eq_some {v : ValueId} {r : Ref} : env.ref? v = some r ↔ env v = some (.buffer r) := by
  simp only [ref?, Option.bind_eq_some_iff]
  constructor
  · rintro ⟨_ | _, hv, hr⟩
    · cases hr
    · cases hr
      exact hv
  · exact fun hv => ⟨_, hv, rfl⟩

theorem Window.starts_rename {w : Window} {supplied : List ValueId} {is : List Int}
    (hkeep : ∀ v ∈ supplied, ∀ i, env.index? v = some i → env'.index? (σ v) = some i)
    (hs : w.starts env supplied = some is) :
    w.starts env' (supplied.map σ) = some is := by
  have hmem : ∀ v, .supplied v ∈ Offset.supply w.offsets supplied → v ∈ supplied :=
    fun _ => Offset.mem_of_supplied
  rw [starts] at hs ⊢
  rw [Offset.supply_map, List.mapM_map]
  generalize Offset.supply w.offsets supplied = sources at hs hmem
  induction sources generalizing is with
  | nil => exact hs
  | cons source sources ih =>
    simp only [List.mapM_cons, Option.bind_eq_bind, Option.bind_eq_some_iff, Option.pure_def,
      Option.some.injEq] at hs ⊢
    obtain ⟨i, hi, is, his, rfl⟩ := hs
    refine ⟨i, ?_, is, ih his fun v hv => hmem v (List.mem_cons_of_mem _ hv), rfl⟩
    cases source with
    | static value => exact hi
    | supplied v => exact hkeep v (hmem v List.mem_cons_self) i hi
    | missing => cases hi

namespace Node

theorem Keeps.index? (hk : h.Keeps σ env env') {v : ValueId} (hv : v ∈ h.operands) {i : Int}
    (hi : env.index? v = some i) : env'.index? (σ v) = some i :=
  Env.index?_eq_some.2 (hk v hv _ (Env.index?_eq_some.1 hi))

theorem Keeps.ref? (hk : h.Keeps σ env env') {v : ValueId} (hv : v ∈ h.operands) {r : Ref}
    (hr : env.ref? v = some r) : env'.ref? (σ v) = some r :=
  Env.ref?_eq_some.2 (hk v hv _ (Env.ref?_eq_some.1 hr))

theorem Keeps.item (hk : h.Keeps σ env env') {item : Item} (hi : h.item env = some item) :
    (h.rename σ).item env' = some item := by
  obtain ⟨op, kind, operands, result, marker, vars⟩ := h
  cases kind with
  | constant value => exact hi
  | addIndex =>
    obtain _ | ⟨x, _ | ⟨y, _ | ⟨z, rest⟩⟩⟩ := operands
    · cases hi
    · cases hi
    · simp only [Node.item, Option.bind_eq_bind, Option.bind_eq_some_iff, Option.pure_def,
        Option.some.injEq] at hi
      obtain ⟨a, ha, b, hb, rfl⟩ := hi
      simp [Node.item, rename, hk.index? (by simp) ha, hk.index? (by simp) hb]
    · cases hi
  | alloc =>
    obtain _ | ⟨v, _ | type⟩ := result
    · cases hi
    · cases hi
    · exact hi
  | view =>
    obtain _ | ⟨x, _ | ⟨y, rest⟩⟩ := operands
    · cases hi
    · obtain _ | ⟨v, _ | type⟩ := result
      · cases hi
      · cases hi
      · simp only [Node.item, Option.bind_eq_bind, Option.bind_eq_some_iff, Option.pure_def,
          Option.some.injEq] at hi
        obtain ⟨r, hr, rfl⟩ := hi
        simp [Node.item, rename, hk.ref? (by simp) hr]
    · cases hi
  | subView w =>
    obtain _ | ⟨x, supplied⟩ := operands
    · cases hi
    · simp only [Node.item, Option.bind_eq_bind, Option.bind_eq_some_iff, Option.pure_def,
        Option.some.injEq] at hi
      obtain ⟨r, hr, starts, hs, rfl⟩ := hi
      have hstarts := Window.starts_rename
        (fun v hv i hi => hk.index? (List.mem_cons_of_mem x hv) hi) hs
      simp [Node.item, rename, hk.ref? (by simp) hr, hstarts]
  | _ => cases hi

theorem root_of_item {r : Ref} (hi : h.item env = some (.buffer r)) :
    (∃ t, h.result = some (r.root, t)) ∨ ∃ v ∈ h.operands, ∃ s, env v = some (.buffer s) ∧ s.root = r.root := by
  obtain ⟨op, kind, operands, result, marker, vars⟩ := h
  cases kind with
  | addIndex =>
    obtain _ | ⟨x, _ | ⟨y, _ | ⟨z, rest⟩⟩⟩ := operands
    · cases hi
    · cases hi
    · simp only [Node.item, Option.bind_eq_bind, Option.bind_eq_some_iff, Option.pure_def] at hi
      obtain ⟨a, -, b, -, hi⟩ := hi
      cases hi
    · cases hi
  | alloc =>
    obtain _ | ⟨v, _ | type⟩ := result
    · cases hi
    · cases hi
    · cases hi
      exact .inl ⟨_, rfl⟩
  | view =>
    obtain _ | ⟨x, _ | ⟨y, rest⟩⟩ := operands
    · cases hi
    · obtain _ | ⟨v, _ | type⟩ := result
      · cases hi
      · cases hi
      · simp only [Node.item, Option.bind_eq_bind, Option.bind_eq_some_iff, Option.pure_def,
          Option.some.injEq, Item.buffer.injEq] at hi
        obtain ⟨s, hs, rfl⟩ := hi
        exact .inr ⟨x, List.mem_cons_self, s, Env.ref?_eq_some.1 hs, rfl⟩
    · cases hi
  | subView w =>
    obtain _ | ⟨x, supplied⟩ := operands
    · cases hi
    · simp only [Node.item, Option.bind_eq_bind, Option.bind_eq_some_iff, Option.pure_def,
        Option.some.injEq, Item.buffer.injEq] at hi
      obtain ⟨s, hs, starts, -, rfl⟩ := hi
      exact .inr ⟨x, List.mem_cons_self, s, Env.ref?_eq_some.1 hs, rfl⟩
  | constant value => cases hi
  | _ => cases hi

end Node

end Operands

namespace Env

theorem setAll_eq (env : Env) (vs : List ValueId) (is : List Int) (u : ValueId) :
    env.setAll vs is u = (setAll (fun _ => none) vs is u).or (env u) := by
  induction vs generalizing env is with
  | nil => rfl
  | cons v vs ih =>
    cases is with
    | nil => rfl
    | cons i is =>
      rw [setAll, setAll, ih, ih (set (fun _ => none) v _), Option.or_assoc]
      congr 1
      by_cases hu : u = v
      · subst u
        rw [set_self, set_self, Option.some_or]
      · rw [set_of_ne _ _ hu, set_of_ne _ _ hu, Option.none_or]

theorem of_setAll {vs : List ValueId} {is : List Int} {u : ValueId} {item : Item}
    (h : setAll (fun _ => none) vs is u = some item) : ∃ i, (u, i) ∈ vs.zip is ∧ item = .index i := by
  induction vs generalizing is with
  | nil => cases h
  | cons v vs ih =>
    cases is with
    | nil => cases h
    | cons i is =>
      rw [setAll, setAll_eq] at h
      rcases Option.or_eq_some_iff.1 h with h | ⟨-, h⟩
      · obtain ⟨j, hj, hitem⟩ := ih h
        exact ⟨j, List.mem_cons_of_mem _ hj, hitem⟩
      · by_cases hu : u = v
        · subst u
          rw [set_self] at h
          exact ⟨i, List.mem_cons_self, (Option.some.inj h).symm⟩
        · rw [set_of_ne _ _ hu] at h
          cases h

theorem setAll_of_mem {env : Env} {vs : List ValueId} {is : List Int} {u : ValueId} {i : Int}
    (hnd : vs.Nodup) (h : (u, i) ∈ vs.zip is) : env.setAll vs is u = some (.index i) := by
  induction vs generalizing env is with
  | nil => cases h
  | cons v vs ih =>
    cases is with
    | nil => cases h
    | cons j is =>
      rw [List.nodup_cons] at hnd
      rw [List.zip_cons_cons, List.mem_cons] at h
      rcases h with h | h
      · cases h
        exact (setAll_of_not_mem _ hnd.1).trans (env.set_self u _)
      · exact ih hnd.2 h

end Env

section Bindings

variable {h : Node} {env : Env}

theorem Env.bind_cases {u : ValueId} {item : Item} (hu : h.bind env u = some item) :
    env u = some item ∨ ∃ t, h.result = some (u, t) ∧ h.item env = some item := by
  unfold Node.bind at hu
  cases hres : h.result with
  | none =>
    rw [hres] at hu
    exact .inl hu
  | some r =>
    obtain ⟨v, t⟩ := r
    rw [hres] at hu
    by_cases huv : u = v
    · subst u
      exact .inr ⟨t, rfl, (env.set_self v _).symm.trans hu⟩
    · exact .inl ((env.set_of_ne _ huv).symm.trans hu)

theorem Env.setAll_cases {vs : List ValueId} {is : List Int} {u : ValueId} {item : Item}
    (hu : env.setAll vs is u = some item) :
    env u = some item ∨ ∃ i, (u, i) ∈ vs.zip is ∧ item = .index i := by
  rw [Env.setAll_eq] at hu
  rcases Option.or_eq_some_iff.1 hu with hu | ⟨-, hu⟩
  · exact .inr (Env.of_setAll hu)
  · exact .inl hu

end Bindings

theorem Node.Fit.actions {h : Node} {env : Env} (hf : h.Fit env) : ∀ a ∈ h.actions env, a.Fit := by
  intro a ha
  by_cases hl : h.kind.isLinalg = true
  · obtain ⟨b, hb, hfit⟩ := hf.acts hl
    rw [hb] at ha
    exact List.mem_singleton.1 ha ▸ hfit
  · unfold Node.actions at ha
    split at ha
    · exact List.mem_singleton.1 ha ▸ trivial
    all_goals simp_all [OpKind.isLinalg]

theorem Code.Throughout.fit_trace {x : Code} {env : Env} (h : x.Throughout Node.Fit env) :
    ∀ a ∈ x.trace env, a.Fit := by
  induction x generalizing env with
  | nil => simp [trace]
  | node hd body rest ihb ihr =>
    simp only [trace, List.forall_mem_append, List.forall_mem_flatMap]
    exact ⟨⟨h.1.actions, fun i hi => ihb (h.2.1 i hi)⟩, ihr h.2.2⟩

section Frame

variable {m m' : Memory} {c : Ref.Cell}

theorem Memory.foldl_accumulate_of_ne {us : List Update} (h : ∀ x y, [x, y, c] ∉ us) :
    us.foldl accumulate m c = m c := by
  induction us generalizing m with
  | nil => rfl
  | cons u us ih =>
    have hshare : m.share c u = 0 := by
      unfold share
      split
      · rename_i x y z
        refine if_neg ?_
        rintro rfl
        exact h x y List.mem_cons_self
      · rfl
    rw [List.foldl_cons, ih fun x y hu => h x y (List.mem_cons_of_mem u hu), accumulate_eq_share,
      hshare, Int.add_zero]

theorem Action.Fit.step_of_not_among {a : Action} (hf : a.Fit) (hstep : a.Step m m')
    (halloc : a ≠ .alloc c.1) (hc : ¬ Ref.Among a.outputs c) : m' c = m c := by
  cases a with
  | alloc root => exact hstep c fun e => halloc (e ▸ rfl)
  | copy source destination =>
    obtain rfl : m' = _ := hstep
    exact Memory.copy_of_ne fun i hi e => hc ⟨_, List.mem_singleton_self _, i, hi, e⟩
  | kernel kind refs =>
    obtain rfl : m' = _ := hstep
    obtain ⟨⟨extents, hextents⟩, -⟩ := hf
    refine Memory.foldl_accumulate_of_ne fun x y hu => hc ?_
    obtain ⟨point, hp, hu⟩ := List.mem_map.1 hu
    rw [KernelKind.points, hextents] at hp
    have hindex := (KernelKind.extentsOf_eq_ok.1 hextents).1.indexAt_mem hp
    -- the sum is the element of the output that the point indexes
    have hz : (kind.updateAt refs point)[2]? = some c := hu ▸ rfl
    rw [KernelKind.updateAt, List.getElem?_zipWith] at hz
    split at hz
    · rename_i r map hr hmap
      rw [Option.some.injEq] at hz
      refine ⟨r, Option.mem_toList.2 hr, _, ?_, hz⟩
      obtain ⟨hn, hmap⟩ := List.getElem?_eq_some_iff.1 hmap
      obtain ⟨hn', hr⟩ := List.getElem?_eq_some_iff.1 hr
      have hget := (List.forall₂_iff_get.1 hindex).2 2 hn (by simpa using hn')
      simpa [hmap, hr] using hget
    · cases hz

theorem Runs.of_not_changes {as : List Action} (hf : ∀ a ∈ as, a.Fit) (hruns : Runs as m m')
    (halloc : .alloc c.1 ∉ as) (hc : ¬ Changes as c) : m' c = m c := by
  induction as generalizing m with
  | nil => exact congrFun hruns c
  | cons a as ih =>
    obtain ⟨m₁, hstep, hruns⟩ := hruns
    obtain ⟨hfit, hfits⟩ := List.forall_mem_cons.1 hf
    rw [List.mem_cons, not_or] at halloc
    rw [ih hfits hruns halloc.2 fun ⟨b, hb, hamong⟩ => hc ⟨b, List.mem_cons_of_mem a hb, hamong⟩]
    exact hfit.step_of_not_among hstep (Ne.symm halloc.1) fun hamong => hc ⟨a, List.mem_cons_self, hamong⟩

end Frame

end KernelLowering
