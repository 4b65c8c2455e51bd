import KernelLowering.Meaning.Trace
import KernelLowering.Proofs.Arena.Placement
import KernelLowering.Proofs.Simulation.Renaming

namespace KernelLowering

def Function.Has (f : Function) (v : ValueId) : Prop := v.index < f.values.size

instance (f : Function) (v : ValueId) : Decidable (f.Has v) :=
  inferInstanceAs (Decidable (v.index < f.values.size))

namespace Item

def Suits (f : Function) : Item → ValueType → Prop
  | index _, .index => True
  | buffer r, .buffer type => r.shape = type.shape ∧ f.Has r.root
  | _, _ => False

end Item

inductive Node.Typed (f : Function) : Node → Prop
  | constant (op : OpId) (value : Int) (v : ValueId) :
      Typed f (.value op (.constant value) [] v .index)
  | addIndex (op : OpId) {x y : ValueId} (v : ValueId) (hx : f.Has x) (hy : f.Has y) :
      Typed f (.value op .addIndex [x, y] v .index)
  | alloc (op : OpId) (v : ValueId) (type : BufferType) :
      Typed f (.value op .alloc [] v (.buffer type))
  | view (op : OpId) {x : ValueId} (v : ValueId) (type : BufferType) (hx : f.Has x) :
      Typed f (.value op .view [x] v (.buffer type))
  | subView (op : OpId) {w : Window} {x : ValueId} {supplied : List ValueId} {source : BufferType}
      (v : ValueId) {type : BufferType} (hsource : f.bufferType? x = .ok (some source))
      (hsupplied : ∀ u ∈ supplied, f.Has u) (hcount : w.dynamicCount = supplied.length)
      (hoffsets : w.offsets.length = w.sizes.length) (hstrides : w.strides.length = w.sizes.length)
      (hshape : type.shape = w.sizes) :
      Typed f (.value op (.subView w) (x :: supplied) v (.buffer type))
  | effect (op : OpId) {kind : OpKind} {operands : List ValueId} (marker : Option Stage)
      (hpure : kind.isPure = false) (hloop : kind.isLoop = false)
      (hcopy : kind = .copy → operands.length = 2) (hops : ∀ u ∈ operands, f.Has u) :
      Typed f (.effect op kind operands marker)
  | loop (op : OpId) {kind : OpKind} (vars : List ValueId) (hloop : kind.isLoop = true) :
      Typed f (.loop op kind vars)

namespace Node.Typed

variable {f : Function} {h : Node}

theorem of_addIndex (ht : h.Typed f) (hk : h.kind = .addIndex) :
    ∃ x y v, h.operands = [x, y] ∧ h.result = some (v, .index) ∧ f.Has x ∧ f.Has y := by
  cases ht with
  | addIndex op v hx hy => exact ⟨_, _, v, rfl, rfl, hx, hy⟩
  | effect op marker hpure =>
    subst hk
    cases hpure
  | loop op vars hloop =>
    subst hk
    cases hloop
  | _ => cases hk

theorem of_subView (ht : h.Typed f) {w : Window} (hk : h.kind = .subView w) :
    ∃ x supplied v type source, h.operands = x :: supplied ∧ h.result = some (v, .buffer type) ∧
      f.bufferType? x = .ok (some source) ∧ (∀ u ∈ supplied, f.Has u) ∧
        w.dynamicCount = supplied.length ∧ w.offsets.length = w.sizes.length ∧
          w.strides.length = w.sizes.length ∧ type.shape = w.sizes := by
  cases ht with
  | subView op v hsource hsupplied hcount hoffsets hstrides hshape =>
    cases hk
    exact ⟨_, _, v, _, _, rfl, rfl, hsource, hsupplied, hcount, hoffsets, hstrides, hshape⟩
  | effect op marker hpure =>
    subst hk
    cases hpure
  | loop op vars hloop =>
    subst hk
    cases hloop
  | _ => cases hk

theorem of_view (ht : h.Typed f) (hk : h.kind = .view) :
    ∃ x v type, h.operands = [x] ∧ h.result = some (v, .buffer type) ∧ f.Has x := by
  cases ht with
  | view op v type hx => exact ⟨_, v, type, rfl, rfl, hx⟩
  | effect op marker hpure =>
    subst hk
    cases hpure
  | loop op vars hloop =>
    subst hk
    cases hloop
  | _ => cases hk

theorem of_alloc (ht : h.Typed f) (hk : h.kind = .alloc) :
    ∃ v type, h.operands = [] ∧ h.result = some (v, .buffer type) := by
  cases ht with
  | alloc op v type => exact ⟨v, type, rfl, rfl⟩
  | effect op marker hpure =>
    subst hk
    cases hpure
  | loop op vars hloop =>
    subst hk
    cases hloop
  | _ => cases hk

theorem isLinalg_of_result (ht : h.Typed f) {v : ValueId} {t : ValueType} (hres : h.result = some (v, t)) :
    h.kind.isLinalg = false := by
  cases ht with
  | effect => cases hres
  | loop => cases hres
  | _ => rfl

end Node.Typed

namespace Env

def Typed (f : Function) (env : Env) : Prop :=
  ∀ v item, env v = some item → ∃ a, f.value? v = some a ∧ item.Suits f a.type

def Computed (heads : List Node) (env : Env) : Prop :=
  ∀ h ∈ heads, ∀ v t item, h.result = some (v, t) → env v = some item → h.item env = some item

end Env

variable {f : Function} {c x : Code} {env : Env} {h : Node}

theorem Code.Throughout.invariant {I : Env → Prop} {p : Node → Env → Prop} (hp : x.Throughout p env)
    (hnd : x.defined.Nodup)
    (hbind : ∀ h ∈ x.heads, ∀ env, p h env → (∀ v ∈ h.defined, env v = none) → I env → I (h.bind env))
    (hset : ∀ h ∈ x.heads, ∀ env i, (∀ v ∈ h.defined, env v = none) → I env →
      I (env.setAll h.inductionVars i))
    (hun : x.Unbound env) (henv : I env) : x.Throughout (fun _ env => I env) env := by
  induction x generalizing env with
  | nil => trivial
  | node h body rest ihb ihr =>
    simp only [heads, List.forall_mem_cons, List.forall_mem_append] at hbind hset
    rw [defined_node] at hnd
    obtain ⟨-, hinner, hdis⟩ := List.nodup_append'.1 hnd
    obtain ⟨hndb, hndr, -⟩ := List.nodup_append'.1 hinner
    simp only [Unbound, defined_node, List.forall_mem_append] at hun
    refine ⟨henv, fun i hi => ?_, ?_⟩
    · refine ihb (hp.2.1 i hi) hndb hbind.2.1 hset.2.1 (fun v hv => ?_) (hset.1 env i hun.1 henv)
      refine (env.setAll_of_not_mem fun hvar => ?_).trans (hun.2.1 v hv)
      exact hdis (List.mem_append_right _ hvar) (List.mem_append_left _ hv)
    · refine ihr hp.2.2 hndr hbind.2.2 hset.2.2 (fun v hv => ?_) (hbind.1 env hp.1 hun.1 henv)
      refine (h.bind_of_not_mem env fun hd => ?_).trans (hun.2.2 v hv)
      exact hdis hd (List.mem_append_right _ hv)

theorem Code.throughout_of_heads {p : Node → Env → Prop} {x : Code}
    (h : ∀ hd ∈ x.heads, ∀ env, p hd env) (env : Env) : x.Throughout p env := by
  induction x generalizing env with
  | nil => trivial
  | node hd body rest ihb ihr =>
    simp only [heads, List.forall_mem_cons, List.forall_mem_append] at h
    exact ⟨h.1 env, fun i _ => ihb h.2.1 _, ihr h.2.2 _⟩

theorem Code.Throughout.and {p q : Node → Env → Prop} (hp : x.Throughout p env)
    (hq : x.Throughout q env) : x.Throughout (fun h env => p h env ∧ q h env) env := by
  induction x generalizing env with
  | nil => trivial
  | node h body rest ihb ihr =>
    exact ⟨⟨hp.1, hq.1⟩, fun i hi => ihb (hp.2.1 i hi) (hq.2.1 i hi), ihr hp.2.2 hq.2.2⟩

theorem Code.Throughout.mono {p q : Node → Env → Prop} (hp : x.Throughout p env)
    (h : ∀ hd env, p hd env → q hd env) : x.Throughout q env := by
  induction x generalizing env with
  | nil => trivial
  | node hd body rest ihb ihr =>
    exact ⟨h _ _ hp.1, fun i hi => ihb (hp.2.1 i hi), ihr hp.2.2⟩

namespace Function

theorem Places.exists_record {parent : Option OpId} (hp : f.Places parent x) (hh : h ∈ x.heads) :
    ∃ parent region, f.op? h.op = some (h.record parent region) := by
  induction x generalizing parent with
  | nil => cases hh
  | node hd body rest ihb ihr =>
    simp only [Code.heads, List.mem_cons, List.mem_append] at hh
    rcases hh with rfl | hh | hh
    · exact ⟨_, _, hp.1⟩
    · exact ihb hp.2.1 hh
    · exact ihr hp.2.2 hh

namespace Represents

theorem definition_of_mem (hr : f.Represents c) {v : ValueId} (hh : h ∈ c.heads)
    (hv : v ∈ h.defined) : (∃ t, h.result = some (v, t) ∧ f.value? v = some ⟨t, .result h.op⟩) ∨
      ∃ i, h.inductionVars[i]? = some v ∧ f.value? v = some ⟨.index, .inductionVar h.op i⟩ := by
  rcases List.mem_append.1 hv with hres | hvar
  · rw [Option.mem_toList, Option.map_eq_some_iff] at hres
    obtain ⟨⟨u, t⟩, hres, rfl⟩ := hres
    exact .inl ⟨t, hres, hr.result hh hres⟩
  · obtain ⟨i, hi⟩ := List.mem_iff_getElem?.1 hvar
    exact .inr ⟨i, hi, hr.var hh hi⟩

theorem nodup_defined (hr : f.Represents c) : c.defined.Nodup := by
  refine List.nodup_flatMap.2 ⟨fun h hh => ?_, ?_⟩
  · refine List.nodup_append'.2 ⟨by cases h.result <;> simp, ?_, fun v hres hvar => ?_⟩
    · refine List.nodup_iff_getElem?_ne_getElem?.2 fun i j hij hj he => ?_
      obtain ⟨v, hv⟩ : ∃ v, h.inductionVars[j]? = some v := ⟨_, List.getElem?_eq_getElem hj⟩
      have hvi := hr.var hh (he.trans hv)
      have hvj := hr.var hh hv
      rw [hvi] at hvj
      simp only [Option.some.injEq, Value.mk.injEq, Definition.inductionVar.injEq, true_and] at hvj
      omega
    · obtain ⟨i, hi⟩ := List.mem_iff_getElem?.1 hvar
      rw [Option.mem_toList, Option.map_eq_some_iff] at hres
      obtain ⟨⟨u, t⟩, hres, rfl⟩ := hres
      have hv := hr.result hh hres
      rw [hr.var hh hi] at hv
      simp at hv
  · have hops : (c.heads.map (·.op)).Nodup := c.ops_eq_map_heads ▸ hr.nodup
    refine (List.pairwise_map.1 hops).imp_of_mem fun {h h'} hh hh' hne v hv hv' => hne ?_
    rcases hr.definition_of_mem hh hv with ⟨t, -, he⟩ | ⟨i, -, he⟩ <;>
      rcases hr.definition_of_mem hh' hv' with ⟨t', -, he'⟩ | ⟨j, -, he'⟩ <;>
        rw [he] at he' <;> simp at he'
    · exact he'.2
    · exact he'.1

theorem not_argument (hr : f.Represents c) {v : ValueId} (hv : v ∈ c.defined) :
    ¬ v.index < f.arity := by
  intro hlt
  obtain ⟨h, hh, hv⟩ := List.mem_flatMap.1 hv
  obtain ⟨t, ht⟩ := hr.argument hlt
  rcases hr.definition_of_mem hh hv with ⟨t', -, he⟩ | ⟨i, -, he⟩
  · rw [ht] at he
    simp at he
  · rw [ht] at he
    simp at he

theorem unbound_entry (hr : f.Represents c) : c.Unbound (Env.entry f) :=
  fun _ hv => if_neg (hr.not_argument hv)

theorem exists_record (hr : f.Represents c) (hh : h ∈ c.heads) :
    ∃ parent region, f.op? h.op = some (h.record parent region) :=
  Places.exists_record hr.places hh

theorem has_of_mem (hr : f.Represents c) {v : ValueId} (hv : v ∈ c.defined) : f.Has v := by
  obtain ⟨h, hh, hv⟩ := List.mem_flatMap.1 hv
  rcases hr.definition_of_mem hh hv with ⟨t, -, he⟩ | ⟨i, -, he⟩
  · exact (Array.getElem?_eq_some_iff.1 he).1
  · exact (Array.getElem?_eq_some_iff.1 he).1

theorem not_around_within {k : Spine} {b x z : Code} {hd : Node}
    (hr : f.Represents (k.plug (b ++ .node hd x z))) {v : ValueId}
    (hv : v ∈ hd.defined ∨ v ∈ x.defined) : v ∉ (k.plug (b ++ z)).defined := by
  have hnd := ((k.defined_plug _).nodup_iff).1 hr.nodup_defined
  rw [Code.defined_append, Code.defined_node] at hnd
  intro hm
  rw [(k.defined_plug _).mem_iff, Code.defined_append] at hm
  simp only [List.append_assoc, List.mem_append] at hm
  simp only [List.nodup_append', List.disjoint_append_left,
    List.disjoint_append_right] at hnd
  rcases hv with hv | hv <;> rcases hm with hm | hm | hm
  · exact hnd.1.2.2.1 hm hv
  · exact hnd.1.2.1.2.2.2 hv hm
  · exact hnd.2.2.2.1 hv hm
  · exact hnd.1.2.2.2.1 hm hv
  · exact hnd.1.2.1.2.1.2.2 hv hm
  · exact hnd.2.2.2.2.1 hv hm

theorem not_around {k : Spine} {b x z : Code} {hd : Node}
    (hr : f.Represents (k.plug (b ++ .node hd x z))) {v : ValueId}
    (hv : v ∈ hd.defined) : v ∉ (k.plug (b ++ z)).defined := hr.not_around_within (.inl hv)

theorem has_around {k : Spine} {b x z : Code} {hd : Node}
    (hr : f.Represents (k.plug (b ++ .node hd x z))) {v : ValueId}
    (hv : v ∈ (k.plug (b ++ z)).defined) : f.Has v := by
  obtain ⟨h, hh, hv⟩ := List.mem_flatMap.1 hv
  exact hr.has_of_mem (List.mem_flatMap.2 ⟨h, Spine.mem_heads_around hh hd x, hv⟩)

end Represents

end Function

theorem Env.Typed.ref (henv : env.Typed f) {v : ValueId} {r : Ref} (hr : env.ref? v = some r) :
    ∃ type, f.bufferType? v = .ok (some type) ∧ r.shape = type.shape ∧ f.Has r.root := by
  obtain ⟨⟨t, d⟩, ha, hs⟩ := henv v _ (Env.ref?_eq_some.1 hr)
  cases t with
  | index => exact hs.elim
  | buffer type =>
    refine ⟨type, ?_, hs⟩
    rw [Function.bufferType?, Function.value_eq_ok.2 ha]
    rfl

theorem Env.Typed.types (henv : env.Typed f) {vs : List ValueId} {refs : List Ref}
    (hr : vs.mapM env.ref? = some refs) :
    ∃ types, List.Forall₂ (fun v type => f.bufferType? v = .ok (some type)) vs types ∧
      refs.map (·.shape) = types.map (·.shape) := by
  rw [Env.mapM_ref?_eq_some] at hr
  induction hr with
  | nil => exact ⟨[], .nil, rfl⟩
  | cons hr _ ih =>
    obtain ⟨type, htype, hshape, -⟩ := henv.ref hr
    obtain ⟨types, htypes, hshapes⟩ := ih
    exact ⟨type :: types, .cons htype htypes, by rw [List.map_cons, List.map_cons, hshape, hshapes]⟩

theorem Node.Typed.suits (ht : h.Typed f) (henv : env.Typed f) {v : ValueId} {t : ValueType}
    {item : Item} (hres : h.result = some (v, t)) (hv : f.Has v) (hi : h.item env = some item) :
    item.Suits f t := by
  cases ht with
  | constant op value u =>
    cases hres
    cases hi
    trivial
  | addIndex op u hx hy =>
    cases hres
    simp only [Node.item, Node.value, Option.bind_eq_bind, Option.bind_eq_some_iff,
      Option.pure_def, Option.some.injEq] at hi
    obtain ⟨a, -, b, -, rfl⟩ := hi
    trivial
  | alloc op u type =>
    cases hres
    cases hi
    exact ⟨rfl, hv⟩
  | view op u type hx =>
    cases hres
    simp only [Node.item, Node.value, Option.bind_eq_bind, Option.bind_eq_some_iff,
      Option.pure_def, Option.some.injEq] at hi
    obtain ⟨r, hr, rfl⟩ := hi
    obtain ⟨-, -, -, hroot⟩ := henv.ref hr
    exact ⟨rfl, hroot⟩
  | subView op u hsource hsupplied hcount hoffsets hstrides hshape =>
    cases hres
    simp only [Node.item, Node.value, Option.bind_eq_bind, Option.bind_eq_some_iff,
      Option.pure_def, Option.some.injEq] at hi
    obtain ⟨r, hr, starts, -, rfl⟩ := hi
    obtain ⟨-, -, -, hroot⟩ := henv.ref hr
    exact ⟨hshape.symm, hroot⟩
  | effect op marker hpure hloop hcopy hops => cases hres
  | loop op vars hloop => cases hres

namespace Function.Represents

variable {heads : List Node}

theorem typed_bind (hr : f.Represents c) (hh : h ∈ c.heads) (ht : h.Typed f)
    (henv : env.Typed f) : (h.bind env).Typed f := by
  intro u item hu
  rcases Env.bind_cases hu with hu | ⟨t, hres, hi⟩
  · exact henv u item hu
  · have hv := hr.result hh hres
    exact ⟨_, hv, ht.suits henv hres (Array.getElem?_eq_some_iff.1 hv).1 hi⟩

theorem typed_setAll (hr : f.Represents c) (hh : h ∈ c.heads) (henv : env.Typed f)
    (is : List Int) : (env.setAll h.inductionVars is).Typed f := by
  intro u item hu
  rcases Env.setAll_cases hu with hu | ⟨i, hi, rfl⟩
  · exact henv u item hu
  · obtain ⟨j, hj⟩ := List.mem_iff_getElem?.1 (List.of_mem_zip hi).1
    exact ⟨_, hr.var hh hj, trivial⟩

theorem typed_entry (hr : f.Represents c) : (Env.entry f).Typed f := by
  intro v item hv
  by_cases hlt : v.index < f.arity
  · obtain ⟨t, ht⟩ := hr.argument hlt
    have ht : f.value? v = some ⟨t, .argument v.index⟩ := ht
    rw [Env.entry, if_pos hlt, ht] at hv
    obtain ⟨type, htype, rfl⟩ := Option.map_eq_some_iff.1 hv
    cases t with
    | index => cases htype
    | buffer t =>
      cases htype
      exact ⟨_, ht, rfl, (Array.getElem?_eq_some_iff.1 ht).1⟩
  · rw [Env.entry, if_neg hlt] at hv
    cases hv

end Function.Represents

namespace Env.Computed

variable {heads : List Node}

theorem grow (hc : env.Computed heads) {env' : Env}
    (hkeep : ∀ v item, env v = some item → env' v = some item)
    (hnew : ∀ h ∈ heads, ∀ v t item, h.result = some (v, t) → env' v = some item →
      env v = some item ∨ h.item env = some item) : env'.Computed heads := by
  intro h hh v t item hres hv
  have hi : h.item env = some item := by
    rcases hnew h hh v t item hres hv with hv | hi
    · exact hc h hh v t item hres hv
    · exact hi
  have hkeeps : h.Keeps id env env' := fun u _ item hu => hkeep u item hu
  exact h.rename_id ▸ hkeeps.item hi

end Env.Computed

def Env.Rooted (env : Env) : Prop := ∀ v r, env v = some (.buffer r) → env r.root ≠ none

def Env.Made (heads : List Node) (env : Env) : Prop :=
  ∀ h ∈ heads, ∀ v t, h.result = some (v, t) → env v ≠ none → h.Fit env

structure Env.Informed (f : Function) (c : Code) (env : Env) : Prop where
  typed : env.Typed f
  computed : env.Computed c.heads
  rooted : env.Rooted
  made : env.Made c.heads

namespace Env.Rooted

theorem bind (hr : env.Rooted) (hun : ∀ v ∈ h.defined, env v = none) : (h.bind env).Rooted := by
  have hkeep : ∀ v, env v ≠ none → h.bind env v ≠ none := by
    intro v hv
    rwa [h.bind_of_not_mem env fun hm => hv (hun v hm)]
  intro v r hv
  rcases Env.bind_cases hv with hv | ⟨t, hres, hi⟩
  · exact hkeep _ (hr v r hv)
  · rcases h.root_of_item hi with ⟨t', hroot⟩ | ⟨u, -, s, hs, he⟩
    · obtain rfl : v = r.root := (Prod.mk.inj (Option.some.inj (hres.symm.trans hroot))).1
      rw [hv]
      exact Option.some_ne_none _
    · exact he ▸ hkeep _ (hr u s hs)

theorem setAll (hr : env.Rooted) (vs : List ValueId) (is : List Int) : (env.setAll vs is).Rooted := by
  intro v r hv
  rcases Env.setAll_cases hv with hv | ⟨i, -, hi⟩
  · rw [Env.setAll_eq]
    exact fun hnone => hr v r hv (Option.or_eq_none_iff.1 hnone).2
  · cases hi

theorem entry (f : Function) : (Env.entry f).Rooted := by
  intro v r hv
  have hroot : r.root = v := by
    rw [Env.entry] at hv
    split at hv
    · obtain ⟨type, -, he⟩ := Option.map_eq_some_iff.1 hv
      cases he
      rfl
    · cases hv
  rw [hroot, hv]
  exact Option.some_ne_none _

end Env.Rooted

theorem Function.Represents.eq_of_op (hr : f.Represents c) {h' : Node} (hh : h ∈ c.heads)
    (hh' : h' ∈ c.heads) (hop : h.op = h'.op) : h = h' :=
  List.inj_on_of_nodup_map (c.ops_eq_map_heads ▸ hr.nodup) hh hh' hop

theorem Function.Represents.eq_of_result (hr : f.Represents c) {h' : Node} (hh : h ∈ c.heads)
    (hh' : h' ∈ c.heads) {v : ValueId} {t t' : ValueType} (hres : h.result = some (v, t))
    (hres' : h'.result = some (v, t')) : h = h' := by
  have he := hr.result hh hres
  rw [hr.result hh' hres'] at he
  simp only [Option.some.injEq, Value.mk.injEq, Definition.result.injEq] at he
  exact hr.eq_of_op hh hh' he.2.symm

theorem Node.Fit.grow (hf : h.Fit env) (hk : h.kind.isLinalg = false) {env' : Env}
    (hkeep : ∀ v item, env v = some item → env' v = some item) : h.Fit env' := by
  have href : ∀ {v r}, env.ref? v = some r → env'.ref? v = some r := fun hr =>
    Env.ref?_eq_some.2 (hkeep _ _ (Env.ref?_eq_some.1 hr))
  refine ⟨fun hl => ?_, fun w hw => ?_⟩
  · rw [hk] at hl
    cases hl
  · obtain ⟨x, supplied, r, starts, hops, hr, hs, hembeds⟩ := hf.shows w hw
    refine ⟨x, supplied, r, starts, hops, href hr, ?_, hembeds⟩
    have hstarts : w.starts env' (supplied.map id) = some starts := Window.starts_rename (fun v _ i hi =>
      Env.index?_eq_some.2 (hkeep v _ (Env.index?_eq_some.1 hi))) hs
    rwa [List.map_id] at hstarts

theorem Function.Represents.informed (hr : f.Represents c) (ht : ∀ h ∈ c.heads, h.Typed f)
    (hf : c.Throughout Node.Fit (Env.entry f)) :
    c.Throughout (fun _ env => env.Informed f c) (Env.entry f) := by
  refine hf.invariant hr.nodup_defined (fun h hh env hfit hun henv => ?_)
    (fun h hh env is hun henv => ?_) hr.unbound_entry ⟨hr.typed_entry, ?_, .entry f, ?_⟩
  · have hkeep : ∀ v item, env v = some item → h.bind env v = some item := fun v item hv =>
      (h.bind_of_not_mem env fun hm => by rw [hun v hm] at hv; cases hv).trans hv
    refine ⟨hr.typed_bind hh (ht h hh) henv.typed, henv.computed.grow hkeep ?_,
      henv.rooted.bind hun, fun h' hh' v t hres hv => ?_⟩
    · intro h' hh' v t item hres hv
      rcases Env.bind_cases hv with hv | ⟨t', hres', hi⟩
      · exact .inl hv
      · exact .inr (hr.eq_of_result hh hh' hres' hres ▸ hi)
    · refine (?_ : h'.Fit env).grow ((ht h' hh').isLinalg_of_result hres) hkeep
      obtain ⟨item, hv⟩ := Option.ne_none_iff_exists'.1 hv
      rcases Env.bind_cases hv with hv | ⟨t', hres', -⟩
      · exact henv.made h' hh' v t hres (hv ▸ Option.some_ne_none item)
      · exact hr.eq_of_result hh hh' hres' hres ▸ hfit
  · have hkeep : ∀ v item, env v = some item → env.setAll h.inductionVars is v = some item :=
      fun v item hv => (env.setAll_of_not_mem fun hm => by
        rw [hun v (List.mem_append_right _ hm)] at hv; cases hv).trans hv
    have hold : ∀ h' ∈ c.heads, ∀ v t item, h'.result = some (v, t) →
        env.setAll h.inductionVars is v = some item → env v = some item := by
      intro h' hh' v t item hres hv
      rcases Env.setAll_cases hv with hv | ⟨n, hn, -⟩
      · exact hv
      · obtain ⟨i, hi⟩ := List.mem_iff_getElem?.1 (List.of_mem_zip hn).1
        have he := hr.var hh hi
        rw [hr.result hh' hres] at he
        simp at he
    refine ⟨hr.typed_setAll hh henv.typed is,
      henv.computed.grow hkeep fun h' hh' v t item hres hv => .inl (hold h' hh' v t item hres hv),
      henv.rooted.setAll _ is, fun h' hh' v t hres hv => ?_⟩
    obtain ⟨item, hv⟩ := Option.ne_none_iff_exists'.1 hv
    refine (henv.made h' hh' v t hres ?_).grow ((ht h' hh').isLinalg_of_result hres) hkeep
    exact hold h' hh' v t item hres hv ▸ Option.some_ne_none item
  · intro h hh v t item hres hv
    rw [hr.unbound_entry v (List.mem_flatMap.2 ⟨h, hh, by simp [Node.defined, hres]⟩)] at hv
    cases hv
  · intro h hh v t hres hv
    exact (hv (hr.unbound_entry v (List.mem_flatMap.2 ⟨h, hh, by simp [Node.defined, hres]⟩))).elim

end KernelLowering
