import KernelLowering.Proofs.Arena.Spine
import KernelLowering.Proofs.Simulation.Mirror

namespace KernelLowering

namespace Code

def Unbound (x : Code) (env : Env) : Prop := ∀ v ∈ x.defined, env v = none

theorem unbound_after {x y : Code} {env : Env} (h : y.Unbound env)
    (hnd : (x ++ y).defined.Nodup) : y.Unbound (x.after env) := by
  intro v hv
  rw [defined_append] at hnd
  have hx : v ∉ x.defined := fun hx => (List.nodup_append'.1 hnd).2.2 hx hv
  exact (x.after_of_not_mem env hx).trans (h v hv)

theorem unbound_append {x y : Code} {env : Env} :
    (x ++ y).Unbound env ↔ x.Unbound env ∧ y.Unbound env := by
  simp only [Unbound, defined_append, List.forall_mem_append]

end Code

section Races

variable {x y : Code} {env : Env}

@[simp] theorem Code.allocated_append (x y : Code) : (x ++ y).allocated = x.allocated ++ y.allocated := by
  rw [allocated, heads_append, List.flatMap_append]
  rfl

@[simp] theorem Code.allocated_rename (σ : ValueId → ValueId) (x : Code) :
    (x.rename σ).allocated = x.allocated := by
  rw [allocated, heads_rename, List.flatMap_map]
  rfl

theorem Code.allocated_node (h : Node) (body rest : Code) :
    (Code.node h body rest).allocated = h.allocated ++ (body.allocated ++ rest.allocated) := by
  rw [allocated, heads, List.flatMap_cons, List.flatMap_append]
  rfl

theorem Node.mem_allocated_of_actions {h : Node} {v : ValueId} (ha : .alloc v ∈ h.actions env) :
    v ∈ h.allocated := by
  unfold Node.actions at ha
  split at ha
  · rename_i hk hres
    obtain rfl := Action.alloc.inj (List.mem_singleton.1 ha)
    simp [allocated, hk, defined, hres]
  · split at ha <;> simp at ha
  · split at ha <;> simp at ha
  · cases ha

theorem Code.mem_defined_of_allocated {v : ValueId} (hv : v ∈ x.allocated) : v ∈ x.defined := by
  obtain ⟨h, hh, hv⟩ := List.mem_flatMap.1 hv
  unfold Node.allocated at hv
  split at hv
  · exact List.mem_flatMap.2 ⟨h, hh, hv⟩
  · cases hv

theorem Code.mem_body_of_allocated {h : Node} {v : ValueId} (hh : h.allocated = [])
    (hv : v ∈ (Code.node h x .nil).allocated) : v ∈ x.defined := by
  rw [allocated_node, hh, List.nil_append, List.mem_append] at hv
  exact hv.elim mem_defined_of_allocated fun hv => nomatch hv

theorem Code.mem_allocated_of_trace {v : ValueId} (ha : .alloc v ∈ x.trace env) : v ∈ x.allocated := by
  induction x generalizing env with
  | nil => cases ha
  | node h body rest ihb ihr =>
    rw [allocated_node]
    simp only [trace, List.mem_append, List.mem_flatMap] at ha ⊢
    rcases ha with (ha | ⟨i, -, ha⟩) | ha
    · exact .inl (h.mem_allocated_of_actions ha)
    · exact .inr (.inl (ihb ha))
    · exact .inr (.inr (ihr ha))

theorem Code.raceFree_append : (x ++ y).RaceFree env ↔ x.RaceFree env ∧ y.RaceFree (x.after env) := by
  induction x generalizing env with
  | nil => simp [RaceFree, after]
  | node h body rest _ ih => simp only [node_append, RaceFree, ih, after, and_assoc]

theorem Code.raceFree_of_loopless (h : ∀ hd ∈ x.heads, hd.kind.isLoop = false) (env : Env) :
    x.RaceFree env := by
  induction x generalizing env with
  | nil => trivial
  | node hd body rest ihb ihr =>
    simp only [heads, List.forall_mem_cons, List.forall_mem_append] at h
    refine ⟨fun hp => ?_, fun i _ => ihb h.2.1 _, ihr h.2.2 _⟩
    cases hk : hd.kind <;> simp_all [OpKind.isParallel, OpKind.isLoop]

end Races

namespace Spine

def defined (k : Spine) : List ValueId := k.heads.flatMap Node.defined

theorem defined_plug (k : Spine) (x : Code) : (k.plug x).defined.Perm (x.defined ++ k.defined) := by
  rw [Code.defined, defined, Code.defined, ← List.flatMap_append]
  exact (k.heads_plug x).flatMap_right _

theorem nodup_defined_plug {k : Spine} {x : Code} (h : (k.plug x).defined.Nodup) :
    x.defined.Nodup :=
  (List.nodup_append'.1 ((k.defined_plug x).nodup_iff.1 h)).1

end Spine

structure Passage where
  rename : ValueId → ValueId
  link : ValueId → Item → Option Item → Prop
  before : Node → Env → Prop
  after : Node → Env → Prop
  pairing : Pairing
  oneToOne : pairing.OneToOne

namespace Passage

variable {p : Passage} {x x' y y' : Code} {h h' : Node}

def Links (p : Passage) (env env' : Env) : Prop :=
  ∀ v item, env v = some item → p.link v item (env' (p.rename v))

structure Carries (p : Passage) (h h' : Node) (env env' : Env) : Prop where
  after : p.after h' env'
  mimics : Mimics p.pairing (h'.actions env') (h.actions env)
  bind : p.Links (h.bind env) (h'.bind env')
  setAll : ∀ i ∈ h.kind.iterations,
    p.Links (env.setAll h.inductionVars i) (env'.setAll h'.inductionVars i)

structure Takes (p : Passage) (h h' : Node) : Prop where
  kind : h'.kind = h.kind
  allocated : ∀ c c', p.pairing c c' → c.1 ∈ h.allocated → c'.1 ∈ h'.allocated
  carries : ∀ env env', (∀ v ∈ h.defined, env v = none) → (∀ v ∈ h'.defined, env' v = none) →
    p.Links env env' → p.before h env → p.Carries h h' env env'

structure Steps (p : Passage) (x y : Code) (env env' : Env) : Prop where
  after : y.Throughout p.after env'
  mimics : Mimics p.pairing (y.trace env') (x.trace env)
  raceFree : x.RaceFree env → y.RaceFree env'
  links : p.Links (x.after env) (y.after env')

structure Passes (p : Passage) (x y : Code) : Prop where
  allocated : ∀ c c', p.pairing c c' → c.1 ∈ x.allocated → c'.1 ∈ y.allocated
  steps : ∀ env env', x.Unbound env → y.Unbound env' → p.Links env env' → x.Throughout p.before env →
    p.Steps x y env env'

theorem passes_nil : p.Passes .nil .nil where
  allocated _ _ _ h := by cases h
  steps _ _ _ _ hlinks _ := ⟨trivial, .nil, fun _ => trivial, hlinks⟩

theorem Passes.append (hx : p.Passes x y) (hx' : p.Passes x' y') (hnd : (x ++ x').defined.Nodup)
    (hnd' : (y ++ y').defined.Nodup) : p.Passes (x ++ x') (y ++ y') where
  allocated c c' hc := by
    rw [Code.allocated_append, Code.allocated_append, List.mem_append, List.mem_append]
    exact Or.imp (hx.allocated c c' hc) (hx'.allocated c c' hc)
  steps env env' hun hun' hlinks hbefore := by
    obtain ⟨hunx, hunx'⟩ := Code.unbound_append.1 hun
    obtain ⟨huny, huny'⟩ := Code.unbound_append.1 hun'
    obtain ⟨hbx, hbx'⟩ := Code.throughout_append.1 hbefore
    have hfirst := hx.steps env env' hunx huny hlinks hbx
    have hsecond := hx'.steps _ _ (Code.unbound_after hunx' hnd) (Code.unbound_after huny' hnd')
      hfirst.links hbx'
    constructor
    · exact Code.throughout_append.2 ⟨hfirst.after, hsecond.after⟩
    · rw [Code.trace_append, Code.trace_append]
      exact hfirst.mimics.append hsecond.mimics
    · rw [Code.raceFree_append, Code.raceFree_append]
      exact And.imp hfirst.raceFree hsecond.raceFree
    · rw [Code.after_append, Code.after_append]
      exact hsecond.links

theorem independent {runs : List (List Int)} {env env' : List Int → Env} (pick : List Int → List Int)
    (halloc : ∀ c c', p.pairing c c' → c.1 ∈ x.allocated → c'.1 ∈ y.allocated)
    (hcovers : ∀ i ∈ runs, Covers p.pairing (y.trace (env' (pick i))) (x.trace (env i)))
    (h : x.Independent runs env) : y.Independent (runs.map pick) env' := by
  intro _ hi' _ hj' hne c' hchanges haccesses
  obtain ⟨i, hi, rfl⟩ := List.mem_map.1 hi'
  obtain ⟨j, hj, rfl⟩ := List.mem_map.1 hj'
  have hne : i ≠ j := fun e => hne (congrArg pick e)
  rcases (hcovers i hi).changes c' hchanges with ha | ⟨c, hc, hchanges⟩
  · exact Code.mem_allocated_of_trace ha
  rcases (hcovers j hj).accesses c' haccesses with ha | ⟨d, hd, haccesses⟩
  · exact Code.mem_allocated_of_trace ha
  obtain rfl : c = d := (p.oneToOne _ _ _ _ hc hd).2 rfl
  exact halloc c c' hc (h i hi j hj hne c hchanges haccesses)

theorem Passes.node (hh : p.Takes h h') (hbody : p.Passes x y) (hrest : p.Passes x' y')
    (hnd : (Code.node h x x').defined.Nodup) (hnd' : (Code.node h' y y').defined.Nodup) :
    p.Passes (.node h x x') (.node h' y y') where
  allocated c c' hc := by
    simp only [Code.allocated_node, List.mem_append]
    exact Or.imp (hh.allocated c c' hc) (Or.imp (hbody.allocated c c' hc) (hrest.allocated c c' hc))
  steps env env' hun hun' hlinks hbefore := by
    simp only [Code.Unbound, Code.defined_node, List.forall_mem_append] at hun hun'
    rw [Code.defined_node] at hnd hnd'
    obtain ⟨-, -, hdis⟩ := List.nodup_append'.1 hnd
    obtain ⟨-, -, hdis'⟩ := List.nodup_append'.1 hnd'
    obtain ⟨hbh, hbbody, hbrest⟩ := hbefore
    have hcarries := hh.carries env env' hun.1 hun'.1 hlinks hbh
    have hinside : ∀ i ∈ h.kind.iterations,
        p.Steps x y (env.setAll h.inductionVars i) (env'.setAll h'.inductionVars i) := by
      intro i hi
      have hout : ∀ v ∈ x.defined, v ∉ h.inductionVars := fun v hv hvar =>
        hdis (List.mem_append_right _ hvar) (List.mem_append_left _ hv)
      have hout' : ∀ v ∈ y.defined, v ∉ h'.inductionVars := fun v hv hvar =>
        hdis' (List.mem_append_right _ hvar) (List.mem_append_left _ hv)
      exact hbody.steps _ _ (fun v hv => (env.setAll_of_not_mem (hout v hv)).trans (hun.2.1 v hv))
        (fun v hv => (env'.setAll_of_not_mem (hout' v hv)).trans (hun'.2.1 v hv))
        (hcarries.setAll i hi) (hbbody i hi)
    have hbehind := hrest.steps _ _
      (fun v hv => (h.bind_of_not_mem env fun hd =>
        hdis hd (List.mem_append_right _ hv)).trans (hun.2.2 v hv))
      (fun v hv => (h'.bind_of_not_mem env' fun hd =>
        hdis' hd (List.mem_append_right _ hv)).trans (hun'.2.2 v hv)) hcarries.bind hbrest
    refine ⟨⟨hcarries.after, ?_, hbehind.after⟩, ?_, ?_, hbehind.links⟩
    · rw [hh.kind]
      exact fun i hi => (hinside i hi).after
    · simp only [Code.trace, hh.kind]
      exact (hcarries.mimics.append (Mimics.flatMap fun i hi => (hinside i hi).mimics)).append
        hbehind.mimics
    · rintro ⟨hparallel, hin, hafter⟩
      simp only [Code.RaceFree, hh.kind]
      refine ⟨fun hp => ?_, fun i hi => (hinside i hi).raceFree (hin i hi), hbehind.raceFree hafter⟩
      have hindependent : y.Independent (h.kind.iterations.map id) fun i => env'.setAll h'.inductionVars i :=
        independent id hbody.allocated (fun i hi => (hinside i hi).mimics.covers) (hparallel hp)
      rwa [List.map_id] at hindependent

theorem passes_rename (hx : ∀ h ∈ x.heads, p.Takes h (h.rename p.rename))
    (hnd : x.defined.Nodup) : p.Passes x (x.rename p.rename) := by
  induction x with
  | nil => exact passes_nil
  | node h body rest ihb ihr =>
    have hsame : ∀ x : Code, (x.rename p.rename).defined = x.defined := fun x => by
      rw [Code.defined, Code.heads_rename, List.flatMap_map]
      rfl
    have hnd' : (Code.node (h.rename p.rename) (body.rename p.rename)
        (rest.rename p.rename)).defined.Nodup := hsame (.node h body rest) ▸ hnd
    simp only [Code.heads, List.forall_mem_cons, List.forall_mem_append] at hx
    have hinner := hnd
    rw [Code.defined_node] at hinner
    obtain ⟨-, hinner, -⟩ := List.nodup_append'.1 hinner
    obtain ⟨hndb, hndr, -⟩ := List.nodup_append'.1 hinner
    exact .node hx.1 (ihb hx.2.1 hndb) (ihr hx.2.2 hndr) hnd hnd'

theorem Passes.plug {k : Spine} (hx : p.Passes x y)
    (hk : ∀ h ∈ k.heads, p.Takes h (h.rename p.rename)) (hnd : (k.plug x).defined.Nodup)
    (hnd' : ((k.rename p.rename).plug y).defined.Nodup) :
    p.Passes (k.plug x) ((k.rename p.rename).plug y) := by
  induction k generalizing x y with
  | body => exact hx
  | inside h b a k ih =>
    simp only [Spine.heads, List.append_assoc, List.cons_append, List.forall_mem_append,
      List.forall_mem_cons] at hk
    obtain ⟨hb, hh, ha, hk⟩ := hk
    rw [Spine.plug] at hnd
    rw [Spine.rename, Spine.plug] at hnd'
    have hinner := Spine.nodup_defined_plug hnd
    have hinner' := Spine.nodup_defined_plug hnd'
    have hpieces := hinner
    rw [Code.defined_append] at hpieces
    obtain ⟨hndb, hndh, -⟩ := List.nodup_append'.1 hpieces
    have hpieces' := hinner'
    rw [Code.defined_append] at hpieces'
    obtain ⟨-, hndh', -⟩ := List.nodup_append'.1 hpieces'
    have hnda := hndh
    rw [Code.defined_node] at hnda
    obtain ⟨-, hnda, -⟩ := List.nodup_append'.1 hnda
    obtain ⟨-, hnda, -⟩ := List.nodup_append'.1 hnda
    exact ih ((passes_rename hb hndb).append (.node hh hx (passes_rename ha hnda) hndh hndh')
      hinner hinner') hk hnd hnd'

end Passage

end KernelLowering
