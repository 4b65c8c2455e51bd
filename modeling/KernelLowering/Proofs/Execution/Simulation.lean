import KernelLowering.Meaning.Execution
import KernelLowering.Proofs.Arena.Spine
import KernelLowering.Proofs.Simulation.Renaming

namespace KernelLowering

namespace Effect

structure Refines (e e' : Effect) : Prop where
  kind : e'.kind = e.kind
  operands : List.Forall₂ (fun o o' => ∀ x, o = some x → o' = some x) e.operands e'.operands

theorem Refines.refl (e : Effect) : e.Refines e :=
  ⟨rfl, List.forall₂_same.2 fun _ _ _ h => h⟩

theorem forall₂_known_trans {os os' os'' : List (Option Shown)}
    (h : List.Forall₂ (fun o o' => ∀ x, o = some x → o' = some x) os os')
    (h' : List.Forall₂ (fun o o' => ∀ x, o = some x → o' = some x) os' os'') :
    List.Forall₂ (fun o o' => ∀ x, o = some x → o' = some x) os os'' := by
  induction h generalizing os'' with
  | nil => exact h'
  | cons ho _ ih =>
    cases h' with
    | cons ho' hos' => exact .cons (fun x hx => ho' x (ho x hx)) (ih hos')

theorem Refines.trans {e e' e'' : Effect} (h : e.Refines e') (h' : e'.Refines e'') :
    e.Refines e'' :=
  ⟨h'.kind.trans h.kind, forall₂_known_trans h.operands h'.operands⟩

theorem eq_of_known {os os' : List (Option Shown)}
    (h : List.Forall₂ (fun o o' => ∀ x, o = some x → o' = some x) os os')
    (hc : ∀ o ∈ os, o.isSome) : os' = os := by
  induction h with
  | nil => rfl
  | cons ho _ ih =>
    rw [List.forall_mem_cons] at hc
    obtain ⟨x, rfl⟩ := Option.isSome_iff_exists.1 hc.1
    rw [ho x rfl, ih hc.2]

theorem Refines.eq_of_complete {e e' : Effect} (h : e.Refines e') (hc : e.Complete) : e' = e := by
  obtain ⟨_, operands⟩ := e
  obtain ⟨_, operands'⟩ := e'
  obtain ⟨rfl, hops⟩ := h
  exact congrArg (Effect.mk _) (eq_of_known hops hc)

/-- One after the other, the second effects are the first with more of their operands known. -/
abbrev AllRefine : List Effect → List Effect → Prop := List.Forall₂ Refines

theorem AllRefine.refl (es : List Effect) : AllRefine es es := List.forall₂_same.2 fun e _ => .refl e

theorem AllRefine.trans {es es' es'' : List Effect} (h : AllRefine es es')
    (h' : AllRefine es' es'') : AllRefine es es'' := by
  induction h generalizing es'' with
  | nil => exact h'
  | cons he _ ih =>
    cases h' with
    | cons he' hes' => exact .cons (he.trans he') (ih hes')

theorem AllRefine.eq_of_complete {es es' : List Effect} (h : AllRefine es es')
    (hc : ∀ e ∈ es, e.Complete) : es' = es := by
  induction h with
  | nil => rfl
  | cons he _ ih =>
    rw [List.forall_mem_cons] at hc
    rw [he.eq_of_complete hc.1, ih hc.2]

end Effect

section Renaming

variable {σ : ValueId → ValueId} {data data' : Data} {h : Node}

def Data.Keeps (σ : ValueId → ValueId) (data data' : Data) (vs : List ValueId) : Prop :=
  ∀ v ∈ vs, ∀ d, data v = some d → data' (σ v) = some d

theorem Data.Keeps.starts {w : Window} {supplied : List ValueId} {is : List Int}
    (hk : data.Keeps σ data' supplied) (hs : data.starts w supplied = some is) :
    data'.starts w (supplied.map σ) = some is := by
  have hmem : ∀ v, .supplied v ∈ Offset.supply w.offsets supplied → v ∈ supplied :=
    fun _ => Offset.mem_of_supplied
  rw [Data.starts] at hs ⊢
  rw [Offset.supply_map]
  generalize Offset.supply w.offsets supplied = offsets at hs hmem
  induction offsets generalizing is with
  | nil => exact hs
  | cons o offsets ih =>
    simp only [List.mapM_cons, List.map_cons, Option.bind_eq_bind, Option.bind_eq_some_iff,
      Option.pure_def, Option.some.injEq] at hs ⊢
    obtain ⟨i, hi, is, his, rfl⟩ := hs
    refine ⟨i, ?_, is, ih his fun v hv => hmem v (List.mem_cons_of_mem o hv), rfl⟩
    cases o with
    | static value => exact hi
    | supplied v =>
      have hv := hmem v List.mem_cons_self
      exact Data.index?_eq_some.2 (hk v hv _ (Data.index?_eq_some.1 hi))
    | missing => cases hi

theorem Node.datum_rename {turns turns' : Turns} {d : Datum} (hk : data.Keeps σ data' h.operands)
    (hturns : ∀ v ∈ h.defined, turns' v = turns v) (hd : h.datum turns data = some d) :
    (h.rename σ).datum turns' data' = some d := by
  obtain ⟨op, kind, operands, result, marker, vars⟩ := h
  cases kind with
  | constant value => exact hd
  | addIndex =>
    obtain _ | ⟨x, _ | ⟨y, rest⟩⟩ := operands
    · cases hd
    · cases hd
    · simp only [datum] at hd
      split at hd
      · rename_i i j hi hj
        simp only [datum, rename, List.map_cons, hk x (by simp) _ hi, hk y (by simp) _ hj]
        exact hd
      · cases hd
  | alloc =>
    obtain _ | ⟨v, _ | type⟩ := result
    · cases hd
    · cases hd
    · simp only [datum, rename, hturns v (by simp [defined])]
      exact hd
  | view =>
    obtain _ | ⟨x, rest⟩ := operands
    · cases hd
    obtain _ | ⟨v, _ | type⟩ := result
    · cases hd
    · cases hd
    · simp only [datum] at hd
      split at hd
      · rename_i hx
        simp only [datum, rename, List.map_cons, hk x (by simp) _ hx]
        exact hd
      · cases hd
  | subView w =>
    obtain _ | ⟨x, supplied⟩ := operands
    · cases hd
    · simp only [datum] at hd
      split at hd
      · rename_i hx hs
        have hstarts := Data.Keeps.starts (fun v hv => hk v (List.mem_cons_of_mem x hv)) hs
        simp only [datum, rename, List.map_cons, hk x (by simp) _ hx, hstarts]
        exact hd
      · cases hd
  | _ => cases hd

theorem Node.effects_rename (hk : data.Keeps σ data' h.operands) :
    Effect.AllRefine (h.effects data) ((h.rename σ).effects data') := by
  rw [Node.effects, Node.effects, show (h.rename σ).kind = h.kind from rfl]
  split
  · refine .cons ⟨rfl, ?_⟩ .nil
    simp only [Node.rename, List.map_map, List.forall₂_map_left_iff, List.forall₂_map_right_iff]
    refine List.forall₂_same.2 fun v hv x hx => ?_
    obtain ⟨d, hd, rfl⟩ := Option.map_eq_some_iff.1 hx
    exact Option.map_eq_some_iff.2 ⟨d, hk v hv d hd, rfl⟩
  · exact .nil

theorem Code.allocations_rename (x : Code) (v : ValueId) :
    (x.rename σ).allocations v = x.allocations v := by
  induction x with
  | nil => rfl
  | node h body rest ihb ihr =>
    rw [Code.rename, Code.allocations, Code.allocations, ihb, ihr]
    rfl

end Renaming

def Code.Fresh (x : Code) (data : Data) : Prop := ∀ v ∈ x.defined, data v = none

structure Change where
  rename : ValueId → ValueId
  kept : ValueId → Prop
  gone : ValueId → Prop
  holds : Data → Prop

namespace Change

variable {p : Change} {x x' y y' : Code} {h : Node}

def Links (p : Change) (data data' : Data) : Prop :=
  ∀ v d, p.kept v → data v = some d → data' (p.rename v) = some d

structure Simulates (p : Change) (x y : Code) : Prop where
  allocations : ∀ v, ¬ p.gone v → y.allocations v = x.allocations v
  runs : ∀ (turns turns' : Turns) (data data' : Data), x.Fresh data → y.Fresh data' →
    p.Links data data' → (∀ v, ¬ p.gone v → turns' v = turns v) → p.holds data →
      Effect.AllRefine (x.effects turns data) (y.effects turns' data') ∧
        p.Links (x.settle turns data) (y.settle turns' data') ∧ p.holds (x.settle turns data)

structure Leaves (p : Change) (h : Node) : Prop where
  operands : ∀ v ∈ h.operands, p.kept v
  defined : ∀ v ∈ h.defined, p.rename v = v ∧ ¬ p.gone v
  settle : ∀ turns data, (∀ v ∈ h.defined, data v = none) → p.holds data →
    p.holds (h.settle turns data)
  setAll : ∀ is data, (∀ v ∈ h.defined, data v = none) → p.holds data →
    p.holds (data.setAll h.inductionVars is)

theorem Simulates.nil : p.Simulates .nil .nil where
  allocations _ _ := rfl
  runs _ _ _ _ _ _ hlinks _ hholds := ⟨.nil, hlinks, hholds⟩

theorem fresh_append {data : Data} : (x ++ y).Fresh data ↔ x.Fresh data ∧ y.Fresh data := by
  simp only [Code.Fresh, Code.defined_append, List.forall_mem_append]

theorem fresh_settle {turns : Turns} {data : Data} (h : y.Fresh data)
    (hnd : (x ++ y).defined.Nodup) : y.Fresh (x.settle turns data) := by
  intro v hv
  rw [Code.defined_append] at hnd
  have hx : v ∉ x.defined := fun hx => (List.nodup_append'.1 hnd).2.2 hx hv
  exact (x.settle_of_not_mem turns data hx).trans (h v hv)

theorem Simulates.append (hx : p.Simulates x y) (hx' : p.Simulates x' y')
    (hnd : (x ++ x').defined.Nodup) (hnd' : (y ++ y').defined.Nodup) :
    p.Simulates (x ++ x') (y ++ y') where
  allocations v hv := by
    rw [Code.allocations_append, Code.allocations_append, hx.allocations v hv,
      hx'.allocations v hv]
  runs turns turns' data data' hfresh hfresh' hlinks hturns hholds := by
    obtain ⟨hfx, hfx'⟩ := fresh_append.1 hfresh
    obtain ⟨hfy, hfy'⟩ := fresh_append.1 hfresh'
    obtain ⟨heffects, hlinks, hholds⟩ := hx.runs _ _ _ _ hfx hfy hlinks hturns hholds
    obtain ⟨heffects', hlinks, hholds⟩ := hx'.runs _ _ _ _ (fresh_settle hfx' hnd)
      (fresh_settle hfy' hnd') hlinks
      (fun v hv => congrArg₂ (· + ·) (hturns v hv) (hx.allocations v hv)) hholds
    rw [Code.effects_append, Code.effects_append, Code.settle_append, Code.settle_append]
    exact ⟨List.rel_append heffects heffects', hlinks, hholds⟩

theorem Links.keeps {data data' : Data} {vs : List ValueId} (hl : p.Links data data')
    (hvs : ∀ v ∈ vs, p.kept v) : data.Keeps p.rename data' vs :=
  fun v hv d hd => hl v d (hvs v hv) hd

theorem Leaves.links {turns turns' : Turns} {data data' : Data} (hh : p.Leaves h)
    (hfresh : ∀ v ∈ h.defined, data' v = none) (hlinks : p.Links data data')
    (hturns : ∀ v, ¬ p.gone v → turns' v = turns v) :
    p.Links (h.settle turns data) ((h.rename p.rename).settle turns' data') := by
  intro u d hkept hu
  have hold : data u = some d →
      (h.rename p.rename).settle turns' data' (p.rename u) = some d := by
    intro hu
    have hu' := hlinks u d hkept hu
    refine (Node.settle_of_not_mem turns' data' fun hm => ?_).trans hu'
    rw [hfresh _ hm] at hu'
    cases hu'
  rcases Node.settle_cases hu with hu | ⟨t, hres, hd⟩
  · exact hold hu
  · have hmem : u ∈ h.defined := by simp [Node.defined, hres]
    have hd' := Node.datum_rename (hlinks.keeps hh.operands)
      (fun v hv => hturns v (hh.defined v hv).2) hd
    rw [(hh.defined u hmem).1, Node.settle, show (h.rename p.rename).result = h.result from rfl,
      hres]
    exact (Data.set_self _ _ _).trans hd'

theorem Leaves.links_setAll {data data' : Data} (hh : p.Leaves h)
    (hfresh : ∀ v ∈ h.defined, data' v = none) (hlinks : p.Links data data') (is : List Int) :
    p.Links (data.setAll h.inductionVars is) (data'.setAll h.inductionVars is) := by
  have hsub : ∀ v ∈ h.inductionVars, v ∈ h.defined := fun v hv => List.mem_append_right _ hv
  intro u d hkept hu
  rcases data.setAll_cases h.inductionVars is u with hset | ⟨hu', i, hset⟩
  · have hu' := hlinks u d hkept ((hset data).symm.trans hu)
    refine (data'.setAll_of_not_mem fun hm => ?_).trans hu'
    rw [hfresh _ (hsub _ hm)] at hu'
    cases hu'
  · rw [(hh.defined u (hsub u hu')).1, hset data']
    exact (hset data).symm.trans hu

theorem Simulates.node (hh : p.Leaves h) (hbody : p.Simulates x y) (hrest : p.Simulates x' y')
    (hnd : (Code.node h x x').defined.Nodup)
    (hnd' : (Code.node (h.rename p.rename) y y').defined.Nodup) :
    p.Simulates (.node h x x') (.node (h.rename p.rename) y y') where
  allocations v hv := by
    show h.allocations v + h.kind.iterations.length * y.allocations v + y'.allocations v = _
    rw [hbody.allocations v hv, hrest.allocations v hv]
    rfl
  runs turns turns' data data' hfresh hfresh' hlinks hturns hholds := by
    simp only [Code.Fresh, Code.defined_node, List.forall_mem_append] at hfresh hfresh'
    rw [Code.defined_node] at hnd hnd'
    obtain ⟨-, -, hdis⟩ := List.nodup_append'.1 hnd
    obtain ⟨-, -, hdis'⟩ := List.nodup_append'.1 hnd'
    have hbehind := hrest.runs
      (fun v => turns v + (h.allocations v + h.kind.iterations.length * x.allocations v))
      (fun v => turns' v + (h.allocations v + h.kind.iterations.length * y.allocations v)) _ _
      (fun v hv => (h.settle_of_not_mem turns data fun hd =>
        hdis hd (List.mem_append_right _ hv)).trans (hfresh.2.2 v hv))
      (fun v hv => (Node.settle_of_not_mem turns' data' fun hd =>
        hdis' hd (List.mem_append_right _ hv)).trans (hfresh'.2.2 v hv))
      (hh.links hfresh'.1 hlinks hturns)
      (fun v hv => by rw [hturns v hv, hbody.allocations v hv])
      (hh.settle turns data hfresh.1 hholds)
    refine ⟨?_, hbehind.2⟩
    refine List.rel_append (List.rel_append (Node.effects_rename (hlinks.keeps hh.operands)) ?_)
      hbehind.1
    refine List.rel_flatMap (List.forall₂_same.2 fun _ _ => rfl) ?_
    rintro ⟨i, n⟩ _ rfl
    have hout : ∀ v ∈ x.defined, v ∉ h.inductionVars := fun v hv hvar =>
      hdis (List.mem_append_right _ hvar) (List.mem_append_left _ hv)
    have hout' : ∀ v ∈ y.defined, v ∉ h.inductionVars := fun v hv hvar =>
      hdis' (List.mem_append_right _ hvar) (List.mem_append_left _ hv)
    exact (hbody.runs _ _ _ _
      (fun v hv => (data.setAll_of_not_mem (hout v hv)).trans (hfresh.2.1 v hv))
      (fun v hv => (data'.setAll_of_not_mem (hout' v hv)).trans (hfresh'.2.1 v hv))
      (hh.links_setAll hfresh'.1 hlinks i)
      (fun v hv => by rw [hturns v hv, hbody.allocations v hv])
      (hh.setAll i data hfresh.1 hholds)).1

theorem simulates_rename (hx : ∀ h ∈ x.heads, p.Leaves h) (hnd : x.defined.Nodup) :
    p.Simulates x (x.rename p.rename) := by
  induction x with
  | nil => exact .nil
  | node h body rest ihb ihr =>
    have hsame : ∀ x : Code, (x.rename p.rename).defined = x.defined := fun x => by
      rw [Code.defined, Code.heads_rename, List.flatMap_map]
      rfl
    have hnd' : (Code.node (h.rename p.rename) (body.rename p.rename)
        (rest.rename p.rename)).defined.Nodup := hsame (.node h body rest) ▸ hnd
    simp only [Code.heads, List.forall_mem_cons, List.forall_mem_append] at hx
    have hinner := hnd
    rw [Code.defined_node] at hinner
    obtain ⟨-, hinner, -⟩ := List.nodup_append'.1 hinner
    obtain ⟨hndb, hndr, -⟩ := List.nodup_append'.1 hinner
    exact .node hx.1 (ihb hx.2.1 hndb) (ihr hx.2.2 hndr) hnd hnd'

end Change

end KernelLowering
