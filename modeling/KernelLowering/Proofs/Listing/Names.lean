import KernelLowering.Proofs.Execution.Scope
import KernelLowering.Proofs.Listing.Lines
import KernelLowering.Proofs.Scope.Splices
import KernelLowering.Proofs.Simulation.Definitions

namespace KernelLowering

namespace Naming

variable {arity : Nat} {known : List ValueId} {v : ValueId}

theorem name_append (behind : List ValueId) (h : v.index < arity ∨ v ∈ known) :
    (⟨arity, known ++ behind⟩ : Naming).name v = (⟨arity, known⟩ : Naming).name v := by
  unfold name
  split
  · rfl
  · obtain ⟨i, hi⟩ : ∃ i, known.idxOf? v = some i :=
      Option.ne_none_iff_exists'.1 fun hnone => List.idxOf?_eq_none_iff.1 hnone (h.resolve_left ‹_›)
    have happend : (known ++ behind).idxOf? v = known.idxOf? v := by
      change (known ++ behind).findIdx? (· == v) = _
      rw [List.findIdx?_append]
      change (known.idxOf? v).or _ = _
      rw [hi, Option.some_or]
    simp only [happend]

theorem defineAll_eq {vs : List ValueId} (hnd : (known ++ vs).Nodup) (h : ∀ v ∈ vs, ¬ v.index < arity) :
    (⟨arity, known⟩ : Naming).defineAll vs = ⟨arity, known ++ vs⟩ := by
  induction vs generalizing known with
  | nil => rw [List.append_nil]; rfl
  | cons v vs ih =>
    have hv : v ∉ known := fun hmem => (List.nodup_append'.1 hnd).2.2 hmem List.mem_cons_self
    have hdefine : (⟨arity, known⟩ : Naming).define v = ⟨arity, known ++ [v]⟩ := by
      simp [define, hv, h v List.mem_cons_self]
    rw [List.append_cons] at hnd ⊢
    rw [← ih hnd fun u hu => h u (List.mem_cons_of_mem _ hu), ← hdefine]
    rfl

def value (names : Naming) : Name → ValueId
  | .argument position => ⟨position⟩
  | .numbered number => names.defined[number]?.getD ⟨number⟩
  | .undefined v => v

theorem value_name (names : Naming) (v : ValueId) : names.value (names.name v) = v := by
  unfold name
  split
  · rfl
  · split
    · rename_i number hnumber
      obtain ⟨hlt, hv, -⟩ := List.idxOf?_eq_some_iff.1 hnumber
      rw [value, List.getElem?_eq_getElem hlt, Option.getD_some, hv]
    · rfl

end Naming

namespace Function

variable {f : Function} {names inner : Naming} {op : OpId} {o : Operation}
  {operands : List KernelLowering.Typed} {result : Option KernelLowering.Typed} {vars : List Name}
  {s : Statement}

theorem typed_eq_ok {v : ValueId} {a : KernelLowering.Typed} :
    f.typed names v = .ok a ↔ names.name v = a.name ∧ f.typeOf v = .ok a.type := by
  unfold typed
  cases f.typeOf v with
  | error e => simp [bind, Except.bind]
  | ok t =>
    obtain ⟨name, type⟩ := a
    simp [bind, Except.bind, pure, Except.pure]

theorem map_name_eq {r : Option ValueId} (h : r.map (f.typed inner) = result.map .ok) :
    r.map inner.name = result.map (·.name) := by
  cases r with
  | none => rw [Option.map_eq_none_iff.1 h.symm]; rfl
  | some v =>
    cases result with
    | none => cases h
    | some a => rw [Option.map_some, Option.map_some, (typed_eq_ok.1 (Option.some.inj h)).1]

theorem map_names_eq {vs : List ValueId}
    (h : List.Forall₂ (fun v a => f.typed names v = .ok a) vs operands) :
    vs.map names.name = operands.map (·.name) := by
  induction h with
  | nil => rfl
  | cons hv _ ih => rw [List.map_cons, List.map_cons, (typed_eq_ok.1 hv).1, ih]

theorem statement_eq (h : Line o.kind operands result o.marker vars s)
    (hoperands : List.Forall₂ (fun v a => f.typed names v = .ok a) o.operands operands)
    (hop : f.op op = .ok o) (hresult : o.result.map (f.typed inner) = result.map .ok)
    (hvars : o.inductionVars.map inner.name = vars) : f.statement names inner op o = .ok s := by
  obtain ⟨kind, vs, r, marker, region, is, parent, live⟩ := o
  simp only at h hoperands hresult hvars
  cases h with
  | constant value htype => simp [statement, map_name_eq hresult, pure, Except.pure]
  | addIndex lhs rhs htype =>
    obtain ⟨v, _, hlhs, hrest, rfl⟩ := List.forall₂_cons_right_iff.1 hoperands
    obtain ⟨w, _, hrhs, hnil, rfl⟩ := List.forall₂_cons_right_iff.1 hrest
    simp [statement, Operation.operand, map_name_eq hresult, (typed_eq_ok.1 hlhs).1,
      (typed_eq_ok.1 hrhs).1, pure, Except.pure]
  | alloc a =>
    obtain ⟨v, rfl, hv⟩ := Option.map_eq_some_iff.1 hresult
    simp [statement, Function.result, hop, hv, pure, Except.pure]
  | dealloc buffer =>
    obtain ⟨v, _, hv, hnil, rfl⟩ := List.forall₂_cons_right_iff.1 hoperands
    simp [statement, Operation.operand, hv]
  | view a source =>
    obtain ⟨v, _, hv, hnil, rfl⟩ := List.forall₂_cons_right_iff.1 hoperands
    obtain ⟨w, rfl, hw⟩ := Option.map_eq_some_iff.1 hresult
    simp [statement, Operation.operand, Function.result, hop, hv, hw, pure, Except.pure]
  | subView window a source hlen =>
    obtain ⟨v, rest, hv, hrest, rfl⟩ := List.forall₂_cons_right_iff.1 hoperands
    obtain ⟨w, rfl, hw⟩ := Option.map_eq_some_iff.1 hresult
    simp [statement, Operation.operand, Operation.offsetOperands, Function.result, hop, hv, hw,
      map_names_eq hrest, pure, Except.pure]
  | copy source destination =>
    obtain ⟨v, _, hv, hrest, rfl⟩ := List.forall₂_cons_right_iff.1 hoperands
    obtain ⟨w, _, hw, hnil, rfl⟩ := List.forall₂_cons_right_iff.1 hrest
    simp [statement, Operation.operand, hv, hw]
  | kernel kind marker inputs output =>
    simp [statement, Fault.mapM_eq_ok.2 hoperands, pure, Except.pure]
  | forLoop var range =>
    obtain ⟨i, rfl, hi⟩ := List.map_eq_singleton_iff.1 hvars
    simp [statement, hi, pure, Except.pure]
  | parallelLoop vars ranges => simp [statement, hvars, pure, Except.pure]
  | call callee arguments => simp [statement, Fault.mapM_eq_ok.2 hoperands]
  | ret => rfl

end Function

structure Node.Legible (h : Node) : Prop where
  operands : h.kind.showsOperands h.operands.length = true
  result : h.kind.showsResult (h.result.map (·.2)) = true
  marker : h.marker = none ∨ ∃ kind, h.kind = .kernel kind
  callee : ∀ callee, h.kind = .call callee → isIdentifier callee = true

def Node.Shows (label : ValueId → KernelLowering.Typed) (h : Node) (s : Statement) : Prop :=
  Line h.kind (h.operands.map label) (h.result.map fun r => ⟨(label r.1).name, r.2⟩) h.marker
    (h.inductionVars.map fun v => (label v).name) s

inductive Code.Lists (label : ValueId → Typed) : Code → Listing → Prop
  | nil : Lists label .nil .nil
  | node {h : Node} {body rest : Code} {s : Statement} {bodyLines restLines : Listing}
      (hs : h.Shows label s) (hbody : body.Lists label bodyLines) (hrest : rest.Lists label restLines) :
      Lists label (.node h body rest) (.line s bodyLines restLines)

theorem Code.Lists.proper {label : ValueId → Typed} {x : Code} {lines : Listing}
    (h : x.Lists label lines) (hx : x.Nested) (hl : ∀ h ∈ x.heads, h.Legible) : lines.Proper := by
  induction h with
  | nil => trivial
  | node hs hbody hrest ihb ihr =>
    simp only [heads, List.forall_mem_cons, List.forall_mem_append] at hl
    obtain ⟨hhead, hlbody, hlrest⟩ := hl
    refine ⟨hs.identified hhead.callee, ?_, ihb hx.2.1 hlbody, ihr hx.2.2 hlrest⟩
    rw [hs.opensBlock]
    refine hx.1.imp_right ?_
    rintro rfl
    cases hbody
    rfl

namespace Function

variable {f : Function} {h : Node} {v : ValueId} {parent : Option OpId} {region : List OpId}
  {before behind : List ValueId}

def naming (f : Function) : Naming := ⟨f.arity, f.code.defined⟩

def label (f : Function) (v : ValueId) : KernelLowering.Typed :=
  ⟨f.naming.name v, ((f.value? v).map (·.type)).getD .index⟩

theorem label_of_value (f : Function) {x : Value} (hx : f.value? v = some x) :
    f.label v = ⟨f.naming.name v, x.type⟩ := by
  rw [label, hx]
  rfl

theorem WellFormed.typed_eq (hf : f.WellFormed) (hbefore : f.code.defined = before ++ behind)
    (hv : v.index < f.arity ∨ v ∈ before) : f.typed ⟨f.arity, before⟩ v = .ok (f.label v) := by
  have hr : f.Represents f.code := hf
  obtain ⟨x, hx⟩ : ∃ x, f.value? v = some x := by
    rcases hv with hv | hv
    · obtain ⟨t, ht⟩ := hr.argument hv
      exact ⟨_, ht⟩
    · exact ⟨_, Array.getElem?_eq_getElem (hr.has_of_mem (hbefore ▸ List.mem_append_left _ hv))⟩
  rw [f.label_of_value hx, typed_eq_ok, naming, hbefore, Naming.name_append behind hv, typeOf,
    value_eq_ok.2 hx]
  exact ⟨rfl, rfl⟩

theorem WellFormed.exists_statement (hf : f.WellFormed) (hh : h ∈ f.code.heads) (hl : h.Legible)
    (hop : f.op? h.op = some (h.record parent region))
    (hbefore : f.code.defined = before ++ h.defined ++ behind)
    (hknown : ∀ v ∈ h.operands, v.index < f.arity ∨ v ∈ before) :
    ∃ s, f.statement ⟨f.arity, before⟩ ⟨f.arity, before ++ h.defined⟩ h.op (h.record parent region) =
      .ok s ∧ h.Shows f.label s := by
  have hr : f.Represents f.code := hf
  have hinner : ∀ v ∈ h.defined, f.typed ⟨f.arity, before ++ h.defined⟩ v = .ok (f.label v) :=
    fun v hv => hf.typed_eq hbefore (.inr (List.mem_append_right _ hv))
  obtain ⟨s, hs⟩ : ∃ s, h.Shows f.label s := by
    refine Line.exists_line ?_ ?_ hl.marker ?_
    · rw [List.length_map]
      exact hl.operands
    · rw [Option.map_map]
      exact hl.result
    · rw [List.length_map]
      exact hr.vars hh
  refine ⟨s, statement_eq hs ?_ (op_eq_ok.2 hop) ?_ ?_, hs⟩
  · refine List.forall₂_map_right_iff.2 (List.forall₂_same.2 fun v hv => ?_)
    rw [List.append_assoc] at hbefore
    exact hf.typed_eq hbefore (hknown v hv)
  · simp only [Node.record, Option.map_map]
    refine Option.map_congr fun r hres => ?_
    have hmem : r.1 ∈ h.defined := List.mem_append_left _ (by rw [hres]; exact List.mem_singleton_self _)
    rw [Function.comp_apply, hinner r.1 hmem, f.label_of_value (hr.result hh hres)]
    rfl
  · refine List.map_congr_left fun v hv => ?_
    exact (typed_eq_ok.1 (hinner v (List.mem_append_right _ hv))).1

theorem WellFormed.namesWithin_eq (hf : f.WellFormed) (hh : h ∈ f.code.heads)
    (hbefore : f.code.defined = before ++ h.defined ++ behind) :
    namesWithin ⟨f.arity, before⟩ (h.record parent region) = ⟨f.arity, before ++ h.defined⟩ := by
  have hr : f.Represents f.code := hf
  have hvars : (if h.kind.isLoop then h.inductionVars else []) = h.inductionVars := by
    cases hloop : h.kind.isLoop with
    | true => rfl
    | false =>
      have hlen := hr.vars hh
      rw [OpKind.loopRanges_of_isLoop_eq_false hloop] at hlen
      exact (List.length_eq_zero_iff.1 hlen).symm
  have hargs : ∀ v ∈ h.defined, ¬ v.index < f.arity := fun v hv =>
    hr.not_argument (List.mem_flatMap.2 ⟨h, hh, hv⟩)
  have hnd : (before ++ h.defined).Nodup := (List.nodup_append'.1 (hbefore ▸ hr.nodup_defined)).1
  rw [Node.defined, ← List.append_assoc] at hnd
  change Naming.defineAll (.defineAll ⟨f.arity, before⟩ (h.result.map (·.1)).toList)
    (if h.kind.isLoop then h.inductionVars else []) = _
  rw [hvars, Naming.defineAll_eq (List.nodup_append'.1 hnd).1 fun v hv =>
      hargs v (List.mem_append_left _ hv),
    Naming.defineAll_eq hnd fun v hv => hargs v (List.mem_append_right _ hv), List.append_assoc]
  rfl

theorem WellFormed.listForest_eq (hf : f.WellFormed) {x : Code} {known : List ValueId}
    (hp : f.Places parent x) (hx : x.heads ⊆ f.code.heads) (hl : ∀ h ∈ x.heads, h.Legible)
    (hn : x.Nested) (hs : x.Scoped known) (hknown : ∀ v ∈ known, v.index < f.arity ∨ v ∈ before)
    (hbefore : f.code.defined = before ++ x.defined ++ behind) :
    ∃ lines, f.listForest x.forest ⟨f.arity, before⟩ = .ok (lines, ⟨f.arity, before ++ x.defined⟩) ∧
      x.Lists f.label lines := by
  induction x generalizing parent known before behind with
  | nil => exact ⟨.nil, by rw [Code.defined_nil, List.append_nil]; rfl, .nil⟩
  | node h body rest ihb ihr =>
    simp only [Code.heads, List.cons_subset, List.append_subset] at hx
    simp only [Code.heads, List.forall_mem_cons, List.forall_mem_append] at hl
    obtain ⟨hhead, hxbody, hxrest⟩ := hx
    obtain ⟨hlhead, hlbody, hlrest⟩ := hl
    simp only [Code.defined_node, ← List.append_assoc] at hbefore ⊢
    have hhere : f.code.defined = before ++ h.defined ++ (body.defined ++ rest.defined ++ behind) := by
      simp [hbefore]
    have hinside : f.code.defined = before ++ h.defined ++ body.defined ++ (rest.defined ++ behind) := by
      simp [hbefore]
    have hwithin : ∀ v ∈ h.inductionVars ++ known, v.index < f.arity ∨ v ∈ before ++ h.defined := by
      refine List.forall_mem_append.2 ⟨fun v hv => ?_, fun v hv => ?_⟩
      · exact .inr (List.mem_append_right _ (List.mem_append_right _ hv))
      · exact (hknown v hv).imp_right (List.mem_append_left _)
    have hafter : ∀ v ∈ (h.result.map (·.1)).toList ++ known,
        v.index < f.arity ∨ v ∈ before ++ h.defined ++ body.defined := by
      refine List.forall_mem_append.2 ⟨fun v hv => ?_, fun v hv => ?_⟩
      · exact .inr (List.mem_append_left _ (List.mem_append_right _ (List.mem_append_left _ hv)))
      · exact (hknown v hv).imp_right fun hv => List.mem_append_left _ (List.mem_append_left _ hv)
    obtain ⟨s, hstatement, hshows⟩ := hf.exists_statement hhead hlhead hp.1 hhere fun v hv =>
      hknown v (hs.1 v hv)
    obtain ⟨bodyLines, hbody, hbodyLists⟩ := ihb hp.2.1 hxbody hlbody hn.2.1 hs.2.1 hwithin hinside
    obtain ⟨restLines, hrest, hrestLists⟩ := ihr hp.2.2 hxrest hlrest hn.2.2 hs.2.2 hafter hbefore
    refine ⟨.line s bodyLines restLines, ?_, .node hshows hbodyLists hrestLists⟩
    rw [Code.forest, listForest, op_eq_ok.2 hp.1]
    simp only [Fault.ok_bind, hf.namesWithin_eq hhead hhere, hstatement]
    cases hloop : h.kind.isLoop with
    | true =>
      simp only [Node.record, hloop, if_true, hbody, hrest, Fault.ok_bind]
      rfl
    | false =>
      obtain rfl := hn.1.resolve_left (by simp [hloop])
      cases hbodyLists
      rw [Code.defined_nil, List.append_nil] at hrest
      simp [Node.record, hloop, hrest, pure, Except.pure]

/-- Functions whose text says all of them but their handles. -/
structure Printable (f : Function) : Prop where
  wellFormed : f.WellFormed
  inScope : f.Scoped
  nested : f.code.Nested
  legible : ∀ h ∈ f.code.heads, h.Legible
  name : isIdentifier f.name = true

theorem Printable.exists_listing (hf : f.Printable) :
    ∃ lines, f.listing = .ok lines ∧ f.code.Lists f.label lines := by
  have hr : f.Represents f.code := hf.wellFormed
  have hall : f.code.defined = [] ++ f.code.defined ++ [] := by simp
  obtain ⟨lines, hlines, hlists⟩ := hf.wellFormed.listForest_eq hr.places (List.Subset.refl _) hf.legible
    hf.nested hf.inScope (fun v hv => .inl (mem_arguments.1 hv)) hall
  refine ⟨lines, ?_, hlists⟩
  rw [listing, hr.forest_eq, hlines]
  rfl

theorem Represents.label_argument (hr : f.Represents f.code) (hv : v ∈ f.arguments) :
    ∃ t, f.typeOf v = .ok t ∧ f.label v = ⟨.argument v.index, t⟩ := by
  have hlt := mem_arguments.1 hv
  obtain ⟨t, ht⟩ := hr.argument hlt
  refine ⟨t, by rw [typeOf, value_eq_ok.2 ht]; rfl, ?_⟩
  rw [f.label_of_value ht, Naming.name_argument hlt]

theorem Printable.text_eq (hf : f.Printable) : ∃ lines, f.code.Lists f.label lines ∧
    f.text = .ok (lines.functionText f.name (f.arguments.map f.label)) := by
  have hr : f.Represents f.code := hf.wellFormed
  obtain ⟨lines, hlisting, hlists⟩ := hf.exists_listing
  have hparameters : f.arguments.mapM f.parameterText =
      .ok ((f.arguments.map f.label).map KernelLowering.Typed.declaration) := by
    rw [List.map_map, Fault.mapM_eq_ok, List.forall₂_map_right_iff, List.forall₂_same]
    intro v hv
    obtain ⟨t, ht, hlabel⟩ := hr.label_argument hv
    rw [parameterText, ht, Function.comp_apply, hlabel]
    rfl
  refine ⟨lines, hlists, ?_⟩
  rw [text, hparameters, hlisting]
  rfl

end Function

end KernelLowering
