import KernelLowering.Proofs.Integrity.Histories
import KernelLowering.Proofs.Listing.Names

namespace KernelLowering

variable {ρ : OpId → OpId} {σ : ValueId → ValueId}

def Node.renumber (ρ : OpId → OpId) (σ : ValueId → ValueId) (h : Node) : Node where
  op := ρ h.op
  kind := h.kind
  operands := h.operands.map σ
  result := h.result.map fun r => (σ r.1, r.2)
  marker := h.marker
  inductionVars := h.inductionVars.map σ

@[simp] theorem Node.defined_renumber (h : Node) : (h.renumber ρ σ).defined = h.defined.map σ := by
  cases hres : h.result <;> simp [renumber, defined, hres]

namespace Code

def renumber (ρ : OpId → OpId) (σ : ValueId → ValueId) : Code → Code
  | nil => nil
  | node h body rest => node (h.renumber ρ σ) (body.renumber ρ σ) (rest.renumber ρ σ)

theorem heads_renumber (x : Code) : (x.renumber ρ σ).heads = x.heads.map (·.renumber ρ σ) := by
  induction x with
  | nil => rfl
  | node h body rest ihb ihr => simp [renumber, heads, ihb, ihr]

@[simp] theorem defined_renumber (x : Code) : (x.renumber ρ σ).defined = x.defined.map σ := by
  induction x with
  | nil => rfl
  | node h body rest ihb ihr => simp [renumber, ihb, ihr]

end Code

section Listings

variable {label label' : ValueId → KernelLowering.Typed} {x y : Code} {lines : Listing}

theorem Node.Shows.renumber {h : Node} {s : Statement} (hs : h.Shows label s)
    (hlabel : ∀ v ∈ h.operands ++ h.defined, label' (σ v) = label v) :
    (h.renumber ρ σ).Shows label' s := by
  have hoperands : (h.operands.map σ).map label' = h.operands.map label := by
    rw [List.map_map]
    exact List.map_congr_left fun v hv => hlabel v (List.mem_append_left _ hv)
  have hvars : (h.inductionVars.map σ).map (fun v => (label' v).name) =
      h.inductionVars.map fun v => (label v).name := by
    rw [List.map_map]
    refine List.map_congr_left fun v hv => congrArg _ (hlabel v ?_)
    exact List.mem_append_right _ (List.mem_append_right _ hv)
  have hresult : (h.result.map fun r => (σ r.1, r.2)).map (fun r => (⟨(label' r.1).name, r.2⟩ : KernelLowering.Typed)) =
      h.result.map fun r => ⟨(label r.1).name, r.2⟩ := by
    rw [Option.map_map]
    refine Option.map_congr fun r hr => ?_
    have hmem : r.1 ∈ h.defined := List.mem_append_left _ (by rw [hr]; exact List.mem_singleton_self _)
    rw [Function.comp_apply, hlabel r.1 (List.mem_append_right _ hmem)]
  rw [Shows, Node.renumber, hoperands, hresult, hvars]
  exact hs

theorem Code.Lists.renumber (hx : x.Lists label lines)
    (hlabel : ∀ h ∈ x.heads, ∀ v ∈ h.operands ++ h.defined, label' (σ v) = label v) :
    (x.renumber ρ σ).Lists label' lines := by
  induction hx with
  | nil => exact .nil
  | node hs _ _ ihb ihr =>
    simp only [heads, List.forall_mem_cons, List.forall_mem_append] at hlabel ihb ihr
    exact .node (hs.renumber (List.forall_mem_append.2 hlabel.1)) (ihb hlabel.2.1) (ihr hlabel.2.2)

theorem Code.Lists.unique {lines' : Listing} (h : x.Lists label lines) (h' : x.Lists label lines') :
    lines = lines' := by
  induction h generalizing lines' with
  | nil =>
    cases h'
    rfl
  | node hs _ _ ihb ihr =>
    cases h' with
    | node hs' hbody hrest => rw [Line.unique hs hs', ihb hbody, ihr hrest]

theorem Node.Shows.renumbers {h h' : Node} {s : Statement} {τ : Name → ValueId} (hs : h.Shows label s)
    (hs' : h'.Shows label' s) (hτ : ∀ v, τ (label' v).name = v) (hop : h'.op = ρ h.op) :
    h' = h.renumber ρ fun v => τ (label v).name := by
  obtain ⟨hkind, hoperands, hresult, hmarker, hvars⟩ := Line.inj hs hs'
  obtain ⟨op, kind, operands, result, marker, vars⟩ := h
  obtain ⟨op', kind', operands', result', marker', vars'⟩ := h'
  have ho := congrArg (List.map τ) hoperands
  have hr := congrArg (Option.map fun a => (τ a.name, a.type)) hresult
  have hv := congrArg (List.map τ) hvars
  simp only [List.map_map, Option.map_map, Function.comp_def, hτ, List.map_id', Option.map_id'] at ho hr hv
  simp only [Node.renumber, Node.mk.injEq]
  exact ⟨hop, hkind.symm, ho.symm, hr.symm, hmarker.symm, hv.symm⟩

theorem Code.Lists.length_ops (hx : x.Lists label lines) (hy : y.Lists label' lines) :
    y.ops.length = x.ops.length := by
  induction hx generalizing y with
  | nil => cases hy; rfl
  | node _ _ _ ihb ihr =>
    cases hy with
    | node _ hbody hrest => simp [ops, ihb hbody, ihr hrest]

theorem Code.Lists.renumbers {τ : Name → ValueId} (hx : x.Lists label lines)
    (hy : y.Lists label' lines) (hτ : ∀ v, τ (label' v).name = v) (hops : y.ops = x.ops.map ρ) :
    y = x.renumber ρ fun v => τ (label v).name := by
  induction hx generalizing y with
  | nil => cases hy; rfl
  | node hs hbody hrest ihb ihr =>
    cases hy with
    | node hs' hbody' hrest' =>
      simp only [ops, List.map_cons, List.map_append, List.cons.injEq] at hops
      obtain ⟨hb, hr⟩ := List.append_inj hops.2 (by simp [hbody.length_ops hbody'])
      rw [Code.renumber, ← hs.renumbers hs' hτ hops.1, ← ihb hbody' hb, ← ihr hrest' hr]

end Listings

theorem Naming.name_map {arity : Nat} {known : List ValueId} {v : ValueId}
    (hinj : ∀ u ∈ known, σ u = σ v → u = v) (hv : ¬ v.index < arity) (hσ : ¬ (σ v).index < arity)
    (hmem : v ∈ known) :
    (⟨arity, known.map σ⟩ : Naming).name (σ v) = (⟨arity, known⟩ : Naming).name v := by
  have hidx : (known.map σ).idxOf? (σ v) = known.idxOf? v := by
    clear hmem
    induction known with
    | nil => rfl
    | cons u known ih =>
      have hhead : σ u = σ v ↔ u = v := ⟨hinj u List.mem_cons_self, congrArg σ⟩
      simp only [List.map_cons, List.idxOf?_cons, beq_iff_eq, hhead,
        ih fun u hu => hinj u (List.mem_cons_of_mem _ hu)]
  obtain ⟨i, hi⟩ : ∃ i, known.idxOf? v = some i :=
    Option.ne_none_iff_exists'.1 fun hnone => List.idxOf?_eq_none_iff.1 hnone hmem
  simp only [name, if_neg hv, if_neg hσ, hidx, hi]

theorem exists_map_eq {xs ys : List OpId} (hnd : xs.Nodup) (hlen : ys.length = xs.length) :
    ∃ ρ : OpId → OpId, ys = xs.map ρ := by
  induction xs generalizing ys with
  | nil => exact ⟨id, List.length_eq_zero_iff.1 hlen⟩
  | cons x xs ih =>
    obtain ⟨hx, hnd⟩ := List.nodup_cons.1 hnd
    cases ys with
    | nil => cases hlen
    | cons y ys =>
      obtain ⟨ρ, rfl⟩ := ih hnd (Nat.succ.inj hlen)
      refine ⟨Function.update ρ x y, ?_⟩
      rw [List.map_cons, Function.update_self]
      refine congrArg _ (List.map_congr_left fun u hu => ?_)
      rw [Function.update_of_ne (ne_of_mem_of_not_mem hu hx)]

namespace Function

variable {f g : Function}

/-- `g` is `f` with other handles for its operations and values. -/
structure Renumbers (ρ : OpId → OpId) (σ : ValueId → ValueId) (f g : Function) : Prop where
  name : g.name = f.name
  arguments : g.arguments = f.arguments.map σ
  types : ∀ v ∈ f.arguments, g.typeOf (σ v) = f.typeOf v
  code : g.code = f.code.renumber ρ σ
  ops : Set.InjOn ρ {op | op ∈ f.code.ops}
  values : Set.InjOn σ {v | v ∈ f.arguments ++ f.code.defined}

theorem arguments_inj (h : g.arguments = f.arguments.map σ) : g.arity = f.arity ∧ ∀ v ∈ f.arguments, σ v = v := by
  have harity : g.arity = f.arity := by simpa using congrArg List.length h
  rw [arguments_congr harity] at h
  exact ⟨harity, List.map_inj_left.1 (h.symm.trans (List.map_id _).symm)⟩

theorem Represents.nodup_known (hr : f.Represents f.code) : (f.arguments ++ f.code.defined).Nodup := by
  refine List.nodup_append'.2 ⟨?_, hr.nodup_defined, fun v harg hdef => ?_⟩
  · exact List.nodup_range.map fun i j he => ValueId.mk.inj he
  · exact hr.not_argument hdef (mem_arguments.1 harg)

theorem Renumbers.label_eq (h : Renumbers ρ σ f g) (hf : f.WellFormed) (hg : g.WellFormed) {v : ValueId}
    (hv : v ∈ f.arguments ++ f.code.defined) : g.label (σ v) = f.label v := by
  have hrf : f.Represents f.code := hf
  have hrg : g.Represents g.code := hg
  obtain ⟨harity, hfix⟩ := arguments_inj h.arguments
  rcases List.mem_append.1 hv with harg | hdef
  · have hσ := hfix v harg
    obtain ⟨t, ht, hlabel⟩ := hrf.label_argument harg
    obtain ⟨t', ht', hlabel'⟩ := hrg.label_argument (arguments_congr harity ▸ harg)
    have htypes := h.types v harg
    rw [hσ, ht, ht', Except.ok.injEq] at htypes
    rw [hσ, hlabel, hlabel', htypes]
  · have hdef' : σ v ∈ g.code.defined := by
      rw [h.code, Code.defined_renumber]
      exact List.mem_map_of_mem hdef
    have hname : g.naming.name (σ v) = f.naming.name v := by
      rw [naming, h.code, Code.defined_renumber, harity]
      refine Naming.name_map (fun u hu he => ?_) (hrf.not_argument hdef)
        (harity ▸ hrg.not_argument hdef') hdef
      exact h.values (List.mem_append_right _ hu) hv he
    obtain ⟨hd, hh, hvd⟩ := List.mem_flatMap.1 hdef
    have hh' : hd.renumber ρ σ ∈ g.code.heads := by
      rw [h.code, Code.heads_renumber]
      exact List.mem_map_of_mem hh
    rcases hrf.definition_of_mem hh hvd with ⟨t, hres, hval⟩ | ⟨i, hi, hval⟩
    · have hval' := hrg.result hh' (v := σ v) (t := t) (by rw [Node.renumber, hres]; rfl)
      rw [f.label_of_value hval, g.label_of_value hval', hname]
    · have hval' := hrg.var hh' (v := σ v) (i := i) (by rw [Node.renumber, List.getElem?_map, hi]; rfl)
      rw [f.label_of_value hval, g.label_of_value hval', hname]

theorem Renumbers.text_eq (h : Renumbers ρ σ f g) (hf : f.Printable) (hg : g.Printable) :
    ∃ t, f.text = .ok t ∧ g.text = .ok t := by
  obtain ⟨lines, hlists, htext⟩ := hf.text_eq
  obtain ⟨lines', hlists', htext'⟩ := hg.text_eq
  have hlabel : ∀ v ∈ f.arguments ++ f.code.defined, g.label (σ v) = f.label v := fun v hv =>
    h.label_eq hf.wellFormed hg.wellFormed hv
  have hparameters : g.arguments.map g.label = f.arguments.map f.label := by
    rw [h.arguments, List.map_map]
    exact List.map_congr_left fun v hv => hlabel v (List.mem_append_left _ hv)
  have hlines : (f.code.renumber ρ σ).Lists g.label lines := by
    refine hlists.renumber fun hd hh v hv => hlabel v ?_
    rcases List.mem_append.1 hv with hv | hv
    · exact (List.mem_append.1 (hf.inScope.mem_operands hh hv)).elim (List.mem_append_right _)
        (List.mem_append_left _)
    · exact List.mem_append_right _ (List.mem_flatMap.2 ⟨hd, hh, hv⟩)
  rw [← h.code] at hlines
  refine ⟨_, htext, ?_⟩
  rw [htext', hparameters, h.name, hlists'.unique hlines]

theorem Printable.renumbers (hf : f.Printable) (hg : g.Printable) {t : String} (ht : f.text = .ok t)
    (ht' : g.text = .ok t) : ∃ ρ σ, Renumbers ρ σ f g := by
  have hrf : f.Represents f.code := hf.wellFormed
  have hrg : g.Represents g.code := hg.wellFormed
  obtain ⟨lines, hlists, htext⟩ := hf.text_eq
  obtain ⟨lines', hlists', htext'⟩ := hg.text_eq
  rw [htext, Except.ok.injEq] at ht
  rw [htext', ← ht, Except.ok.injEq] at ht'
  obtain ⟨hname, hparameters, rfl⟩ := Listing.functionText_injective hg.name hf.name
    (hlists'.proper hg.nested hg.legible) (hlists.proper hf.nested hf.legible) ht'
  -- A value goes, by what `f` calls it, to the value that `g` calls the same.
  obtain ⟨ρ, hρ⟩ := exists_map_eq hrf.nodup (hlists.length_ops hlists')
  have hcode := hlists.renumbers hlists' (fun v => g.naming.value_name v) hρ
  have harity : g.arity = f.arity := by simpa using congrArg List.length hparameters
  have hfix : ∀ v ∈ f.arguments, g.naming.value (f.label v).name = v := fun v hv => by
    obtain ⟨t, -, hlabel⟩ := hrf.label_argument hv
    rw [hlabel]
    rfl
  have harguments : g.arguments = f.arguments.map fun v => g.naming.value (f.label v).name := by
    rw [arguments_congr harity, List.map_congr_left hfix, List.map_id']
  have hops : (f.code.ops.map ρ).Nodup := hρ ▸ hrg.nodup
  have hvalues : ((f.arguments ++ f.code.defined).map fun v => g.naming.value (f.label v).name).Nodup := by
    rw [List.map_append, ← harguments, ← @Code.defined_renumber ρ, ← hcode]
    exact hrg.nodup_known
  refine ⟨ρ, _, hname, harguments, fun v hv => ?_, hcode, fun a ha b hb he => ?_, fun a ha b hb he => ?_⟩
  · have hlabel : g.label v = f.label v := by
      rw [arguments_congr harity] at hparameters
      exact List.map_inj_left.1 hparameters v hv
    obtain ⟨t, ht, ha⟩ := hrf.label_argument hv
    obtain ⟨t', ht', hb⟩ := hrg.label_argument (arguments_congr harity ▸ hv)
    rw [ha, hb, KernelLowering.Typed.mk.injEq] at hlabel
    rw [hfix v hv, ht, ht', hlabel.2]
  · exact List.inj_on_of_nodup_map hops ha hb he
  · exact List.inj_on_of_nodup_map hvalues ha hb he

theorem text_eq_iff_renumbers (hf : f.Printable) (hg : g.Printable) :
    (∃ t, f.text = .ok t ∧ g.text = .ok t) ↔ ∃ ρ σ, Renumbers ρ σ f g := by
  constructor
  · rintro ⟨t, ht, ht'⟩
    exact hf.renumbers hg ht ht'
  · rintro ⟨ρ, σ, h⟩
    exact h.text_eq hf hg

section Example

def loopFirst : Function where
  name := "spill"
  ops := #[⟨.forLoop ⟨0, 4, 1, Int.one_pos⟩, [], none, none, [⟨1⟩], [⟨0⟩], none, true⟩,
    ⟨.alloc, [], some ⟨1⟩, none, [], [], some ⟨0⟩, true⟩]
  values := #[⟨.index, .inductionVar ⟨0⟩ 0⟩, ⟨.buffer (.rowMajor [4] .float32 .l1), .result ⟨1⟩⟩]
  arity := 0
  body := [⟨0⟩]

theorem text_eq_iff_renumbers_loopFirst : loopAround.Printable ∧ loopFirst.Printable ∧
    loopFirst.text = loopAround.text ∧ ∃ ρ σ, Renumbers ρ σ loopAround loopFirst := by
  have hlegible : ∀ h : Node, h.kind.isLoop = true ∨ h.kind = .alloc →
      h.kind.showsOperands h.operands.length = true → h.kind.showsResult (h.result.map (·.2)) = true →
        h.marker = none → h.Legible := fun h hkind hoperands hresult hmarker =>
    ⟨hoperands, hresult, .inl hmarker, fun callee he => by simp [he, OpKind.isLoop] at hkind⟩
  have haround : loopAround.Printable :=
    ⟨by decide +kernel, by decide +kernel, by decide +kernel,
      fun h hh => hlegible h (by revert h; decide +kernel) (by revert h; decide +kernel)
        (by revert h; decide +kernel) (by revert h; decide +kernel), by decide +kernel⟩
  have hfirst : loopFirst.Printable :=
    ⟨by decide +kernel, by decide +kernel, by decide +kernel,
      fun h hh => hlegible h (by revert h; decide +kernel) (by revert h; decide +kernel)
        (by revert h; decide +kernel) (by revert h; decide +kernel), by decide +kernel⟩
  exact ⟨haround, hfirst, rfl, (text_eq_iff_renumbers haround hfirst).1 ⟨_, rfl, rfl⟩⟩

def returning (operands : List ValueId) : Function where
  name := "f"
  ops := #[⟨.ret, operands, none, none, [], [], none, true⟩]
  values := #[⟨.index, .argument 0⟩]
  arity := 1
  body := [⟨0⟩]

theorem returning_reached (operands : List ValueId) : (returning operands).Reached := by
  have hend : (Function.empty "f" [.index]).Open (.atEnd none) := by
    rintro _ ⟨⟩
  have hinsert : (Build.insert .ret operands none none).runOn (Function.empty "f" [.index]) (.atEnd none) =
      .ok (⟨0⟩, returning operands) := rfl
  exact (Reached.empty "f" [.index]).step (.insert hend hinsert)

theorem text_eq_returning :
    (∀ f ∈ [returning [⟨0⟩], returning []], f.Reached ∧ f.Scoped ∧ f.code.Nested ∧
      (∀ h ∈ f.code.heads, h.kind = .ret ∧ h.marker = none) ∧ isIdentifier f.name = true) ∧
    (∃ t, (returning [⟨0⟩]).text = .ok t ∧ (returning []).text = .ok t) ∧
      ¬ ∃ ρ σ, Renumbers ρ σ (returning [⟨0⟩]) (returning []) := by
  refine ⟨?_, ⟨_, rfl, rfl⟩, ?_⟩
  · simp only [List.forall_mem_cons, List.not_mem_nil, false_imp_iff, implies_true, and_true]
    exact ⟨⟨returning_reached _, by decide +kernel, by decide +kernel, by decide +kernel, by decide +kernel⟩,
      returning_reached _, by decide +kernel, by decide +kernel, by decide +kernel, by decide +kernel⟩
  · rintro ⟨ρ, σ, h⟩
    have hoperands := congrArg (fun x => x.heads.map (·.operands.length)) h.code
    rw [Code.heads_renumber] at hoperands
    cases hoperands

end Example

end Function

end KernelLowering
