import KernelLowering.Meaning.Execution
import KernelLowering.Proofs.Arena.Building
import KernelLowering.Proofs.Arena.Check
import KernelLowering.Proofs.Arena.DeadCode
import KernelLowering.Proofs.Arena.Replacement
import KernelLowering.Proofs.Execution.Scope

namespace KernelLowering

namespace Code

variable {call : OpId} {callee : Function}

theorem expansion_append (x y : Code) (turns : Turns) (data : Data) :
    (x ++ y).expansion call callee turns data = x.expansion call callee turns data ++
      y.expansion call callee (fun v => turns v + x.allocations v) (x.settle turns data) := by
  induction x generalizing turns data with
  | nil => rfl
  | node h body rest _ ih =>
    simp only [node_append, expansion, settle, allocations, ih, List.append_assoc, Nat.add_assoc]

structure Expands (call : OpId) (callee : Function) (x y : Code) : Prop where
  effects : ∀ turns data, x.expansion call callee turns data = y.effects turns data
  settle : ∀ turns data, x.settle turns data = y.settle turns data
  allocations : x.allocations = y.allocations

namespace Expands

variable {x x' y y' : Code} {h : Node}

theorem nil : Expands call callee .nil .nil := ⟨fun _ _ => rfl, fun _ _ => rfl, rfl⟩

theorem node (hh : h.op ≠ call) (hx : Expands call callee x y) (hx' : Expands call callee x' y') :
    Expands call callee (.node h x x') (.node h y y') where
  effects turns data := by
    simp only [Code.expansion, Code.effects, Node.expansion, if_neg hh, hx.effects, hx'.effects,
      hx.allocations]
  settle turns data := by simp only [Code.settle, hx.allocations, hx'.settle]
  allocations := by
    funext v
    simp only [Code.allocations, hx.allocations, hx'.allocations]

theorem refl (hx : call ∉ x.ops) : Expands call callee x x := by
  induction x with
  | nil => exact .nil
  | node h body rest ihb ihr =>
    simp only [ops, List.mem_cons, List.mem_append, not_or] at hx
    exact .node (Ne.symm hx.1) (ihb hx.2.1) (ihr hx.2.2)

theorem append (hx : Expands call callee x y) (hx' : Expands call callee x' y') :
    Expands call callee (x ++ x') (y ++ y') where
  effects turns data := by
    rw [expansion_append, effects_append, hx.effects, hx'.effects, hx.settle, hx.allocations]
  settle turns data := by rw [settle_append, settle_append, hx.settle, hx'.settle, hx.allocations]
  allocations := by
    funext v
    rw [allocations_append, allocations_append, hx.allocations, hx'.allocations]

theorem plug {k : Spine} (hk : call ∉ k.ops) (hx : Expands call callee x y) :
    Expands call callee (k.plug x) (k.plug y) := by
  induction k generalizing x y with
  | body => exact hx
  | inside h b a k ih =>
    simp only [Spine.ops, List.mem_append, List.mem_cons, not_or] at hk
    exact ih hk.2 ((refl hk.1.1).append (.node (Ne.symm hk.1.2.1) hx (refl hk.1.2.2)))

end Expands

end Code

theorem Function.exists_types {f : Function} {vs : List ValueId} (hvs : ∀ v ∈ vs, f.Has v) :
    ∃ types, vs.mapM f.typeOf = .ok types := by
  have htype : ∀ v ∈ vs, Yields False (f.typeOf v) fun _ => True := fun v hv => by
    obtain ⟨x, hx⟩ : ∃ x, f.value? v = some x := ⟨_, Array.getElem?_eq_getElem (hvs v hv)⟩
    rw [typeOf, value_eq_ok.2 hx]
    trivial
  obtain ⟨types, htypes, -⟩ := (Yields.mapM htype).exists_of_not
  exact ⟨types, htypes⟩

namespace Function

variable {f g : Function} {name : String} {types : List ValueType}

theorem bufferTypes?_of_typeOf {vs ws : List ValueId}
    (h : List.Forall₂ (fun v w => g.typeOf w = f.typeOf v) vs ws) :
    g.bufferTypes? ws = f.bufferTypes? vs := by
  have hbuffer : ∀ (f : Function) v, f.bufferType? v = (·.buffer?) <$> f.typeOf v := fun f v => by
    rw [bufferType?, typeOf]
    cases f.value v <;> rfl
  induction h with
  | nil => rfl
  | cons hv _ ih => rw [bufferTypes?, bufferTypes?, hbuffer, hbuffer, hv, ih]

theorem Grows.typeOf_argument (h : (empty name types).Grows f) {i : Nat} (hi : i < types.length) :
    f.typeOf ⟨i⟩ = .ok types[i] := by
  have hv : (empty name types).value? ⟨i⟩ = some ⟨types[i], .argument i⟩ := by
    simp [value?, empty, hi]
  rw [typeOf, value_eq_ok.2 (h.value hv)]
  rfl

theorem Grows.bufferTypes?_arguments {vs : List ValueId} (h : (empty name types).Grows g)
    (htypes : vs.mapM f.typeOf = .ok types) : g.bufferTypes? g.arguments = f.bufferTypes? vs := by
  have hall := Fault.mapM_eq_ok.1 htypes
  have hlen := hall.length_eq
  have harity : g.arity = types.length := h.arity
  refine bufferTypes?_of_typeOf (List.forall₂_iff_get.2 ⟨by simp [arguments, harity, hlen], fun i hi _ => ?_⟩)
  simp only [List.get_eq_getElem, arguments, List.getElem_map, List.getElem_range]
  rw [h.typeOf_argument (hlen ▸ hi)]
  exact ((List.forall₂_iff_get.1 hall).2 i hi (hlen ▸ hi)).symm

end Function

namespace Outline

variable {f g : Function} {k : Spine} {b x z : Code} {hd : Node} {o : Operation} {name : String}
  {marker : Option Stage}

theorem yields_callee {p : Prop} {types : List ValueType} (htypes : o.operands.mapM f.typeOf = .ok types) :
    Yields p (callee f o name marker) fun r => r.2.name = name ∧ r.2.arity = o.operands.length ∧
      r.2.bufferTypes? r.2.arguments = f.bufferTypes? o.operands ∧ ∃ inner op,
        inner.kind = o.kind ∧ inner.operands = r.2.arguments ∧ inner.result = none ∧
          inner.marker = (marker <|> o.marker) ∧
            r.2.code = .node inner .nil (.node (.effect op .ret [] none) .nil .nil) := by
  have hlen := (Fault.mapM_eq_ok.1 htypes).length_eq
  rw [callee, htypes, Fault.ok_bind]
  dsimp only
  rw [Build.yields_runOn]
  simp only [Build.yields_bind, Build.yields_discard, Build.yields_pure]
  refine ((Cursor.empty _ _).yields_insert _ _ _ _).mono fun r _ hw => ?_
  refine (hw.2.cursor.yields_effect _ _ _ rfl).mono fun r' _ hw' => ?_
  have hgrows := (hw.2.trans hw').grows
  refine ⟨hgrows.name, hgrows.arity.trans hlen.symm, hgrows.bufferTypes?_arguments htypes, _, _, rfl,
    ?_, rfl, rfl, hw'.cursor.represents.code_eq⟩
  rw [Function.arguments, Function.arguments, hgrows.arity]
  rfl

theorem represents_callee {r : OpId × Function} (h : callee f o name marker = .ok r) :
    r.2.name = name ∧ r.2.arity = o.operands.length ∧
      r.2.bufferTypes? r.2.arguments = f.bufferTypes? o.operands ∧ ∃ inner op,
        inner.kind = o.kind ∧ inner.operands = r.2.arguments ∧ inner.result = none ∧
          inner.marker = (marker <|> o.marker) ∧
            r.2.code = .node inner .nil (.node (.effect op .ret [] none) .nil .nil) := by
  obtain ⟨types, htypes, -⟩ := Fault.bind_eq_ok.1 h
  exact (@yields_callee f o name marker False types htypes).of_ok h

theorem yields_replaceByCall {p : Prop} (hr : f.Represents (k.plug (b ++ .node hd x z))) :
    Yields p (replaceByCall f hd.op o name) fun r =>
      Splice f r.2 k b (.node (.effect r.1 (.call name) o.operands none) .nil .nil) z := by
  have hcursor : Cursor ⟨f, .before hd.op⟩ k b (.node hd x z) := ⟨hr, rfl⟩
  rw [replaceByCall, Build.yields_runOn]
  simp only [Build.yields_bind, Build.yields_pure]
  refine (hcursor.yields_effect (.call name) o.operands none rfl).mono ?_
  rintro ⟨call, s⟩ - hw
  exact hw.yields_erase.mono fun _ _ hsplice => hsplice

theorem splice_replaceByCall {r : OpId × Function} (hr : f.Represents (k.plug (b ++ .node hd x z)))
    (h : replaceByCall f hd.op o name = .ok r) :
    Splice f r.2 k b (.node (.effect r.1 (.call name) o.operands none) .nil .nil) z :=
  (@yields_replaceByCall f k b x z hd o name False hr).of_ok h

theorem calledEffects_callee {callee : Function} {inner : Node} {op : OpId}
    (harity : callee.arity = hd.operands.length) (hkind : inner.kind = hd.kind)
    (hops : inner.operands = callee.arguments) (hret : hd.kind ≠ .ret)
    (hcode : callee.code = .node inner .nil (.node (.effect op .ret [] none) .nil .nil))
    (turns : Turns) (data : Data) :
    callee.calledEffects turns (data.passed callee hd.operands) = hd.effects data := by
  have hpassed : callee.arguments.map (fun v => (data.passed callee hd.operands v).map Datum.shown) =
      hd.operands.map fun v => (data v).map Datum.shown := by
    rw [Function.arguments, harity, List.map_map]
    refine List.ext_getElem (by simp) fun i hi _ => ?_
    have hlt : i < hd.operands.length := by simpa using hi
    simp [Data.passed, harity, hlt]
  rw [Function.calledEffects, hcode]
  have hbody : ∀ is : List (List Int × Nat), is.flatMap (fun _ => ([] : List Effect)) = [] := by
    simp
  have hdone : OpKind.ret.acts = true := rfl
  simp only [Code.effects, Node.effects, hkind, hops, hpassed, hbody, Node.effect, hdone, if_true,
    List.append_nil]
  by_cases hacts : hd.kind.acts = true <;> simp [hacts, hret]

theorem expands_replaceByCall {r : OpId × Function} {callee : Function} {inner : Node} {op : OpId}
    (hr : f.Represents (k.plug (b ++ .node hd x z)))
    (h : replaceByCall f hd.op (hd.record k.parent x.roots) name = .ok r) (hres : hd.result = none)
    (hret : hd.kind ≠ .ret) (harity : callee.arity = hd.operands.length)
    (hkind : inner.kind = hd.kind) (hops : inner.operands = callee.arguments)
    (hcode : callee.code = .node inner .nil (.node (.effect op .ret [] none) .nil .nil)) :
    Code.Expands r.1 callee r.2.code (k.plug (b ++ .node hd .nil z)) := by
  have hsplice := splice_replaceByCall hr h
  have hnodup := hsplice.represents.nodup
  simp only [Spine.nodup_plug, Code.ops_append, Code.ops, List.nil_append, List.cons_append,
    List.nodup_append', List.nodup_cons, List.disjoint_cons_right, List.disjoint_append_left,
    List.disjoint_cons_left, Node.effect] at hnodup
  obtain ⟨⟨-, ⟨hz, -⟩, hb, -⟩, -, -, hk, -⟩ := hnodup
  rw [hsplice.represents.code_eq]
  refine .plug hk (.append (.refl hb) ?_)
  have hrest : Code.Expands r.1 callee z z := .refl hz
  have hcall : ∀ v, (Node.effect r.1 (.call name) hd.operands none).allocations v = 0 := fun _ => rfl
  have hnone : ∀ v, hd.allocations v = 0 := fun v => by simp [Node.allocations, hres]
  have hsettle : ∀ (turns : Turns) data, hd.settle turns data = data := fun turns data => by
    rw [Node.settle, hres]
  have hbody : ∀ is : List (List Int × Nat), is.flatMap (fun _ => ([] : List Effect)) = [] := by
    simp
  refine ⟨fun turns data => ?_, fun turns data => ?_, ?_⟩
  · have hcalled := calledEffects_callee harity hkind hops hret hcode turns data
    simp only [Code.node_append, Code.nil_append, Code.expansion, Code.effects, Code.allocations,
      hrest.effects, hcall, hnone, hsettle, hbody, Node.record, Nat.mul_zero, Nat.add_zero]
    exact congrArg (· ++ [] ++ z.effects turns data) ((if_pos rfl).trans hcalled)
  · simp only [Code.node_append, Code.nil_append, Code.settle, Code.allocations, hcall, hnone,
      hsettle, Node.record, Nat.mul_zero]
    rfl
  · funext v
    simp only [Code.node_append, Code.nil_append, Code.allocations, hcall, hnone, Node.record,
      Nat.mul_zero]

end Outline

namespace Program

variable {p q : Program} {f g : Function} {name : String}

theorem find?_insert_self (p : Program) (f : Function) : (p.insert f).find? f.name = some f := by
  unfold insert find?
  induction p.functions with
  | nil => simp [insertInto]
  | cons g gs ih =>
    rw [insertInto]
    split
    · simp
    · rename_i hg
      rw [List.find?_cons_of_neg (by simpa using hg)]
      exact ih

theorem find?_insert_of_ne (p : Program) (hname : f.name ≠ name) :
    (p.insert f).find? name = p.find? name := by
  unfold insert find?
  induction p.functions with
  | nil => simp [insertInto, hname]
  | cons g gs ih =>
    rw [insertInto]
    split
    · rename_i hg
      rw [List.find?_cons_of_neg (by simpa using hname),
        List.find?_cons_of_neg (by simpa [hg] using hname)]
    · rw [List.find?_cons, List.find?_cons, ih]

theorem outline_eq_insert {caller hint : String} {op : OpId} {marker : Option Stage}
    {outlined : Outlined} (hf : p.find? caller = some f)
    (h : (p.outline caller op hint marker).outcome = .ok (.ok (q, outlined))) :
    ∃ o inner g callee, f.isLive op = .ok true ∧ f.op op = .ok o ∧ o.result = none ∧
      outlined.callee = p.uniqueName hint ∧
        Outline.callee f o outlined.callee marker = .ok (inner, callee) ∧
          Outline.replaceByCall f op o outlined.callee = .ok (outlined.call, g) ∧
            q = (p.insert g).insert callee := by
  simp only [outline, hf, Logged.outcome_bind, Logged.outcome_lift, Fault.bind_eq_ok] at h
  obtain ⟨live, hlive, h⟩ := h
  cases live with
  | false => simp at h
  | true =>
    simp only [Bool.not_true, Bool.false_eq_true, if_false, Logged.outcome_bind,
      Logged.outcome_lift, Fault.bind_eq_ok] at h
    obtain ⟨o, ho, h⟩ := h
    split at h
    · simp at h
    · rename_i hresult
      simp only [Logged.outcome_bind, Logged.outcome_lift, Fault.bind_eq_ok, Logged.outcome_report,
        Logged.outcome_pure] at h
      obtain ⟨⟨inner, callee⟩, hcallee, ⟨call, g⟩, hg, -, -, h⟩ := h
      cases h
      exact ⟨o, inner, g, callee, hlive, ho, by simpa using hresult, rfl, hcallee, hg, rfl⟩

theorem exists_outline {caller hint : String} {k : Spine} {b x z : Code} {hd : Node}
    (hf : p.find? caller = some f) (hr : f.Represents (k.plug (b ++ .node hd x z)))
    (hresult : hd.result = none) (hops : ∀ v ∈ hd.operands, f.Has v) (marker : Option Stage) :
    ∃ r, (p.outline caller hd.op hint marker).outcome = .ok (.ok r) := by
  have ho := hr.record_at
  have hlive : f.isLive hd.op = .ok true := by
    rw [Function.isLive, ho]
    rfl
  obtain ⟨types, htypes⟩ := Function.exists_types hops
  obtain ⟨callee, hcallee, -⟩ := (@Outline.yields_callee f (hd.record k.parent x.roots)
    (p.uniqueName hint) marker False types htypes).exists_of_not
  obtain ⟨g, hg, -⟩ := (@Outline.yields_replaceByCall f k b x z hd (hd.record k.parent x.roots)
    (p.uniqueName hint) False hr).exists_of_not
  have hnone : (hd.record k.parent x.roots).result.isSome = false := by
    rw [Node.record, hresult]
    rfl
  simp [outline, hf, hlive, ho, hnone, hcallee, hg]

theorem outline_eq_ok {caller hint : String} {op : OpId} {marker : Option Stage}
    {outlined : Outlined} (hf : p.find? caller = some f) (hwf : f.WellFormed)
    (h : (p.outline caller op hint marker).outcome = .ok (.ok (q, outlined))) :
    ∃ o inner g callee, f.isLive op = .ok true ∧ f.op op = .ok o ∧ o.result = none ∧
      Outline.callee f o outlined.callee marker = .ok (inner, callee) ∧
        Outline.replaceByCall f op o outlined.callee = .ok (outlined.call, g) ∧
          q.find? caller = some g ∧ q.find? outlined.callee = some callee := by
  obtain ⟨o, inner, g, callee, hlive, ho, hresult, hname, hcallee, hg, rfl⟩ := outline_eq_insert hf h
  obtain ⟨k, b, hd, x, z, rfl, hcode⟩ := hwf.exists_at hlive
  have hr : f.Represents (k.plug (b ++ .node hd x z)) := hcode ▸ hwf
  have hname' : callee.name = outlined.callee := (Outline.represents_callee hcallee).1
  have hcaller : f.name = caller := by simpa using List.find?_some hf
  have hother : callee.name ≠ caller := fun e => p.uniqueName_not_mem hint
    (hname ▸ hname' ▸ e ▸ hcaller ▸ List.mem_map_of_mem (List.mem_of_find?_eq_some hf))
  have hgname : g.name = caller :=
    (Outline.splice_replaceByCall hr hg).grows.name.trans hcaller
  refine ⟨o, inner, g, callee, hlive, ho, hresult, hcallee, hg, ?_, ?_⟩
  · rw [find?_insert_of_ne _ hother, ← hgname, find?_insert_self]
  · rw [← hname', find?_insert_self]

theorem outline_effects {caller hint : String} {op : OpId} {marker : Option Stage}
    {outlined : Outlined} (hf : p.find? caller = some f) (hwf : f.WellFormed)
    (hret : ∀ o, f.op? op = some o → o.kind ≠ .ret)
    (h : (p.outline caller op hint marker).outcome = .ok (.ok (q, outlined))) :
    ∃ g callee k b hd x z, q.find? caller = some g ∧ q.find? outlined.callee = some callee ∧
      f.code = Spine.plug k (b ++ .node hd x z) ∧ hd.op = op ∧
      (∀ arguments, g.expansion outlined.call callee arguments =
        (k.plug (b ++ .node hd .nil z)).effects (fun _ => 0) (Data.entry f arguments)) ∧
      (x = .nil → ∀ arguments,
        g.expansion outlined.call callee arguments = f.effects arguments) := by
  obtain ⟨o, inner, g, callee, hlive, ho, hresult, hcallee, hg, hfound, hfound'⟩ :=
    outline_eq_ok hf hwf h
  obtain ⟨k, b, hd, x, z, rfl, hcode⟩ := hwf.exists_at hlive
  have hr : f.Represents (k.plug (b ++ .node hd x z)) := hcode ▸ hwf
  rw [hr.record_at, Except.ok.injEq] at ho
  subst ho
  have hres : hd.result = none := by simpa [Node.record] using hresult
  obtain ⟨-, harity, -, inner', op, hkind, hops, -, -, hinner⟩ := Outline.represents_callee hcallee
  have hexpands := Outline.expands_replaceByCall hr hg hres
    (hret _ (Function.op_eq_ok.1 hr.record_at)) harity hkind hops hinner
  have hsplice := Outline.splice_replaceByCall hr hg
  have hsame : ∀ arguments, g.expansion outlined.call callee arguments =
      (k.plug (b ++ .node hd .nil z)).effects (fun _ => 0) (Data.entry f arguments) := by
    intro arguments
    have hentry : Data.entry g arguments = Data.entry f arguments := by
      funext v
      rw [Data.entry, Data.entry, hsplice.grows.arity]
    rw [Function.expansion, hexpands.effects, hentry]
  refine ⟨g, callee, k, b, hd, x, z, hfound, hfound', hcode, rfl, hsame, fun hx arguments => ?_⟩
  rw [hsame, Function.effects, hcode, hx]

def copies : Function where
  name := "copies"
  ops := #[⟨.forLoop ⟨0, 2, 1, Int.zero_lt_one⟩, [], none, none, [⟨1⟩], [⟨2⟩], none, true⟩,
    ⟨.copy, [⟨1⟩, ⟨0⟩], none, none, [], [], some ⟨0⟩, true⟩,
    ⟨.copy, [⟨0⟩, ⟨1⟩], none, none, [], [], none, true⟩,
    ⟨.ret, [], none, none, [], [], none, true⟩]
  values := #[⟨.buffer (.rowMajor [4] .float32 .global), .argument 0⟩,
    ⟨.buffer (.rowMajor [4] .float32 .global), .argument 1⟩, ⟨.index, .inductionVar ⟨0⟩ 0⟩]
  arity := 2
  body := [⟨0⟩, ⟨2⟩, ⟨3⟩]

theorem outline_effects_copies : ∃ q outlined g callee,
    ((⟨[copies]⟩ : Program).outline "copies" ⟨2⟩ "copy" none).outcome = .ok (.ok (q, outlined)) ∧
      q.find? "copies" = some g ∧ q.find? outlined.callee = some callee ∧
        ∀ arguments, g.expansion outlined.call callee arguments = copies.effects arguments := by
  have hok : (((⟨[copies]⟩ : Program).outline "copies" ⟨2⟩ "copy" none).outcome.toOption.map
      fun r => r.toOption.isSome) = some true := by decide +kernel
  have hfound : (⟨[copies]⟩ : Program).find? "copies" = some copies := by decide +kernel
  have hwf : copies.WellFormed := by decide +kernel
  have hkind : (copies.op? ⟨2⟩).map (·.kind) = some .copy := by decide +kernel
  have hempty : copies.op ⟨2⟩ = .ok ⟨.copy, [⟨0⟩, ⟨1⟩], none, none, [], [], none, true⟩ := rfl
  -- The run is not to be unfolded again: from here on the function is any that these hold of.
  generalize copies = f at *
  obtain ⟨r, hrun, hr⟩ := Fault.toOption_map_eq_some.1 hok
  cases r with
  | error e => simp [Except.toOption] at hr
  | ok r =>
    obtain ⟨g, callee, k, b, hd, x, z, hg, hcallee, hcode, hop, -, hsame⟩ :=
      outline_effects hfound hwf (fun o ho e => by simp [ho, e] at hkind) hrun
    refine ⟨r.1, r.2, g, callee, hrun, hg, hcallee, hsame ?_⟩
    have hrep : f.Represents (k.plug (b ++ .node hd x z)) := hcode ▸ hwf
    have hrecord := hop ▸ hrep.record_at
    rw [hempty, Except.ok.injEq] at hrecord
    have hroots : [] = x.roots := congrArg Operation.region hrecord
    cases x with
    | nil => rfl
    | node => simp [Code.roots] at hroots

def copyArguments : List Datum := [.buffer ⟨⟨0⟩, 0⟩ id [4], .buffer ⟨⟨1⟩, 0⟩ id [4]]

theorem expansion_ne_effects_copies : copies.WellFormed ∧ copies.Scoped ∧ ∃ q outlined g callee,
    ((⟨[copies]⟩ : Program).outline "copies" ⟨0⟩ "loop" none).outcome = .ok (.ok (q, outlined)) ∧
      q.find? "copies" = some g ∧ q.find? outlined.callee = some callee ∧
        g.expansion outlined.call callee copyArguments ≠ copies.effects copyArguments := by
  have hok : (((⟨[copies]⟩ : Program).outline "copies" ⟨0⟩ "loop" none).outcome.toOption.map
      fun r => r.toOption.bind fun r => (r.1.find? "copies").bind fun g =>
        (r.1.find? r.2.callee).map fun callee =>
          decide (g.expansion r.2.call callee copyArguments ≠ copies.effects copyArguments)) =
      some (some true) := by decide +kernel
  have hwf : copies.WellFormed := by decide +kernel
  have hin : copies.Scoped := by decide +kernel
  generalize copies = f at *
  obtain ⟨r, hrun, hr⟩ := Fault.toOption_map_eq_some.1 hok
  cases r with
  | error e => simp [Except.toOption] at hr
  | ok r =>
    simp only [Except.toOption, Option.bind_some, Option.bind_eq_some_iff, Option.map_eq_some_iff,
      decide_eq_true_eq] at hr
    obtain ⟨g, hg, callee, hcallee, hne⟩ := hr
    exact ⟨hwf, hin, r.1, r.2, g, callee, hrun, hg, hcallee, hne⟩

end Program

end KernelLowering
