import KernelLowering.Proofs.Arena.Building
import KernelLowering.Proofs.Execution.Outlining
import KernelLowering.Proofs.Integrity.Intact

namespace KernelLowering

namespace Function

variable {f : Function} {k : Spine} {b x z : Code} {hd : Node} {name : String}

structure CallsInstead (f : Function) (op : OpId) (o : Operation) (callee : String) (call : OpId)
    (g : Function) : Prop where
  name : g.name = f.name
  arity : g.arity = f.arity
  values : g.values = f.values
  size : g.ops.size = f.ops.size + 1
  fresh : call = ⟨f.ops.size⟩
  record : g.op? call = some ⟨.call callee, o.operands, none, none, [], [], o.parent, true⟩
  erased : ∀ op' ∈ f.subtree op,
    g.op? op' = (f.op? op').map fun o' => { o' with live := false, region := [] }
  place : ∃ left right, f.region o.parent = .ok (left ++ op :: right) ∧
    g.body = (f.setRegion o.parent (left ++ call :: right)).body ∧
      ∀ op' ∉ f.subtree op, op' ≠ call →
        g.op? op' = (f.setRegion o.parent (left ++ call :: right)).op? op'

def calling (f : Function) (k : Spine) (b z : Code) (name : String) (operands : List ValueId) : Function :=
  f.withOp (.call name) operands none none k.parent (b.roots ++ ⟨f.ops.size⟩ :: z.roots)

theorem callsInstead (hr : f.Represents (k.plug (b ++ .node hd x z))) :
    f.CallsInstead hd.op (hd.record k.parent x.roots) name ⟨f.ops.size⟩
      ((f.calling k b (.node hd x z) name hd.operands).without k.parent
        (b.roots ++ ⟨f.ops.size⟩ :: z.roots) (hd.op :: x.ops)) := by
  have hfresh := hr.fresh
  have hsub := hr.subtree_eq
  have hin : ∀ op ∈ hd.op :: x.ops, op ∈ (b ++ .node hd x z).ops := by
    intro op hop
    simp only [Code.ops_append, Code.ops, List.mem_append, List.mem_cons] at hop ⊢
    tauto
  have hparent : k.parent ≠ some ⟨f.ops.size⟩ := fun hp =>
    hfresh (Spine.mem_ops_plug.2 (.inr (Spine.parent_mem_ops hp)))
  have hself : (⟨f.ops.size⟩ : OpId) ∉ hd.op :: x.ops := fun hop =>
    hfresh (Spine.mem_ops_plug.2 (.inl (hin _ hop)))
  have hsame : (f.addOp (.call name) hd.operands none none).1.SameValues
      ((f.calling k b (.node hd x z) name hd.operands).without k.parent
        (b.roots ++ ⟨f.ops.size⟩ :: z.roots) (hd.op :: x.ops)) :=
    sameValues_withOp.trans (sameValues_without _ _ _ _)
  refine ⟨hsame.name, hsame.arity, hsame.values.trans ?_, hsame.size.trans ?_, rfl, ?_, ?_,
    b.roots, z.roots, ?_, ?_, ?_⟩
  · simp [addOp, definedValues, OpKind.loopRanges]
  · simp [addOp]
  · rw [op?_without_of_not_mem hself hparent, calling, op?_withOp_self hparent]
    rfl
  · intro op hop
    rw [hsub] at hop
    rw [without, op?_foldl_retire, if_pos hop,
      op?_setRegion_of_ne fun hp => hr.parent_not_mem hp (hin op hop), calling,
      op?_withOp_of_mem hr (hin op hop)]
  · rw [Node.record, hr.holds.1.region, Code.roots_append, Code.roots]
  · rw [without, body_foldl_retire, calling, withOp, setParent, Node.record]
    cases k.parent <;> rfl
  · intro op hop hne
    rw [hsub] at hop
    by_cases hp : k.parent = some op
    · rw [without, op?_foldl_retire, if_neg hop, calling, withOp, setParent, Node.record, hp, setRegion,
        op?_modifyOp_self, op?_modifyOp_of_ne (Ne.symm hne), setRegion, op?_modifyOp_self,
        op?_addOp_of_ne hne, setRegion, op?_modifyOp_self, Option.map_map]
      rfl
    · rw [op?_without_of_not_mem hop hp, calling, op?_withOp_of_ne hne hp]
      exact (op?_setRegion_of_ne hp).symm

theorem run_calling (name : String) (hr : f.Represents (k.plug (b ++ .node hd x z))) :
    (Build.call name hd.operands).run ⟨f, .before hd.op⟩ =
        .ok (⟨f.ops.size⟩, ⟨f.calling k b (.node hd x z) name hd.operands, .before hd.op⟩) ∧
      (Build.erase hd.op).run ⟨f.calling k b (.node hd x z) name hd.operands, .before hd.op⟩ =
        .ok ((), ⟨(f.calling k b (.node hd x z) name hd.operands).without k.parent
          (b.roots ++ ⟨f.ops.size⟩ :: z.roots) (hd.op :: x.ops), .before hd.op⟩) := by
  have hcursor : Cursor ⟨f, .before hd.op⟩ k b (.node hd x z) := ⟨hr, rfl⟩
  refine ⟨hcursor.run_insert, ?_⟩
  have hinserted : Cursor ⟨f.calling k b (.node hd x z) name hd.operands, .before hd.op⟩ k
      (b ++ .node (f.nextNode (.call name) hd.operands none none) .nil .nil) (.node hd x z) :=
    hcursor.inserted_cursor
  have hedit : (f.calling k b (.node hd x z) name hd.operands).erase hd.op =
      .ok ((f.calling k b (.node hd x z) name hd.operands).without k.parent
        (b.roots ++ ⟨f.ops.size⟩ :: z.roots) (hd.op :: x.ops)) := by
    simpa [Code.roots, nextNode] using hinserted.represents.erase_eq
  simp [Build.erase, Build.edit, hedit]

end Function

namespace Outline

variable {f : Function} {o : Operation} {op : OpId} {name : String} {marker : Option Stage}

theorem callsInstead_of_ok {r : OpId × Function} (hwf : f.WellFormed) (ho : f.op? op = some o)
    (hlive : o.live = true) (h : replaceByCall f op o name = .ok r) :
    f.CallsInstead op o name r.1 r.2 ∧ ∃ s point,
      (Build.call name o.operands).run ⟨f, .before op⟩ = .ok (r.1, s) ∧ s.function.name = f.name ∧
        (Build.erase op).run s = .ok ((), ⟨r.2, point⟩) := by
  obtain ⟨k, b, hd, x, z, rfl, hcode⟩ := hwf.exists_at (Function.isLive_eq_ok.2 ⟨o, ho, hlive⟩)
  have hr : f.Represents (k.plug (b ++ .node hd x z)) := hcode ▸ hwf
  obtain rfl : hd.record k.parent x.roots = o := by
    simpa using hr.record_at.symm.trans (Function.op_eq_ok.2 ho)
  obtain ⟨hcall, herase⟩ := Function.run_calling name hr
  rw [replaceByCall, Build.runOn, Node.record] at h
  simp only [StateT.run_bind, hcall, herase, Fault.ok_bind, StateT.run_pure] at h
  obtain rfl := Except.ok.inj h
  exact ⟨Function.callsInstead hr, _, _, hcall, Function.sameValues_withOp.name, herase⟩

theorem types_callee {r : OpId × Function} (h : callee f o name marker = .ok r) : r.2.name = name ∧
    ∃ types, o.operands.mapM f.typeOf = .ok types ∧ r.2.arguments.mapM r.2.typeOf = .ok types := by
  obtain ⟨types, htypes, h⟩ := Fault.bind_eq_ok.1 h
  dsimp only at h
  have hgrows : (Function.empty name types).Grows r.2 := by
    generalize hempty : Function.empty name types = empty at h ⊢
    refine Yields.of_ok (v := False) (q := fun r => empty.Grows r.2) ?_ h
    subst hempty
    rw [Build.yields_runOn]
    simp only [Build.yields_bind, Build.yields_discard, Build.yields_pure]
    refine ((Cursor.empty _ _).yields_insert _ _ _ _).mono fun r _ hw => ?_
    exact (hw.2.cursor.yields_effect _ _ _ rfl).mono fun r' _ hw' => (hw.2.trans hw').grows
  refine ⟨hgrows.name, types, htypes, Fault.mapM_eq_ok.2 ?_⟩
  have harity : r.2.arity = types.length := hgrows.arity
  refine List.forall₂_iff_get.2 ⟨by simp [harity], fun i hi hi' => ?_⟩
  simp only [List.get_eq_getElem, Function.arguments, List.getElem_map, List.getElem_range]
  exact hgrows.typeOf_argument hi'

end Outline

namespace Program

variable {p q : Program} {f g : Function} {caller hint name : String} {op : OpId} {marker : Option Stage}

def FirstFree (p : Program) (hint name : String) : Prop :=
  hint ∉ p.names ∧ name = hint ∨
    hint ∈ p.names ∧ ∃ n, 1 ≤ n ∧ name = numbered hint n ∧ name ∉ p.names ∧
      ∀ m, 1 ≤ m → m < n → numbered hint m ∈ p.names

theorem uniqueName_firstFree (p : Program) (hint : String) : p.FirstFree hint (p.uniqueName hint) := by
  by_cases hused : hint ∈ p.names
  · have hfree := p.uniqueName_not_mem hint
    simp only [uniqueName, if_pos hused] at hfree ⊢
    cases hfound : ((List.range (p.functions.length + 1)).map fun i => numbered hint (i + 1)).find?
        (· ∉ p.names) with
    | none =>
      rw [hfound, Option.getD_none] at hfree
      exact absurd hused hfree
    | some name =>
      rw [hfound, Option.getD_some] at hfree
      rw [Option.getD_some]
      obtain ⟨-, i, hi, hname, hearlier⟩ := List.find?_eq_some_iff_getElem.1 hfound
      simp only [List.getElem_map, List.getElem_range, decide_not, Bool.not_not,
        decide_eq_true_eq] at hname hearlier
      refine .inr ⟨hused, i + 1, Nat.le_add_left 1 i, hname.symm, hfree, fun m hm hlt => ?_⟩
      obtain ⟨m, rfl⟩ := Nat.exists_eq_add_of_le' hm
      exact hearlier m (by omega)
  · exact .inl ⟨hused, uniqueName_of_not_mem hused⟩

theorem insertInto_append {before after : List Function} (hbefore : ∀ f' ∈ before, f'.name ≠ g.name)
    (hname : f.name = g.name) : insertInto g (before ++ f :: after) = before ++ g :: after := by
  induction before with
  | nil => rw [List.nil_append, insertInto, if_pos hname, List.nil_append]
  | cons f' before ih =>
    rw [List.forall_mem_cons] at hbefore
    rw [List.cons_append, insertInto, if_neg hbefore.1, ih hbefore.2, List.cons_append]

theorem exists_insert (hf : p.find? caller = some f) : ∃ before after,
    p.functions = before ++ f :: after ∧ (∀ f' ∈ before, f'.name ≠ caller) ∧ f.name = caller ∧
      ∀ g, g.name = caller → (p.insert g).functions = before ++ g :: after := by
  obtain ⟨hname, before, after, hp, hbefore⟩ := List.find?_eq_some_iff_append.1 hf
  have hname : f.name = caller := by simpa using hname
  have hbefore : ∀ f' ∈ before, f'.name ≠ caller := by simpa using hbefore
  refine ⟨before, after, hp, hbefore, hname, fun g hg => ?_⟩
  rw [insert, hp]
  exact insertInto_append (hg ▸ hbefore) (hname.trans hg.symm)

theorem insert_insert (p : Program) (hname : f.name = g.name) : (p.insert f).insert g = p.insert g := by
  have hlist : ∀ fs, insertInto g (insertInto f fs) = insertInto g fs := by
    intro fs
    induction fs with
    | nil => simp [insertInto, hname]
    | cons f' fs ih =>
      by_cases hf' : f'.name = f.name
      · simp [insertInto, hf', hname]
      · have hg' : f'.name ≠ g.name := hname ▸ hf'
        simp [insertInto, hf', hg', ih]
  exact congrArg Program.mk (hlist p.functions)

/-- Outlining in place: every edit of the caller is one of the program. -/
def outlineInPlace (caller : String) (op : OpId) (hint : String) (marker : Option Stage) :
    StateT Program Logged (Except OutlineError Outlined) := do
  let p ← get
  let name := p.uniqueName hint
  let some f := p.find? caller
    | return .error (.unknownFunction caller)
  if !(← f.isLive op) then
    return .error (.erasedOp op)
  let o ← f.op op
  if o.result.isSome then
    return .error (.producesValue op)
  let (inner, callee) ← Outline.callee f o name marker
  let (call, builder) ← (Build.call name o.operands).run ⟨f, .before op⟩
  modify (·.insert builder.function)
  let ((), builder) ← (Build.erase op).run builder
  modify (·.insert builder.function)
  Logged.report (.outlined op caller name)
  modify (·.insert callee)
  return .ok ⟨call, name, inner⟩

/-- Why an operation cannot be outlined. -/
inductive Refuses (p : Program) (caller : String) (op : OpId) : OutlineError → Prop
  | unknown (hf : p.find? caller = none) : p.Refuses caller op (.unknownFunction caller)
  | erased {f : Function} (hf : p.find? caller = some f) (hlive : f.isLive op = .ok false) :
    p.Refuses caller op (.erasedOp op)
  | produces {f : Function} {o : Operation} (hf : p.find? caller = some f) (ho : f.op? op = some o)
    (hlive : o.live = true) (hresult : o.result.isSome) : p.Refuses caller op (.producesValue op)

theorem Refuses.run {e : OutlineError} (hint : String) (marker : Option Stage) (h : p.Refuses caller op e) :
    (p.outline caller op hint marker).outcome = .ok (.error e) ∧
      ((outlineInPlace caller op hint marker).run p).outcome = .ok (.error e, p) := by
  cases h with
  | unknown hf => simp [outline, outlineInPlace, hf]
  | erased hf hlive => simp [outline, outlineInPlace, hf, hlive]
  | produces hf ho hlive hresult =>
    have hok := Function.isLive_eq_ok.2 ⟨_, ho, hlive⟩
    simp [outline, outlineInPlace, hf, hok, Function.op_eq_ok.2 ho, hresult]

/-- The call has taken the place of the operation, and the callee comes behind all other functions. -/
structure Outlines (p : Program) (caller : String) (op : OpId) (hint : String) (q : Program)
    (outlined : Outlined) : Prop where
  callee : p.FirstFree hint outlined.callee
  functions : ∃ before f after g callee, p.functions = before ++ f :: after ∧
    (∀ f' ∈ before, f'.name ≠ caller) ∧ f.name = caller ∧
      q.functions = before ++ g :: after ++ [callee] ∧ callee.name = outlined.callee ∧
        ∃ o, f.op? op = some o ∧ o.live = true ∧ o.result = none ∧
          f.CallsInstead op o outlined.callee outlined.call g ∧
            ∃ types, o.operands.mapM f.typeOf = .ok types ∧
              callee.arguments.mapM callee.typeOf = .ok types

theorem refuses_or_outlinable (caller : String)
    (hop : ∀ f, p.find? caller = some f → op.index < f.ops.size) :
    (∃ e, p.Refuses caller op e) ∨
      ∃ f o, p.find? caller = some f ∧ f.op? op = some o ∧ o.live = true ∧ o.result = none := by
  cases hf : p.find? caller with
  | none => exact .inl ⟨_, .unknown hf⟩
  | some f =>
    obtain ⟨o, ho⟩ : ∃ o, f.op? op = some o := ⟨_, Array.getElem?_eq_getElem (hop f hf)⟩
    cases hlive : o.live with
    | false => exact .inl ⟨_, .erased hf (Function.isLive_eq_ok.2 ⟨o, ho, hlive⟩)⟩
    | true =>
      cases hresult : o.result with
      | some v => exact .inl ⟨_, .produces hf ho hlive (by rw [hresult]; rfl)⟩
      | none => exact .inr ⟨f, o, rfl, ho, hlive, hresult⟩

section Outlinable

variable {o : Operation} (hf : p.find? caller = some f) (hwf : f.WellFormed) (ho : f.op? op = some o)
  (hlive : o.live = true) (hresult : o.result = none)

include hf hwf ho hlive hresult

theorem outlines_of_ok {inner : OpId × Function} {called : OpId × Function}
    (hcallee : Outline.callee f o (p.uniqueName hint) marker = .ok inner)
    (hcalled : Outline.replaceByCall f op o (p.uniqueName hint) = .ok called) :
    p.Outlines caller op hint ((p.insert called.2).insert inner.2)
        ⟨called.1, p.uniqueName hint, inner.1⟩ ∧
      ((outlineInPlace caller op hint marker).run p).outcome = .ok
        (.ok ⟨called.1, p.uniqueName hint, inner.1⟩, (p.insert called.2).insert inner.2) := by
  obtain ⟨hcalls, s, point, hcall, hsame, herase⟩ := Outline.callsInstead_of_ok hwf ho hlive hcalled
  obtain ⟨hname, types, htypes, htypes'⟩ := Outline.types_callee hcallee
  obtain ⟨before, after, hp, hbefore, hcaller, hinsert⟩ := exists_insert hf
  have hcalledName : called.2.name = caller := hcalls.name.trans hcaller
  refine ⟨⟨p.uniqueName_firstFree hint, before, f, after, called.2, inner.2, hp, hbefore, hcaller, ?_,
    hname, o, ho, hlive, hresult, hcalls, types, htypes, htypes'⟩, ?_⟩
  · have hnew : inner.2.name ∉ (before ++ called.2 :: after).map (·.name) := by
      have hfree := p.uniqueName_not_mem hint
      rw [names, hp, ← hname] at hfree
      simpa [hcalledName, hcaller] using hfree
    rw [insert, hinsert _ hcalledName, insertInto_of_not_mem hnew]
  · have hagain := insert_insert p (hsame.trans (hcaller.trans hcalledName.symm))
    simp [outlineInPlace, hf, Function.isLive_eq_ok.2 ⟨_, ho, hlive⟩, Function.op_eq_ok.2 ho, hresult,
      hcallee, hcall, herase, hagain]

theorem ends_outline (hint : String) (marker : Option Stage) :
    Ends (fun _ => ∃ v ∈ o.operands, ¬ f.Has v) (p.outline caller op hint marker).outcome
      fun r => ∃ q outlined, r = .ok (q, outlined) ∧ p.Outlines caller op hint q outlined ∧
        ((outlineInPlace caller op hint marker).run p).outcome = .ok (.ok outlined, q) := by
  have houtcome : (p.outline caller op hint marker).outcome = (do
      let inner ← Outline.callee f o (p.uniqueName hint) marker
      let called ← Outline.replaceByCall f op o (p.uniqueName hint)
      .ok (.ok ((p.insert called.2).insert inner.2, ⟨called.1, p.uniqueName hint, inner.1⟩))) := by
    simp [outline, hf, Function.isLive_eq_ok.2 ⟨_, ho, hlive⟩, Function.op_eq_ok.2 ho, hresult]
  rw [houtcome]
  cases hcallee : Outline.callee f o (p.uniqueName hint) marker with
  | error fault =>
    show ∃ v ∈ o.operands, ¬ f.Has v
    by_contra hall
    have hops : ∀ v ∈ o.operands, f.Has v := by simpa using hall
    obtain ⟨types, htypes⟩ := Function.exists_types hops
    obtain ⟨r, hr, -⟩ := (@Outline.yields_callee f o (p.uniqueName hint) marker False types
      htypes).exists_of_not
    simp [hcallee] at hr
  | ok inner =>
    obtain ⟨k, b, hd, x, z, rfl, hcode⟩ := hwf.exists_at (Function.isLive_eq_ok.2 ⟨o, ho, hlive⟩)
    obtain ⟨called, hcalled, -⟩ := (@Outline.yields_replaceByCall f k b x z hd o (p.uniqueName hint) False
      (hcode ▸ hwf)).exists_of_not
    rw [Fault.ok_bind, hcalled, Fault.ok_bind]
    exact ⟨_, _, rfl, outlines_of_ok hf hwf ho hlive hresult hcallee hcalled⟩

end Outlinable

theorem outline_atomic (hwf : ∀ f ∈ p.functions, f.WellFormed)
    (hop : ∀ f, p.find? caller = some f → op.index < f.ops.size) :
    Ends (fun _ => ∃ f o, p.find? caller = some f ∧ f.op? op = some o ∧ ∃ v ∈ o.operands, ¬ f.Has v)
      (p.outline caller op hint marker).outcome fun
        | .error e => p.Refuses caller op e ∧
          ((outlineInPlace caller op hint marker).run p).outcome = .ok (.error e, p)
        | .ok (q, outlined) => p.Outlines caller op hint q outlined ∧
          ((outlineInPlace caller op hint marker).run p).outcome = .ok (.ok outlined, q) := by
  rcases refuses_or_outlinable caller hop with ⟨e, hrefused⟩ | ⟨f, o, hf, ho, hlive, hresult⟩
  · obtain ⟨hrun, hplace⟩ := hrefused.run hint marker
    rw [hrun]
    exact ⟨hrefused, hplace⟩
  · have hends := ends_outline hf (hwf f (List.mem_of_find?_eq_some hf)) ho hlive hresult hint marker
    cases h : (p.outline caller op hint marker).outcome with
    | error fault =>
      rw [h] at hends
      exact ⟨f, o, hf, ho, hends⟩
    | ok r =>
      obtain ⟨q, outlined, rfl, hdone⟩ := hends.of_ok h
      exact hdone

theorem outline_atomic_copies : (∀ f ∈ (⟨[copies]⟩ : Program).functions, f.WellFormed) ∧
    (∀ f, (⟨[copies]⟩ : Program).find? "copies" = some f → 0 < f.ops.size) ∧ ∃ q outlined,
      ((⟨[copies]⟩ : Program).outline "copies" ⟨0⟩ "copies" none).outcome = .ok (.ok (q, outlined)) ∧
        outlined.callee = "copies_1" ∧ (⟨[copies]⟩ : Program).Outlines "copies" ⟨0⟩ "copies" q outlined := by
  have hwf : ∀ f ∈ (⟨[copies]⟩ : Program).functions, f.WellFormed := by decide +kernel
  have hfound : (⟨[copies]⟩ : Program).find? "copies" = some copies := by decide +kernel
  have hop : ∀ f, (⟨[copies]⟩ : Program).find? "copies" = some f → 0 < f.ops.size := by
    intro f hf
    rw [hfound, Option.some.injEq] at hf
    exact hf ▸ (by decide)
  have hok : ((⟨[copies]⟩ : Program).outline "copies" ⟨0⟩ "copies" none).outcome.toOption.map
      (fun r => r.toOption.map (·.2.callee)) = some (some "copies_1") := by decide +kernel
  generalize copies = f at *
  obtain ⟨r, hr, hcallee⟩ := Fault.toOption_map_eq_some.1 hok
  have hdone := (@outline_atomic _ _ "copies" ⟨0⟩ none hwf hop).of_ok hr
  match r, hcallee, hdone with
  | .ok (q, outlined), hcallee, hdone =>
    exact ⟨hwf, hop, q, outlined, hr, by simpa [Except.toOption] using hcallee, hdone.1⟩

end Program

end KernelLowering
