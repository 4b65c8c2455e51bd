import KernelLowering.Proofs.Convergence.Cleanup
import KernelLowering.Proofs.Convergence.NormalForms

namespace KernelLowering

namespace Inspect

theorem answers_anyM_of_false {α : Type} {xs : List α} {q : α → Inspect Bool}
    (h : ∀ x ∈ xs, (q x).Answers false) : (xs.anyM q).Answers false := by
  induction xs with
  | nil => exact answers_pure.2 rfl
  | cons x xs ih =>
    rw [List.forall_mem_cons] at h
    rw [List.anyM, answers_bind]
    exact ⟨false, h.1, ih h.2⟩

end Inspect

structure Node.Normal (f : Function) (c : Code) (h : Node) : Prop where
  ranges : ∀ r ∈ h.kind.loopRanges, ∃ n, r.tripCount = .ok n ∧ 1 < n
  addition : h.kind = .addIndex → ∃ lhs rhs rest, h.operands = lhs :: rhs :: rest ∧
    (f.Has lhs ∧ f.Has rhs) ∧ (c.constant? lhs = none ∨ c.constant? rhs = none) ∧
      c.constant? lhs ≠ some 0 ∧ c.constant? rhs ≠ some 0
  offsets : h.kind.window?.isSome = true → ∃ source supplied, h.operands = source :: supplied ∧
    ∀ v ∈ supplied, f.Has v ∧ c.constant? v = none

variable {f g : Function} {k : Spine} {b x z c : Code} {hd h : Node}

theorem Node.Normal.of_other (hranges : h.kind.loopRanges = []) (hadd : h.kind ≠ .addIndex)
    (hwindow : h.kind.window? = none) : h.Normal f c where
  ranges := by simp [hranges]
  addition hk := (hadd hk).elim
  offsets hw := by simp [hwindow] at hw

namespace Function

theorem Represents.normal_of_refused (hr : f.Represents c) (hh : h ∈ c.heads)
    (hrefused : ∀ rule ∈ Rule.canonicalization, ∃ reason, (rule.check f h.op).Refuses reason) :
    h.Normal f c := by
  obtain ⟨parent, region, hop⟩ := hr.exists_record hh
  rw [← op_eq_ok] at hop
  have hconstant : ∀ {v n}, f.constant? v = .ok n → f.Has v ∧ c.constant? v = n := by
    intro v n hv
    have hhas := has_of_constant? hv
    rw [hr.constant?_eq hhas, Except.ok.injEq] at hv
    exact ⟨hhas, hv⟩
  refine ⟨?_, fun hkind => ?_, fun hwindow => ?_⟩
  · obtain ⟨reason, hcheck⟩ := hrefused .trivialLoops (by simp [Rule.canonicalization])
    exact ranges_of_refused hop hcheck
  · obtain ⟨reason, hcheck⟩ := hrefused .additionFolding (by simp [Rule.canonicalization])
    obtain ⟨lhs, rhs, rest, m, n, hops, hl, hr', hnone, hlhs, hrhs⟩ :=
      addition_of_refused hop hcheck hkind
    obtain ⟨hhas, rfl⟩ := hconstant hl
    obtain ⟨hhas', rfl⟩ := hconstant hr'
    exact ⟨lhs, rhs, rest, hops, ⟨hhas, hhas'⟩, hnone, hlhs, hrhs⟩
  · obtain ⟨reason, hcheck⟩ := hrefused .offsetFolding (by simp [Rule.canonicalization])
    have hnone := offsets_of_refused hop hcheck hwindow
    obtain ⟨source, supplied, hops⟩ : ∃ source supplied, h.operands = source :: supplied := by
      cases hops : h.operands with
      | cons source supplied => exact ⟨source, supplied, rfl⟩
      | nil =>
        obtain ⟨w, hw⟩ := Option.isSome_iff_exists.1 hwindow
        simp [Rule.check, OffsetFolding.check, Inspect.refuses_bind, hop, Operation.window,
          Node.record, hw, Inspect.orDecline, Operation.offsetOperands, hops] at hcheck
    exact ⟨source, supplied, hops, fun v hv => hconstant (hnone v (by simpa [Node.record, hops] using hv))⟩

theorem Represents.refused_of_normal (hr : f.Represents c) (hh : h ∈ c.heads) (hn : h.Normal f c) :
    ∀ rule ∈ Rule.canonicalization, ∃ reason, (rule.check f h.op).Refuses reason := by
  obtain ⟨parent, region, hop⟩ := hr.exists_record hh
  rw [← op_eq_ok] at hop
  simp only [Rule.canonicalization, List.forall_mem_cons, List.not_mem_nil, false_imp_iff,
    implies_true, and_true, Rule.check]
  refine ⟨?_, ?_, ?_⟩
  · simp only [TrivialLoops.check, Inspect.refuses_bind, Inspect.not_refuses_lift,
      Inspect.answers_lift, hop, Except.ok.injEq, exists_eq_left', false_or, Node.record]
    split
    · exact ⟨_, Inspect.refuses_bind.2 (.inl (Inspect.refuses_throw.2 rfl))⟩
    · refine ⟨.noTrivialLoop, Inspect.refuses_bind.2 (.inr ⟨false, ?_, by simp⟩)⟩
      refine Inspect.answers_anyM_of_false fun r hr => ?_
      obtain ⟨n, hn, hlt⟩ := hn.ranges r hr
      simp [hn, hlt]
  · by_cases hkind : h.kind = .addIndex
    · obtain ⟨lhs, rhs, rest, hops, ⟨hl, hr'⟩, hnone, hlhs, hrhs⟩ := hn.addition hkind
      refine ⟨.nothingToFold, ?_⟩
      simp only [AdditionFolding.check, Inspect.refuses_bind, Inspect.not_refuses_lift,
        Inspect.answers_lift, hop, Except.ok.injEq, exists_eq_left', false_or, Node.record, hkind,
        ne_eq, not_true_eq_false, if_false, Operation.operand, hops, List.getElem?_cons_zero,
        List.getElem?_cons_succ, Fault.require_some, hr.constant?_eq hl, hr.constant?_eq hr']
      split
      · next hm hn' => simp [hm, hn'] at hnone
      · next hm _ => exact (hlhs hm).elim
      · next _ hn' => exact (hrhs hn').elim
      · simp
    · exact ⟨.wrongKind, by simp [AdditionFolding.check, Inspect.refuses_bind, hop, Node.record, hkind]⟩
  · cases hwindow : h.kind.window? with
    | none => exact ⟨.wrongKind, by
        simp [OffsetFolding.check, Inspect.refuses_bind, hop, Operation.window, Node.record, hwindow,
          Inspect.orDecline]⟩
    | some w =>
      obtain ⟨source, supplied, hops, hsupplied⟩ := hn.offsets (by simp [hwindow])
      have hfound : (supplied.anyM fun v => do return (← f.constant? v).isSome : Inspect Bool).Answers
          false := Inspect.answers_anyM_of_false fun v hv => by
        simp [hr.constant?_eq (hsupplied v hv).1, (hsupplied v hv).2]
      refine ⟨.nothingToFold, ?_⟩
      simp only [OffsetFolding.check, Inspect.refuses_bind, Inspect.not_refuses_lift,
        Inspect.answers_lift, hop, Except.ok.injEq, exists_eq_left', false_or, Node.record,
        Operation.window, hwindow, Operation.offsetOperands, hops]
      exact .inr ⟨(), by simp, .inr ⟨false, hfound, by simp⟩⟩

def KeepsVariables (f g : Function) (c : Code) (σ : ValueId → ValueId) : Prop :=
  ∀ v, f.Has v → g.Has (σ v) ∧ ∀ n, g.code.constant? (σ v) = some n → c.constant? v = some n

theorem KeepsVariables.constant?_eq_none {σ : ValueId → ValueId} {v : ValueId}
    (hσ : f.KeepsVariables g c σ) (hhas : f.Has v) (hnone : c.constant? v = none) :
    g.code.constant? (σ v) = none := by
  refine Option.eq_none_iff_forall_ne_some.2 fun n hn => ?_
  rw [(hσ v hhas).2 n hn] at hnone
  cases hnone

theorem KeepsVariables.normal {σ : ValueId → ValueId} (hσ : f.KeepsVariables g c σ)
    (hn : h.Normal f c) : (h.rename σ).Normal g g.code where
  ranges := hn.ranges
  addition hkind := by
    obtain ⟨lhs, rhs, rest, hops, ⟨hl, hr⟩, hnone, hlhs, hrhs⟩ := hn.addition hkind
    refine ⟨σ lhs, σ rhs, rest.map σ, by simp [Node.rename, hops], ⟨(hσ lhs hl).1, (hσ rhs hr).1⟩,
      hnone.imp (hσ.constant?_eq_none hl) (hσ.constant?_eq_none hr),
      fun hzero => hlhs ((hσ lhs hl).2 0 hzero), fun hzero => hrhs ((hσ rhs hr).2 0 hzero)⟩
  offsets hwindow := by
    obtain ⟨source, supplied, hops, hsupplied⟩ := hn.offsets hwindow
    refine ⟨σ source, supplied.map σ, by simp [Node.rename, hops],
      List.forall_mem_map.2 fun v hv => ?_⟩
    obtain ⟨hhas, hnone⟩ := hsupplied v hv
    exact ⟨(hσ v hhas).1, hσ.constant?_eq_none hhas hnone⟩

theorem Replaces.constant?_of_fixed {σ : ValueId → ValueId} {new : List Node} {v : ValueId} {n : Int}
    (hg : f.Replaces g k b x z σ new) (hr : f.Represents (k.plug (b ++ .node hd x z)))
    (hhas : f.Has v) (hn : g.code.constant? v = some n) :
    (k.plug (b ++ .node hd x z)).constant? v = some n := by
  obtain ⟨d, hdef, hkind⟩ := Option.bind_eq_some_iff.1 hn
  obtain ⟨hd', t, hres⟩ := Code.of_definer? hdef
  rcases hg.cases hd' with hnew | ⟨h, hh, rfl⟩
  · exact absurd hhas (hg.values d hnew v (by simp [Node.defined, hres]))
  · exact Option.bind_eq_some_iff.2
      ⟨h, hr.definer?_eq (Spine.mem_heads_iff.2 (hh.imp_right .inr)) hres, hkind⟩

theorem Sheds.keepsVariables (hs : f.Sheds g k b x z hd) :
    f.KeepsVariables g (k.plug (b ++ .node hd x z)) id := fun _ hhas =>
  ⟨hs.same.grows.has hhas, fun _ hn => hs.replaces.constant?_of_fixed hs.before hhas hn⟩

theorem Cleaned.keepsVariables {σ : ValueId → ValueId} {new : List Node}
    (hc : f.Cleaned g k b x z hd σ new) (hr : f.Represents (k.plug (b ++ .node hd x z))) :
    f.KeepsVariables g (k.plug (b ++ .node hd x z)) σ := by
  intro v hhas
  refine ⟨(hc.respectsBuffers hc.replaces.grows).has v hhas, fun n hn => ?_⟩
  rcases hc.moves v with hsame | ⟨d, hd', t, hres, hnone⟩
  · exact hc.replaces.constant?_of_fixed hr hhas (hsame ▸ hn)
  · rw [Code.constant?, Represents.definer?_eq hc.replaces.wellFormed (hc.replaces.mem_new hd') hres,
      Option.bind_some, hnone] at hn
    cases hn

end Function

namespace ViewFolding

variable {dims : List (SuppliedOffset ValueId × SuppliedOffset ValueId)} {y : Code}
  {offsets : List Offset} {vs : List ValueId} {P : ValueId → Prop}

def Shifts (P : ValueId → Prop) (y : Code) (n : Node) : Prop :=
  ∃ u u', n.operands = [u, u'] ∧ P u ∧
    (P u' ∨ ∃ m ∈ y.heads, ∃ t i, m.result = some (u', t) ∧ m.kind = .constant i ∧ i ≠ 0)

theorem Shifts.mono {y' : Code} {n : Node} (hn : Shifts P y n) (hy : ∀ m ∈ y.heads, m ∈ y'.heads) :
    Shifts P y' n := by
  obtain ⟨u, u', hops, hu, hu'⟩ := hn
  exact ⟨u, u', hops, hu, hu'.imp_right fun ⟨m, hm, hrest⟩ => ⟨m, hy m hm, hrest⟩⟩

theorem shifts_of_shifted {op op' : OpId} {u c v : ValueId} {i : Int} (hu : P u) (hi : i ≠ 0) :
    (∀ n ∈ (Code.node (.value op (.constant i) [] c .index) .nil
        (.node (.value op' .addIndex [u, c] v .index) .nil .nil)).heads, n.kind = .addIndex →
      Shifts P (.node (.value op (.constant i) [] c .index) .nil
        (.node (.value op' .addIndex [u, c] v .index) .nil .nil)) n) ∧
      ∀ v' ∈ [v], P v' ∨ ∃ m ∈ (Code.node (.value op (.constant i) [] c .index) .nil
        (.node (.value op' .addIndex [u, c] v .index) .nil .nil)).heads,
          ∃ t, m.result = some (v', t) ∧ m.kind = .addIndex := by
  simp only [Code.heads, List.nil_append, List.forall_mem_cons, List.not_mem_nil, false_imp_iff,
    implies_true, and_true]
  exact ⟨⟨(by cases ·), fun _ => ⟨u, c, rfl, hu, .inr ⟨_, List.mem_cons_self, _, i, rfl, rfl, hi⟩⟩⟩,
    .inr ⟨_, List.mem_cons_of_mem _ List.mem_cons_self, _, rfl, rfl⟩⟩

theorem Summed.shifts {o o' : SuppliedOffset ValueId} {offset : Offset}
    (h : Summed o o' y offset vs) (ho : ∀ u, o = .supplied u → P u) (ho' : ∀ u, o' = .supplied u → P u) :
    (∀ n ∈ y.heads, n.kind = .addIndex → Shifts P y n) ∧
      ∀ v ∈ vs, P v ∨ ∃ m ∈ y.heads, ∃ t, m.result = some (v, t) ∧ m.kind = .addIndex := by
  cases h with
  | static => simp [Code.heads]
  | outer u => exact ⟨by simp [Code.heads], List.forall_mem_singleton.2 (.inl (ho u rfl))⟩
  | inner u => exact ⟨by simp [Code.heads], List.forall_mem_singleton.2 (.inl (ho' u rfl))⟩
  | outerShifted op op' c v hb => exact shifts_of_shifted (ho _ rfl) hb
  | innerShifted op op' c v ha => exact shifts_of_shifted (ho' _ rfl) ha
  | both u u' op v =>
    exact ⟨List.forall_mem_singleton.2 fun _ => ⟨u', u, rfl, ho' u' rfl, .inl (ho u rfl)⟩,
      List.forall_mem_singleton.2 (.inr ⟨_, List.mem_singleton_self _, _, rfl, rfl⟩)⟩

theorem SummedAll.shifts (h : SummedAll dims y offsets vs)
    (hdims : ∀ d ∈ dims, (∀ u, d.1 = .supplied u → P u) ∧ ∀ u, d.2 = .supplied u → P u) :
    (∀ n ∈ y.heads, n.kind = .addIndex → Shifts P y n) ∧
      ∀ v ∈ vs, P v ∨ ∃ m ∈ y.heads, ∃ t, m.result = some (v, t) ∧ m.kind = .addIndex := by
  induction h with
  | nil => simp [Code.heads]
  | cons hfirst _ ih =>
    rw [List.forall_mem_cons] at hdims
    obtain ⟨hsums, hvs⟩ := hfirst.shifts hdims.1.1 hdims.1.2
    obtain ⟨hsums', hvs'⟩ := ih hdims.2
    simp only [Code.heads_append, List.forall_mem_append]
    refine ⟨⟨fun n hn hk => (hsums n hn hk).mono (by simp +contextual), fun n hn hk =>
      (hsums' n hn hk).mono (by simp +contextual)⟩, fun v hv => ?_, fun v hv => ?_⟩
    · rcases hvs v hv with hP | ⟨m, hm, hrest⟩
      · exact .inl hP
      · exact .inr ⟨m, List.mem_append_left _ hm, hrest⟩
    · rcases hvs' v hv with hP | ⟨m, hm, hrest⟩
      · exact .inl hP
      · exact .inr ⟨m, List.mem_append_right _ hm, hrest⟩

end ViewFolding

namespace Function

section Folded

variable {w w' : Window} {inner : Node} {source r v : ValueId}
  {supplied supplied' vs : List ValueId} {result : BufferType} {y : Code} {offsets : List Offset}
  {op : OpId}
  (hreplaces : f.Replaces g k b x z (hd.redirect v)
    ((y.heads ++ [ViewFolding.made op w offsets source vs v result]).map (·.rename (hd.redirect v))))
  (hr : f.Represents (k.plug (b ++ .node hd x z)))

include hreplaces hr

theorem definer?_of_summed {m : Node} (hm : m ∈ y.heads) {u : ValueId} {t : ValueType}
    (hres : m.result = some (u, t)) : hd.redirect v u = u ∧ g.Has u ∧
      g.code.definer? u = some (m.rename (hd.redirect v)) := by
  have hnew : m.rename (hd.redirect v) ∈ (y.heads ++ [ViewFolding.made op w offsets source vs v
      result]).map (·.rename (hd.redirect v)) := List.mem_map_of_mem (List.mem_append_left _ hm)
  have hu : u ∈ (m.rename (hd.redirect v)).defined := by simp [Node.rename, Node.defined, hres]
  refine ⟨hd.redirect_of_not_mem (fun hdef => ?_) v, ?_, ?_⟩
  · exact hreplaces.values _ hnew u hu (hr.has_defined (Spine.mem_heads_at k b x z hd) u hdef)
  · exact Represents.has_of_mem hreplaces.wellFormed
      (List.mem_flatMap.2 ⟨_, hreplaces.mem_new hnew, hu⟩)
  · exact Represents.definer?_eq hreplaces.wellFormed (hreplaces.mem_new hnew) hres

theorem constant?_of_summed {m : Node} (hm : m ∈ y.heads) {u : ValueId} {t : ValueType}
    (hres : m.result = some (u, t)) : g.code.constant? (hd.redirect v u) = m.kind.constant? := by
  obtain ⟨hsame, -, hdef⟩ := definer?_of_summed hreplaces hr hm hres
  rw [hsame, Code.constant?, hdef]
  rfl

theorem normal_of_summed {dims : List (SuppliedOffset ValueId × SuppliedOffset ValueId)}
    (hσ : f.KeepsVariables g (k.plug (b ++ .node hd x z)) (hd.redirect v))
    (hsums : ViewFolding.SummedAll dims y offsets vs)
    (hdims : ∀ d ∈ dims, ∀ u, d.1 = .supplied u ∨ d.2 = .supplied u →
      f.Has u ∧ (k.plug (b ++ .node hd x z)).constant? u = none) :
    ∀ n ∈ (y.heads ++ [ViewFolding.made op w offsets source vs v result]).map
      (·.rename (hd.redirect v)), n.Normal g g.code := by
  obtain ⟨hadditions, hvs⟩ := hsums.shifts
    (P := fun u => f.Has u ∧ (k.plug (b ++ .node hd x z)).constant? u = none)
    fun d hd' => ⟨fun u hu => hdims d hd' u (.inl hu), fun u hu => hdims d hd' u (.inr hu)⟩
  rw [List.forall_mem_map, List.forall_mem_append, List.forall_mem_singleton]
  constructor
  · intro n hn
    rcases hsums.kind_eq n hn with hkind | ⟨i, hkind⟩
    · refine ⟨by simp [Node.rename, hkind, OpKind.loopRanges], fun _ => ?_,
        fun hw => by simp [Node.rename, hkind, OpKind.window?] at hw⟩
      obtain ⟨u, u', hops, ⟨hu, hnone⟩, hu'⟩ := hadditions n hn hkind
      have hnone' := hσ.constant?_eq_none hu hnone
      refine ⟨hd.redirect v u, hd.redirect v u', [], by simp [Node.rename, hops], ?_⟩
      rcases hu' with ⟨hu', hnone₂⟩ | ⟨m, hm, t, i, hres, hconstant, hi⟩
      · have hnone₂' := hσ.constant?_eq_none hu' hnone₂
        exact ⟨⟨(hσ u hu).1, (hσ u' hu').1⟩, .inl hnone', by simp [hnone'], by simp [hnone₂']⟩
      · obtain ⟨hsame, hhas, -⟩ := definer?_of_summed hreplaces hr hm hres
        have hi' := constant?_of_summed hreplaces hr hm hres
        exact ⟨⟨(hσ u hu).1, hsame.symm ▸ hhas⟩, .inl hnone', by simp [hnone'],
          by simpa [hi', hconstant, OpKind.constant?] using hi⟩
    · exact .of_other (by simp [Node.rename, hkind, OpKind.loopRanges])
        (by simp [Node.rename, hkind]) (by simp [Node.rename, hkind, OpKind.window?])
  · refine ⟨by simp [ViewFolding.made, Node.rename, Node.value, OpKind.loopRanges],
      (by cases ·), fun _ => ⟨_, vs.map (hd.redirect v), rfl, List.forall_mem_map.2 fun u hu => ?_⟩⟩
    rcases hvs u hu with ⟨hhas, hnone⟩ | ⟨m, hm, t, hres, hkind⟩
    · exact ⟨(hσ u hhas).1, hσ.constant?_eq_none hhas hnone⟩
    · obtain ⟨hsame, hhas, -⟩ := definer?_of_summed hreplaces hr hm hres
      refine ⟨hsame.symm ▸ hhas, ?_⟩
      rw [constant?_of_summed hreplaces hr hm hres, hkind]
      rfl

end Folded

theorem Cleaned.normal {σ : ValueId → ValueId} {new : List Node}
    (hc : f.Cleaned g k b x z hd σ new) (hr : f.Represents (k.plug (b ++ .node hd x z)))
    (hn : ∀ h ∈ (k.plug (b ++ .node hd x z)).heads, h.Normal f (k.plug (b ++ .node hd x z))) :
    ∀ h ∈ g.code.heads, h.Normal g g.code := by
  have hσ := hc.keepsVariables hr
  intro h hh
  rcases hc.replaces.cases hh with hnew | ⟨h₁, hh₁, rfl⟩
  · cases hc with
    | reallocated =>
      rw [List.mem_singleton.1 hnew]
      exact .of_other rfl (by cases ·) rfl
    | folded hready _ hsums hreplaces =>
      obtain ⟨_, _, hops, hsupplied⟩ :=
        (hn hd (Spine.mem_heads_at k b x z hd)).offsets hready.window
      obtain ⟨_, _, hops', hsupplied'⟩ :=
        (hn _ (Code.of_definer? hready.definer).1).offsets hready.inner_window
      rw [hready.operands, List.cons.injEq] at hops
      rw [hready.innerOperands, List.cons.injEq] at hops'
      obtain ⟨-, rfl⟩ := hops
      obtain ⟨-, rfl⟩ := hops'
      refine normal_of_summed hreplaces hr hσ hsums (fun d hd' u hu => ?_) h hnew
      obtain ⟨hd₁, hd₂⟩ := List.of_mem_zip hd'
      rcases hu with hu | hu
      · exact hsupplied u (Offset.mem_of_supplied (hu ▸ hd₁))
      · exact hsupplied' u (Offset.mem_of_supplied (hu ▸ hd₂))
  · exact hσ.normal (hn h₁ (Spine.mem_heads_iff.2 (hh₁.imp_right .inr)))

theorem Sheds.normal (hs : f.Sheds g k b x z hd)
    (hn : ∀ h ∈ (k.plug (b ++ .node hd x z)).heads, h.Normal f (k.plug (b ++ .node hd x z))) :
    ∀ h ∈ g.code.heads, h.Normal g g.code := by
  intro h hh
  rcases hs.replaces.cases hh with hnew | ⟨h₁, hh₁, rfl⟩
  · cases hnew
  · exact hs.keepsVariables.normal (hn h₁ (Spine.mem_heads_iff.2 (hh₁.imp_right .inr)))

end Function

namespace Greedy

theorem keeps_normal (built : Prop) : Keeps (fun fault => built → fault = .overflow)
    (fun f => (f.WellFormed ∧ ∀ h ∈ f.code.heads, h.Normal f f.code) ∧ (built → f.Built))
    Rule.viewCleanup where
  wellFormed _ hP := hP.1.1
  sheds _ _ _ _ _ _ _ hP hs :=
    ⟨⟨hs.after.wellFormed, hs.normal (hs.before.code_eq ▸ hP.1.2)⟩, fun h => (hP.2 h).shed hs⟩
  rule rule hrule f k b hd x z hP hr := by
    refine Inspect.endsWith_of_gives
      (fun hbuilt => (rule.gives_built (hP.2 hbuilt) hr).mono fun _ _ _ => trivial) fun g hg => ?_
    obtain ⟨σ, new, hc⟩ := Rule.cleaned_of_answers hrule hr hg
    exact ⟨⟨⟨hc.replaces.wellFormed, hc.normal hr (hr.code_eq ▸ hP.1.2)⟩,
      fun hbuilt => ((rule.gives_built (hP.2 hbuilt) hr).of_answers hg).1⟩, hc.replaces.grows.ops⟩

theorem run_viewCleanup_refused {f : Function} (hwf : f.WellFormed)
    (hrefused : ∀ op, f.isLive op = .ok true → ∀ rule ∈ Rule.canonicalization,
      ∃ reason, (rule.check f op).Refuses reason) (maxSweeps : Nat) :
    Ends (fun fault => f.Built → fault = .overflow) (run Rule.viewCleanup maxSweeps f).outcome fun r =>
      ∀ op, r.1.isLive op = .ok true → ∀ rule ∈ Rule.canonicalization,
        ∃ reason, (rule.check r.1 op).Refuses reason := by
  have hnormal : ∀ h ∈ f.code.heads, h.Normal f f.code := fun h hh =>
    Function.Represents.normal_of_refused hwf hh (hrefused h.op (Function.Represents.isLive_eq hwf hh))
  refine ((keeps_normal f.Built).run maxSweeps ⟨⟨hwf, hnormal⟩, id⟩).mono ?_
  rintro ⟨g, outcome⟩ - ⟨⟨hwf', hnormal'⟩, -⟩ op hlive
  obtain ⟨k, b, hd, x, z, rfl, hc⟩ := hwf'.exists_at hlive
  have hin : hd ∈ g.code.heads := hc ▸ Spine.mem_heads_at k b x z hd
  exact Function.Represents.refused_of_normal hwf' hin (hnormal' hd hin)

def shiftedWindow : Function where
  name := "shifted"
  ops := #[⟨.subView ⟨[.dynamic], [8], [1]⟩, [⟨0⟩, ⟨1⟩], some ⟨3⟩, none, [], [], none, true⟩,
    ⟨.subView ⟨[.static 2], [4], [1]⟩, [⟨3⟩], some ⟨4⟩, none, [], [], none, true⟩,
    ⟨.subView ⟨[.static 1], [2], [1]⟩, [⟨4⟩], some ⟨5⟩, none, [], [], none, true⟩,
    ⟨.copy, [⟨5⟩, ⟨2⟩], none, none, [], [], none, true⟩]
  values := #[⟨.buffer (.rowMajor [16] .float32 .global), .argument 0⟩, ⟨.index, .argument 1⟩,
    ⟨.buffer (.rowMajor [2] .float32 .global), .argument 2⟩,
    ⟨.buffer ⟨[8], .float32, .strided none [1], .global⟩, .result ⟨0⟩⟩,
    ⟨.buffer ⟨[4], .float32, .strided none [1], .global⟩, .result ⟨1⟩⟩,
    ⟨.buffer ⟨[2], .float32, .strided none [1], .global⟩, .result ⟨2⟩⟩]
  arity := 3
  body := [⟨0⟩, ⟨1⟩, ⟨2⟩, ⟨3⟩]

theorem shiftedWindow_refused (op : OpId) (hop : op ∈ shiftedWindow.walk) :
    ∀ rule ∈ Rule.canonicalization, ∃ reason, (rule.check shiftedWindow op).Refuses reason := by
  rw [show shiftedWindow.walk = [⟨0⟩, ⟨1⟩, ⟨2⟩, ⟨3⟩] from rfl] at hop
  simp only [Rule.canonicalization, List.forall_mem_cons, List.not_mem_nil, false_imp_iff,
    implies_true, and_true]
  simp only [List.mem_cons, List.not_mem_nil, or_false] at hop
  rcases hop with rfl | rfl | rfl | rfl <;> exact ⟨⟨_, rfl⟩, ⟨_, rfl⟩, ⟨_, rfl⟩⟩

theorem run_viewCleanup_refused_shiftedWindow : shiftedWindow.WellFormed ∧
    (∀ op, shiftedWindow.isLive op = .ok true → ∀ rule ∈ Rule.canonicalization,
      ∃ reason, (rule.check shiftedWindow op).Refuses reason) ∧
    ∃ g outcome, (run Rule.viewCleanup 4 shiftedWindow).outcome = .ok (g, outcome) ∧
      outcome.changes = 2 ∧ (g.walk.filter fun op => (g.op? op).any (·.kind = .addIndex)).length = 2 ∧
        ∀ op, g.isLive op = .ok true → ∀ rule ∈ Rule.canonicalization,
          ∃ reason, (rule.check g op).Refuses reason := by
  have hwf : shiftedWindow.WellFormed := by decide +kernel
  have hrefused : ∀ op, shiftedWindow.isLive op = .ok true → ∀ rule ∈ Rule.canonicalization,
      ∃ reason, (rule.check shiftedWindow op).Refuses reason := fun op hlive =>
    shiftedWindow_refused op (hwf.isLive_iff_mem_walk.1 hlive)
  have hok : (run Rule.viewCleanup 4 shiftedWindow).outcome.toOption.map (fun r => (r.2.changes,
      (r.1.walk.filter fun op => (r.1.op? op).any (·.kind = .addIndex)).length)) = some (2, 2) := by
    decide +kernel
  generalize shiftedWindow = f at *
  obtain ⟨⟨g, outcome⟩, hrun, hout⟩ := Fault.toOption_map_eq_some.1 hok
  obtain ⟨hchanges, hadditions⟩ := Prod.mk.inj hout
  exact ⟨hwf, hrefused, g, outcome, hrun, hchanges, hadditions,
    (run_viewCleanup_refused hwf hrefused 4).of_ok hrun⟩

end Greedy

end KernelLowering
