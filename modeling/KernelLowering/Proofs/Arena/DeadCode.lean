import KernelLowering.Program.Edit
import KernelLowering.Proofs.Arena.Replacement
import KernelLowering.Proofs.Simulation.Lookup

namespace KernelLowering

theorem OpKind.loopRanges_of_isLoop_eq_false {kind : OpKind} (h : kind.isLoop = false) :
    kind.loopRanges = [] := by
  cases kind <;> first | rfl | cases h

theorem OpKind.isLoop_of_isPure {kind : OpKind} (h : kind.isPure = true) : kind.isLoop = false := by
  cases kind <;> first | rfl | cases h

theorem OpKind.loopRanges_of_isPure {kind : OpKind} (h : kind.isPure = true) :
    kind.loopRanges = [] := by
  cases kind <;> first | rfl | cases h

namespace Function

variable {f g : Function} {c : Code} {k : Spine} {b x z : Code} {hd : Node} {op : OpId}

theorem Represents.mem_usedValues (hr : f.Represents c) {v : ValueId} :
    v ∈ f.usedValues ↔ ∃ h ∈ c.heads, v ∈ h.operands := by
  have hop : ∀ h ∈ c.heads, f.operandsOf h.op = h.operands := by
    intro h hh
    obtain ⟨parent, region, hop⟩ := hr.exists_record hh
    simp [operandsOf, hop, Node.record]
  rw [usedValues, hr.walk_eq, Code.ops_eq_map_heads, List.mem_flatMap]
  simp only [List.mem_map, exists_exists_and_eq_and]
  constructor
  · rintro ⟨h, hh, hv⟩
    exact ⟨h, hh, hop h hh ▸ hv⟩
  · rintro ⟨h, hh, hv⟩
    exact ⟨h, hh, (hop h hh).symm ▸ hv⟩

theorem Represents.exists_head (hr : f.Represents c) {o : Operation} (hop : f.op? op = some o)
    (hlive : o.live = true) : ∃ h ∈ c.heads, h.op = op ∧ ∃ parent region, o = h.record parent region := by
  have hmem := hr.live hop hlive
  rw [Code.ops_eq_map_heads] at hmem
  obtain ⟨h, hh, rfl⟩ := List.mem_map.1 hmem
  obtain ⟨parent, region, hop'⟩ := hr.exists_record hh
  exact ⟨h, hh, rfl, parent, region, Option.some.inj (hop.symm.trans hop')⟩

theorem Represents.inductionVars_eq_nil (hr : f.Represents c) {h : Node} (hh : h ∈ c.heads)
    (hpure : h.kind.isPure = true) : h.inductionVars = [] := by
  have hlen := hr.vars hh
  rwa [OpKind.loopRanges_of_isPure hpure, List.length_nil, List.length_eq_zero_iff] at hlen

theorem Represents.defined_of_result (hr : f.Represents c) {h : Node} (hh : h ∈ c.heads)
    (hpure : h.kind.isPure = true) {r : ValueId} {t : ValueType} (hres : h.result = some (r, t)) :
    h.defined = [r] := by
  rw [Node.defined, hr.inductionVars_eq_nil hh hpure, hres]
  rfl

def Dead (f : Function) (op : OpId) : Prop :=
  ∃ o, f.op? op = some o ∧
    (o.live = true → o.kind.isPure = true ∧ ∀ r, o.result = some r → r ∉ f.usedValues)

structure Sheds (f g : Function) (k : Spine) (b x z : Code) (hd : Node) : Prop where
  before : f.Represents (k.plug (b ++ .node hd x z))
  after : g.Represents (k.plug (b ++ z))
  erased : f.erase hd.op = .ok g
  same : f.SameValues g
  pure : hd.kind.isPure = true
  unused : ∀ v ∈ hd.defined, ∀ h ∈ (k.plug (b ++ .node hd x z)).heads, v ∉ h.operands

theorem Represents.sheds (hr : f.Represents (k.plug (b ++ .node hd x z))) (hd' : f.Dead hd.op) :
    f.Sheds (f.without k.parent (b ++ z).roots (hd.op :: x.ops)) k b x z hd := by
  obtain ⟨o, hop, hdead⟩ := hd'
  rw [op_eq_ok.1 hr.record_at, Option.some.injEq] at hop
  subst hop
  obtain ⟨hpure, hunused⟩ : hd.kind.isPure = true ∧ ∀ r, hd.result.map (·.1) = some r →
      r ∉ f.usedValues := hdead rfl
  refine ⟨hr, hr.without, hr.erase_eq, sameValues_without _ _ _ _, hpure, fun v hv h hh hop => ?_⟩
  rw [Node.defined, hr.inductionVars_eq_nil (Spine.mem_heads_at k b x z hd) hpure, List.append_nil,
    Option.mem_toList] at hv
  exact hunused v hv (hr.mem_usedValues.2 ⟨h, hh, hop⟩)

theorem Sheds.dead (h : f.Sheds g k b x z hd)
    (hg : g = f.without k.parent (b ++ z).roots (hd.op :: x.ops)) (hop : f.Dead op) : g.Dead op := by
  obtain ⟨o, ho, hdead⟩ := hop
  have hsub : ∀ v ∈ g.usedValues, v ∈ f.usedValues := by
    intro v hv
    obtain ⟨h', hh', hv⟩ := h.after.mem_usedValues.1 hv
    exact h.before.mem_usedValues.2 ⟨h', Spine.mem_heads_around hh' hd x, hv⟩
  have hset : ∃ o', (f.setRegion k.parent (b ++ z).roots).op? op = some o' ∧ o'.live = o.live ∧
      o'.kind = o.kind ∧ o'.result = o.result := by
    by_cases hp : k.parent = some op
    · rw [hp, setRegion, op?_modifyOp_self, ho]
      exact ⟨_, rfl, rfl, rfl, rfl⟩
    · exact ⟨o, (op?_setRegion_of_ne hp).trans ho, rfl, rfl, rfl⟩
  obtain ⟨o', ho', hlive, hkind, hres⟩ := hset
  subst hg
  rw [Dead, without, op?_foldl_retire, ho']
  split
  · exact ⟨_, rfl, fun hl => by cases hl⟩
  · refine ⟨o', rfl, fun hl => ?_⟩
    rw [hkind, hres]
    exact ⟨(hdead (hlive ▸ hl)).1, fun r hr hm => (hdead (hlive ▸ hl)).2 r hr (hsub r hm)⟩

theorem Sheds.body_eq_nil (h : f.Sheds g k b x z hd) (hnested : f.code.Nested) : x = .nil :=
  Spine.body_eq_nil (h.before.code_eq ▸ hnested) (OpKind.isLoop_of_isPure h.pure)

theorem Sheds.nested (h : f.Sheds g k b x z hd) (hnested : f.code.Nested) : g.code.Nested := by
  have hcode := (Spine.nested_splice (h.before.code_eq ▸ hnested)).2 id .nil trivial
  rw [h.after.code_eq]
  simpa using hcode

theorem isLive_of_dead (hop : f.Dead op) : ∃ live, f.isLive op = .ok live := by
  obtain ⟨o, ho, -⟩ := hop
  exact ⟨o.live, by rw [isLive, op_eq_ok.2 ho]; rfl⟩

theorem Represents.exists_at (hr : f.Represents c) (hlive : f.isLive op = .ok true) :
    ∃ k b hd x z, hd.op = op ∧ c = Spine.plug k (b ++ .node hd x z) := by
  obtain ⟨o, ho, hl⟩ := Fault.map_eq_ok.1 hlive
  exact Code.exists_spine (hr.live (op_eq_ok.1 ho) hl)

theorem dead_of_mem_deadOps (h : op ∈ f.deadOps) : f.Dead op := by
  rw [deadOps, collect, List.mem_filter, Option.any_eq_true_iff_get] at h
  obtain ⟨-, hsome, hdead⟩ := h
  simp only [Bool.and_eq_true, Option.all_eq_true, Bool.not_eq_true', List.contains_eq_mem,
    decide_eq_false_iff_not] at hdead
  exact ⟨(f.op? op).get hsome, Option.eq_some_of_isSome hsome, fun _ => ⟨hdead.1, hdead.2⟩⟩

section Counting

variable {P : Nat → Function → Prop} (hwf : ∀ n f, P n f → f.WellFormed)
  (hsheds : ∀ n f g k b x z hd, P n f → Sheds f g k b x z hd → P (n + 1) g)

include hwf hsheds

theorem eraseLive_counts {m : Nat} {ops : List OpId} (hP : P m f) (hops : ∀ op ∈ ops, f.Dead op) :
    ∃ g n, f.eraseLive ops = .ok (g, n) ∧ P (m + n) g := by
  induction ops generalizing f m with
  | nil => exact ⟨f, 0, rfl, hP⟩
  | cons op ops ih =>
    rw [List.forall_mem_cons] at hops
    obtain ⟨live, hlive⟩ := isLive_of_dead hops.1
    rw [eraseLive, hlive, Fault.ok_bind]
    cases live with
    | false => exact ih hP hops.2
    | true =>
      obtain ⟨k, b, hd, x, z, rfl, hc⟩ := (hwf m f hP).exists_at hlive
      have hr : f.Represents (k.plug (b ++ .node hd x z)) := hc ▸ hwf m f hP
      have hs := hr.sheds hops.1
      obtain ⟨g, n, hg, hPg⟩ := ih (hsheds _ _ _ _ _ _ _ _ hP hs) fun op ho =>
        hs.dead rfl (hops.2 op ho)
      refine ⟨g, n + 1, ?_, (by omega : m + 1 + n = m + (n + 1)) ▸ hPg⟩
      rw [if_pos rfl, hr.erase_eq, Fault.ok_bind, hg]
      rfl

theorem eraseDeadRounds_counts {m : Nat} (rounds : Nat) (hP : P m f) :
    ∃ g n, f.eraseDeadRounds rounds = .ok (g, n) ∧ P (m + n) g := by
  induction rounds generalizing f m with
  | zero => exact ⟨f, 0, rfl, hP⟩
  | succ rounds ih =>
    rw [eraseDeadRounds]
    split
    · exact ⟨f, 0, rfl, hP⟩
    · obtain ⟨g, n, hg, hPg⟩ := eraseLive_counts hwf hsheds hP fun op ho =>
        dead_of_mem_deadOps (f := f) ho
      obtain ⟨g', n', hg', hPg'⟩ := ih hPg
      exact ⟨g', n + n', by simp only [hg, hg', Fault.ok_bind]; rfl, Nat.add_assoc m n n' ▸ hPg'⟩

theorem eraseDead_counts (hP : P 0 f) : ∃ g n, f.eraseDead = .ok (g, n) ∧ P n g := by
  obtain ⟨g, n, hg, hPg⟩ := eraseDeadRounds_counts hwf hsheds (f.ops.size + 1) hP
  exact ⟨g, n, hg, Nat.zero_add n ▸ hPg⟩

end Counting

section Elimination

variable {P : Function → Prop} (hwf : ∀ f, P f → f.WellFormed)
  (hsheds : ∀ f g k b x z hd, P f → Sheds f g k b x z hd → P g)

include hwf hsheds

theorem eraseLive_preserves {ops : List OpId} (hP : P f) (hops : ∀ op ∈ ops, f.Dead op) :
    ∃ g n, f.eraseLive ops = .ok (g, n) ∧ P g :=
  eraseLive_counts (P := fun _ => P) (m := 0) (fun _ => hwf) (fun _ => hsheds) hP hops

theorem eraseDead_preserves (hP : P f) : ∃ g n, f.eraseDead = .ok (g, n) ∧ P g :=
  eraseDead_counts (P := fun _ => P) (fun _ => hwf) (fun _ => hsheds) hP

end Elimination

theorem Represents.used_of_deadOps (hr : f.Represents c) (hlive : f.deadOps = []) {h : Node}
    (hh : h ∈ c.heads) (hpure : h.kind.isPure = true) :
    ∃ v t, h.result = some (v, t) ∧ ∃ h' ∈ c.heads, v ∈ h'.operands := by
  obtain ⟨parent, region, hop⟩ := hr.exists_record hh
  have hwalk : h.op ∈ f.walk := by
    rw [hr.walk_eq, Code.ops_eq_map_heads]
    exact List.mem_map_of_mem hh
  have hkept := List.filter_eq_nil_iff.1 hlive h.op hwalk
  simp only [hop, Option.any_some, Node.record, hpure, Bool.true_and, Option.all_map,
    Bool.not_eq_true, Option.all_eq_false, List.contains_eq_mem, Bool.not_eq_false',
    decide_eq_true_eq] at hkept
  obtain ⟨⟨v, t⟩, hres, hused⟩ := hkept
  exact ⟨v, t, hres, hr.mem_usedValues.1 hused⟩

theorem WellFormed.length_le (h : f.WellFormed) : f.code.ops.length ≤ f.ops.size := by
  have hsub : f.code.ops ⊆ (List.range f.ops.size).map OpId.mk := fun op ho =>
    List.mem_map.2 ⟨op.index, List.mem_range.2 (h.index_lt ho), rfl⟩
  have hlen := (List.subperm_of_subset h.nodup hsub).length_le
  rwa [List.length_map, List.length_range] at hlen

theorem Sheds.length_lt (h : f.Sheds g k b x z hd) : g.code.ops.length < f.code.ops.length := by
  rw [h.before.code_eq, h.after.code_eq, (k.ops_plug _).length_eq, (k.ops_plug _).length_eq]
  simp only [Code.ops_append, Code.ops, List.length_append, List.length_cons]
  omega

theorem eraseLive_shrinks {ops : List OpId} (hwf : f.WellFormed) (hlive : f.isLive op = .ok true)
    (hops : ∀ op' ∈ op :: ops, f.Dead op') : ∃ g n, f.eraseLive (op :: ops) = .ok (g, n) ∧
      g.WellFormed ∧ g.code.ops.length < f.code.ops.length := by
  obtain ⟨k, b, hd, x, z, rfl, hc⟩ := hwf.exists_at hlive
  have hr : f.Represents (k.plug (b ++ .node hd x z)) := hc ▸ hwf
  rw [List.forall_mem_cons] at hops
  have hs := hr.sheds hops.1
  obtain ⟨g, n, hg, hwf', hlt⟩ := eraseLive_preserves
    (P := fun g => g.WellFormed ∧ g.code.ops.length < f.code.ops.length) (fun _ h => h.1)
    (fun _ _ _ _ _ _ _ h hs => ⟨hs.after.wellFormed, hs.length_lt.trans h.2⟩)
    ⟨hs.after.wellFormed, hs.length_lt⟩ fun op ho => hs.dead rfl (hops.2 op ho)
  refine ⟨g, n + 1, ?_, hwf', hlt⟩
  rw [eraseLive, hlive, Fault.ok_bind, if_pos rfl, hr.erase_eq, Fault.ok_bind, hg]
  rfl

theorem eraseDeadRounds_deadOps {rounds : Nat} (hwf : f.WellFormed)
    (hlt : f.code.ops.length < rounds) :
    ∃ g n, f.eraseDeadRounds rounds = .ok (g, n) ∧ g.deadOps = [] := by
  induction rounds generalizing f with
  | zero => cases hlt
  | succ rounds ih =>
    rw [eraseDeadRounds]
    cases hdead : f.deadOps with
    | nil => exact ⟨f, 0, rfl, hdead⟩
    | cons op ops =>
      have hop : op ∈ f.deadOps := hdead ▸ List.mem_cons_self
      have hmem : op ∈ f.code.ops := hwf.walk_eq ▸ (List.mem_filter.1 hop).1
      rw [Code.ops_eq_map_heads] at hmem
      obtain ⟨h, hh, rfl⟩ := List.mem_map.1 hmem
      obtain ⟨g, n, hg, hwf', hlen⟩ := eraseLive_shrinks hwf (hwf.isLive_eq hh) fun op' ho =>
        dead_of_mem_deadOps (hdead ▸ ho)
      obtain ⟨g', n', hg', hnone⟩ := ih hwf' (by omega)
      exact ⟨g', n + n', by simp only [hg, hg', Fault.ok_bind]; rfl, hnone⟩

theorem eraseDead_deadOps (hwf : f.WellFormed) :
    ∃ g n, f.eraseDead = .ok (g, n) ∧ g.deadOps = [] :=
  eraseDeadRounds_deadOps hwf (Nat.lt_succ_of_le hwf.length_le)

end Function

end KernelLowering
