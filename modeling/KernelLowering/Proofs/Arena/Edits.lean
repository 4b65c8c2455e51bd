import KernelLowering.Proofs.Arena.Placement

namespace KernelLowering

structure Function.SameValues (f g : Function) : Prop where
  values : g.values = f.values
  arity : g.arity = f.arity
  name : g.name = f.name
  size : g.ops.size = f.ops.size
  result : ∀ op, (g.op? op).map (·.result) = (f.op? op).map (·.result)

namespace Function

variable {f g : Function} {k : Spine} {b x z c : Code}

theorem SameValues.trans {f₁ f₂ f₃ : Function} (h : f₁.SameValues f₂) (h' : f₂.SameValues f₃) :
    f₁.SameValues f₃ :=
  ⟨h'.values.trans h.values, h'.arity.trans h.arity, h'.name.trans h.name, h'.size.trans h.size,
    fun op => (h'.result op).trans (h.result op)⟩

theorem SameValues.refl (f : Function) : f.SameValues f := ⟨rfl, rfl, rfl, rfl, fun _ => rfl⟩

theorem sameValues_modifyOp (f : Function) (op : OpId) {change : Operation → Operation}
    (h : ∀ o, (change o).result = o.result) : f.SameValues (f.modifyOp op change) := by
  refine ⟨rfl, rfl, rfl, by simp, fun other => ?_⟩
  rw [op?_modifyOp]
  split
  · cases f.op? other <;> simp [h]
  · rfl

theorem sameValues_setRegion (f : Function) (parent : Option OpId) (ops : List OpId) :
    f.SameValues (f.setRegion parent ops) := by
  cases parent with
  | none => exact ⟨rfl, rfl, rfl, rfl, fun _ => rfl⟩
  | some p => exact f.sameValues_modifyOp p fun _ => rfl

theorem sameValues_foldl_modifyOp (f : Function) (ops : List OpId)
    {change : Operation → Operation} (h : ∀ o, (change o).result = o.result) :
    f.SameValues (ops.foldl (fun f op => f.modifyOp op change) f) := by
  induction ops generalizing f with
  | nil => exact .refl f
  | cons op ops ih => exact (f.sameValues_modifyOp op h).trans (ih _)

theorem SameValues.value? (h : f.SameValues g) (v : ValueId) : g.value? v = f.value? v := by
  rw [Function.value?, Function.value?, h.values]

theorem SameValues.definer (h : f.SameValues g) {v : ValueId} {op : OpId}
    (hf : ∃ o, f.op? op = some o ∧ o.result = some v) :
    ∃ o, g.op? op = some o ∧ o.result = some v := by
  obtain ⟨o, ho, hr⟩ := hf
  have hg := h.result op
  rw [ho, Option.map_some] at hg
  obtain ⟨o', ho', hr'⟩ := Option.map_eq_some_iff.1 hg
  exact ⟨o', ho', hr'.trans hr⟩

theorem Represents.of_sameValues {c' : Code} (h : f.Represents c) (hs : f.SameValues g)
    (hbody : g.body = c'.roots) (hplaces : g.Places none c') (hnodup : c'.ops.Nodup)
    (hlive : ∀ {op o}, g.op? op = some o → o.live = true → op ∈ c'.ops)
    (hheads : ∀ hd ∈ c'.heads, ∃ hd' ∈ c.heads, hd'.op = hd.op ∧ hd'.kind = hd.kind ∧
      hd'.result = hd.result ∧ hd'.inductionVars = hd.inductionVars) : g.Represents c' where
  body := hbody
  places := hplaces
  nodup := hnodup
  live := hlive
  result := by
    intro hd v t hm hr
    obtain ⟨hd', hm', hop, -, hr', -⟩ := hheads hd hm
    rw [hs.value?, ← hop]
    exact h.result hm' (hr'.trans hr)
  vars := by
    intro hd hm
    obtain ⟨hd', hm', -, hk, -, hv⟩ := hheads hd hm
    rw [← hv, ← hk]
    exact h.vars hm'
  var := by
    intro hd i v hm hi
    obtain ⟨hd', hm', hop, -, -, hv⟩ := hheads hd hm
    rw [hs.value?, ← hop]
    exact h.var hm' (hv ▸ hi)
  argument := by
    intro i hi
    rw [hs.value?]
    exact h.argument (hs.arity ▸ hi)
  definer := by
    intro v t op hv
    rw [hs.value?] at hv
    exact hs.definer (h.definer hv)

theorem Represents.holds (h : f.Represents (k.plug x)) : f.Holds k x.roots ∧ f.Places k.parent x :=
  places_plug.1 ⟨h.body, h.places⟩

theorem Represents.parent_not_mem (h : f.Represents (k.plug x)) {op : OpId}
    (hp : k.parent = some op) : op ∉ x.ops :=
  fun ho => (Spine.nodup_plug.1 h.nodup).2.2 ho (Spine.parent_mem_ops hp)

theorem Represents.index_lt (h : f.Represents c) {op : OpId} (ho : op ∈ c.ops) :
    op.index < f.ops.size := by
  obtain ⟨o, hop⟩ := h.places.exists_op ho
  exact (Array.getElem?_eq_some_iff.1 hop).1

def nextNode (f : Function) (kind : OpKind) (operands : List ValueId) (type : Option ValueType)
    (marker : Option Stage) : Node where
  op := ⟨f.ops.size⟩
  kind := kind
  operands := operands
  result := type.map fun t => (⟨f.values.size⟩, t)
  marker := marker
  inductionVars :=
    (List.range kind.loopRanges.length).map fun i => ⟨f.values.size + type.toList.length + i⟩

section Insertion

variable {kind : OpKind} {operands : List ValueId} {type : Option ValueType}
  {marker : Option Stage} {parent : Option OpId} {region : List OpId}

def withOp (f : Function) (kind : OpKind) (operands : List ValueId) (type : Option ValueType)
    (marker : Option Stage) (parent : Option OpId) (region : List OpId) : Function :=
  ((f.addOp kind operands type marker).1.setRegion parent region).setParent ⟨f.ops.size⟩ parent

theorem op?_addOp_self (f : Function) (kind : OpKind) (operands : List ValueId)
    (type : Option ValueType) (marker : Option Stage) :
    (f.addOp kind operands type marker).1.op? ⟨f.ops.size⟩ =
      some ((f.nextNode kind operands type marker).record none []) := by
  cases type <;> simp [addOp, op?, nextNode, Node.record]

theorem op?_addOp_of_ne {op : OpId} (h : op ≠ ⟨f.ops.size⟩) :
    (f.addOp kind operands type marker).1.op? op = f.op? op := by
  have hne : op.index ≠ f.ops.size := fun e => h (by cases op; exact congrArg OpId.mk e)
  simp only [addOp, op?, Array.getElem?_push]
  rw [if_neg hne]

theorem op?_withOp_of_ne {op : OpId} (h : op ≠ ⟨f.ops.size⟩) (hp : parent ≠ some op) :
    (f.withOp kind operands type marker parent region).op? op = f.op? op := by
  rw [withOp, setParent, op?_modifyOp_of_ne (Ne.symm h), op?_setRegion_of_ne hp, op?_addOp_of_ne h]

theorem op?_withOp_self (hp : parent ≠ some ⟨f.ops.size⟩) :
    (f.withOp kind operands type marker parent region).op? ⟨f.ops.size⟩ =
      some ((f.nextNode kind operands type marker).record parent []) := by
  rw [withOp, setParent, op?_modifyOp_self, op?_setRegion_of_ne hp, op?_addOp_self]
  rfl

theorem sameValues_withOp : (f.addOp kind operands type marker).1.SameValues
    (f.withOp kind operands type marker parent region) :=
  (sameValues_setRegion _ parent region).trans (sameValues_modifyOp _ _ fun _ => rfl)

theorem value?_addOp_eq_some {v : ValueId} {a : Value} :
    (f.addOp kind operands type marker).1.value? v = some a ↔ f.value? v = some a ∨
      (∃ t, type = some t ∧ v.index = f.values.size ∧ a = ⟨t, .result ⟨f.ops.size⟩⟩) ∨
      ∃ i < kind.loopRanges.length, v.index = f.values.size + type.toList.length + i ∧
        a = ⟨.index, .inductionVar ⟨f.ops.size⟩ i⟩ := by
  simp only [addOp, value?, definedValues]
  rcases Nat.lt_or_ge v.index f.values.size with hv | hv
  · rw [Array.getElem?_append_left hv]
    constructor
    · exact .inl
    · rintro (h | ⟨t, -, h, -⟩ | ⟨i, -, h, -⟩)
      · exact h
      · omega
      · omega
  · rw [Array.getElem?_append_right hv]
    have hnone : f.values[v.index]? = none := by simpa using hv
    rw [hnone]
    cases type with
    | none =>
      simp only [Option.map_none, Option.toList_none, List.nil_append, List.getElem?_toArray,
        List.getElem?_map, Option.map_eq_some_iff, reduceCtorEq, false_and, exists_false,
        List.length_nil, false_or]
      constructor
      · rintro ⟨i, hi, rfl⟩
        obtain ⟨hlt, rfl⟩ := List.getElem?_eq_some_iff.1 hi
        simp only [List.length_range] at hlt
        exact ⟨_, hlt, by omega, by simp⟩
      · rintro ⟨i, hi, hvi, rfl⟩
        exact ⟨i, by simp [hvi, hi], rfl⟩
    | some t =>
      simp only [Option.map_some, Option.toList_some, List.cons_append, List.nil_append,
        List.getElem?_toArray, reduceCtorEq, Option.some.injEq, List.length_cons, List.length_nil,
        false_or]
      rcases Nat.eq_or_lt_of_le hv with he | hlt
      · rw [← he, Nat.sub_self]
        simp only [List.getElem?_cons_zero, Option.some.injEq]
        constructor
        · rintro rfl
          exact .inl ⟨t, rfl, trivial, rfl⟩
        · rintro (⟨_, rfl, -, rfl⟩ | ⟨i, -, h, -⟩)
          · rfl
          · omega
      · obtain ⟨j, hj⟩ : ∃ j, v.index - f.values.size = j + 1 := ⟨v.index - f.values.size - 1, by omega⟩
        rw [hj, List.getElem?_cons_succ, List.getElem?_map, Option.map_eq_some_iff]
        constructor
        · rintro ⟨i, hi, rfl⟩
          obtain ⟨hlen, rfl⟩ := List.getElem?_eq_some_iff.1 hi
          simp only [List.length_range] at hlen
          exact .inr ⟨j, hlen, by omega, by simp⟩
        · rintro (⟨_, -, h, -⟩ | ⟨i, hi, hvi, rfl⟩)
          · omega
          · obtain rfl : j = i := by omega
            exact ⟨j, by simp [hi], rfl⟩

theorem Represents.fresh (h : f.Represents c) : (⟨f.ops.size⟩ : OpId) ∉ c.ops :=
  fun ho => Nat.lt_irrefl _ (h.index_lt ho)

theorem op?_withOp_of_mem (h : f.Represents (k.plug x)) {op : OpId} (ho : op ∈ x.ops) :
    (f.withOp kind operands type marker k.parent region).op? op = f.op? op :=
  op?_withOp_of_ne (fun e => h.fresh (Spine.mem_ops_plug.2 (.inl (e ▸ ho))))
    fun e => h.parent_not_mem e ho

theorem Represents.places_withOp (h : f.Represents (k.plug (b ++ z))) :
    (f.withOp kind operands type marker k.parent region).Places k.parent
      (b ++ .node (f.nextNode kind operands type marker) .nil z) := by
  obtain ⟨hb, hz⟩ := places_append.1 h.holds.2
  have hkeep : ∀ op ∈ b.ops ++ z.ops,
      (f.withOp kind operands type marker k.parent region).op? op = f.op? op := fun op ho =>
    op?_withOp_of_mem h (by rwa [Code.ops_append])
  refine places_append.2 ⟨hb.congr fun op ho => hkeep op (by simp [ho]), ?_, trivial,
    hz.congr fun op ho => hkeep op (by simp [ho])⟩
  exact op?_withOp_self fun e => h.fresh (Spine.mem_ops_plug.2 (.inr (Spine.parent_mem_ops e)))

theorem Represents.holds_withOp (h : f.Represents (k.plug x)) :
    (f.withOp kind operands type marker k.parent region).Holds k region := by
  have hne : ∀ op ∈ k.ops, op ≠ ⟨f.ops.size⟩ := fun op ho e =>
    h.fresh (Spine.mem_ops_plug.2 (.inr (e ▸ ho)))
  have hadd : (f.addOp kind operands type marker).1.Holds k x.roots :=
    h.holds.1.congr (fun op ho => op?_addOp_of_ne (hne op ho)) rfl
  exact (hadd.setRegion (Spine.nodup_plug.1 h.nodup).2.1).congr
    (fun op ho => op?_modifyOp_of_ne (hne op ho).symm _) rfl

theorem Represents.withOp (h : f.Represents (k.plug (b ++ z))) :
    (f.withOp kind operands type marker k.parent (b.roots ++ ⟨f.ops.size⟩ :: z.roots)).Represents
      (k.plug (b ++ .node (f.nextNode kind operands type marker) .nil z)) := by
  have hfresh := h.fresh
  obtain ⟨hbz, hk, hdisj⟩ := Spine.nodup_plug.1 h.nodup
  have hhold : (f.withOp kind operands type marker k.parent
      (b.roots ++ ⟨f.ops.size⟩ :: z.roots)).Holds k (b.roots ++ ⟨f.ops.size⟩ :: z.roots) :=
    h.holds_withOp
  obtain ⟨hbody, hplaces⟩ := places_plug.2 ⟨by rw [Code.roots_append, Code.roots]; exact hhold,
    h.places_withOp⟩
  have hops : ∀ op, op ∈ (k.plug (b ++ .node (f.nextNode kind operands type marker) .nil z)).ops ↔
      op = ⟨f.ops.size⟩ ∨ op ∈ (k.plug (b ++ z)).ops := by
    intro op
    simp only [Spine.mem_ops_plug, Code.ops_append, Code.ops, List.mem_append, List.mem_cons,
      List.nil_append, nextNode]
    tauto
  have hheads : ∀ {hd}, hd ∈ (k.plug (b ++ .node (f.nextNode kind operands type marker) .nil z)).heads
      → hd = f.nextNode kind operands type marker ∨ hd ∈ (k.plug (b ++ z)).heads := by
    intro hd
    simp only [Spine.mem_heads_plug, Code.heads_append, Code.heads, List.mem_append, List.mem_cons,
      List.nil_append]
    tauto
  have hval : ∀ v, (f.withOp kind operands type marker k.parent
      (b.roots ++ ⟨f.ops.size⟩ :: z.roots)).value? v =
        (f.addOp kind operands type marker).1.value? v := sameValues_withOp.value?
  refine ⟨hbody, hplaces, ?_, ?_, ?_, ?_, ?_, ?_, ?_⟩
  · rw [Spine.nodup_plug]
    simp only [Code.ops_append, Code.ops, List.nil_append] at hbz hdisj ⊢
    have hnew : (f.nextNode kind operands type marker).op = ⟨f.ops.size⟩ := rfl
    rw [hnew]
    simp only [Spine.mem_ops_plug, Code.ops_append, not_or] at hfresh
    refine ⟨(List.perm_middle.nodup_iff).2 (List.nodup_cons.2 ⟨hfresh.1, hbz⟩), hk, ?_⟩
    intro op ho
    simp only [List.mem_append, List.mem_cons] at ho
    rcases ho with ho | rfl | ho
    · exact hdisj (by simp [ho])
    · exact hfresh.2
    · exact hdisj (by simp [ho])
  · intro op o hop hlive
    rw [hops]
    by_cases he : op = ⟨f.ops.size⟩
    · exact .inl he
    · refine .inr ?_
      by_cases hp : k.parent = some op
      · exact Spine.mem_ops_plug.2 (.inr (Spine.parent_mem_ops hp))
      · rw [op?_withOp_of_ne he hp] at hop
        exact h.live hop hlive
  · intro hd v t hm hr
    rw [hval, value?_addOp_eq_some]
    rcases hheads hm with rfl | hm
    · obtain ⟨t', ht, he⟩ := Option.map_eq_some_iff.1 hr
      cases he
      exact .inr (.inl ⟨t, ht, rfl, rfl⟩)
    · exact .inl (h.result hm hr)
  · intro hd hm
    rcases hheads hm with rfl | hm
    · simp [nextNode]
    · exact h.vars hm
  · intro hd i v hm hi
    rw [hval, value?_addOp_eq_some]
    rcases hheads hm with rfl | hm
    · obtain ⟨j, hj, rfl⟩ := List.getElem?_map .. ▸ hi |> Option.map_eq_some_iff.1
      obtain ⟨hlt, rfl⟩ := List.getElem?_eq_some_iff.1 hj
      simp only [List.length_range] at hlt
      exact .inr (.inr ⟨i, hlt, by simp, rfl⟩)
    · exact .inl (h.var hm hi)
  · intro i hi
    rw [sameValues_withOp.arity] at hi
    obtain ⟨t, ht⟩ := h.argument hi
    exact ⟨t, (hval _).trans (value?_addOp_eq_some.2 (.inl ht))⟩
  · intro v t op hv
    rw [hval, value?_addOp_eq_some] at hv
    refine sameValues_withOp.definer ?_
    rcases hv with hv | ⟨t', ht', hv, he⟩ | ⟨i, -, -, he⟩
    · obtain ⟨o, ho, hr⟩ := h.definer hv
      refine ⟨o, ?_, hr⟩
      rwa [op?_addOp_of_ne]
      rintro rfl
      exact Nat.lt_irrefl _ (Array.getElem?_eq_some_iff.1 ho).1
    · cases he
      refine ⟨_, op?_addOp_self f kind operands type marker, ?_⟩
      cases v
      subst ht'
      simp_all [nextNode, Node.record]
    · cases he

theorem Represents.detach_addOp (h : f.Represents c) :
    (f.addOp kind operands type marker).1.detach ⟨f.ops.size⟩ =
      .ok (f.addOp kind operands type marker).1 := by
  rw [detach, op_eq_ok.2 (op?_addOp_self f kind operands type marker)]
  have hb : (⟨f.ops.size⟩ : OpId) ∉ f.body := fun ho =>
    h.fresh (Code.mem_ops_of_mem_roots (h.body ▸ ho))
  have hfilter : f.body.filter (· ≠ (⟨f.ops.size⟩ : OpId)) = f.body := by
    refine List.filter_eq_self.2 fun op ho => ?_
    simp only [decide_eq_true_eq]
    rintro rfl
    exact hb ho
  show Except.ok { (f.addOp kind operands type marker).1 with
    body := f.body.filter (· ≠ (⟨f.ops.size⟩ : OpId)) } = _
  rw [hfilter]
  rfl

theorem insertBefore_append {op anchor : OpId} {xs ys : List OpId} (h : anchor ∉ xs) :
    insertBefore op anchor (xs ++ anchor :: ys) = some (xs ++ op :: anchor :: ys) := by
  induction xs with
  | nil => simp [insertBefore]
  | cons x xs ih =>
    simp only [List.mem_cons, not_or] at h
    simp [insertBefore, Ne.symm h.1, ih h.2]

theorem Represents.placeBefore_addOp {hd : Node} (h : f.Represents (k.plug (b ++ .node hd x z))) :
    (f.addOp kind operands type marker).1.placeBefore ⟨f.ops.size⟩ hd.op =
      .ok (f.withOp kind operands type marker k.parent
        (b.roots ++ ⟨f.ops.size⟩ :: (Code.node hd x z).roots)) := by
  have hne : ∀ op ∈ (k.plug (b ++ .node hd x z)).ops, op ≠ ⟨f.ops.size⟩ := fun op ho e =>
    h.fresh (e ▸ ho)
  have hhold : (f.addOp kind operands type marker).1.Holds k (b ++ .node hd x z).roots :=
    h.holds.1.congr
      (fun op ho => op?_addOp_of_ne (hne op (Spine.mem_ops_plug.2 (.inr ho)))) rfl
  have hanchor : (f.addOp kind operands type marker).1.op? hd.op =
      some (hd.record k.parent x.roots) := by
    rw [op?_addOp_of_ne (hne _ (Spine.mem_ops_plug.2 (.inl (by simp [Code.ops]))))]
    exact (places_append.1 h.holds.2).2.1
  have hb : hd.op ∉ b.roots := fun ho => by
    have := (Spine.nodup_plug.1 h.nodup).1
    rw [Code.ops_append, List.nodup_append'] at this
    exact this.2.2 (Code.mem_ops_of_mem_roots ho) (by simp [Code.ops])
  rw [placeBefore, h.detach_addOp]
  show ((f.addOp kind operands type marker).1.op hd.op >>= fun o => _) = _
  rw [op_eq_ok.2 hanchor]
  show ((f.addOp kind operands type marker).1.region k.parent >>= fun o => _) = _
  rw [hhold.region, Code.roots_append, Code.roots]
  show (Fault.require _ (insertBefore _ _ _) >>= fun o => _) = _
  rw [insertBefore_append hb]
  rfl

theorem Represents.placeAtEnd_addOp (h : f.Represents (k.plug b)) :
    (f.addOp kind operands type marker).1.placeAtEnd ⟨f.ops.size⟩ k.parent =
      .ok (f.withOp kind operands type marker k.parent (b.roots ++ [⟨f.ops.size⟩])) := by
  have hhold : (f.addOp kind operands type marker).1.Holds k b.roots :=
    h.holds.1.congr (fun op ho => op?_addOp_of_ne fun e =>
      h.fresh (e ▸ Spine.mem_ops_plug.2 (.inr ho))) rfl
  rw [placeAtEnd, h.detach_addOp]
  show ((f.addOp kind operands type marker).1.region k.parent >>= fun o => _) = _
  rw [hhold.region]
  rfl

end Insertion

section Erasure

theorem op?_foldl_retire (f : Function) (ops : List OpId) (op : OpId) :
    (ops.foldl retire f).op? op =
      if op ∈ ops then (f.op? op).map fun o => { o with live := false, region := [] }
      else f.op? op := by
  induction ops generalizing f with
  | nil => rfl
  | cons x ops ih =>
    rw [List.foldl_cons, ih, retire, op?_modifyOp]
    by_cases hx : x = op
    · subst hx
      cases f.op? x <;> simp
    · simp [hx, Ne.symm hx]

theorem sameValues_foldl_retire (f : Function) (ops : List OpId) :
    f.SameValues (ops.foldl retire f) :=
  sameValues_foldl_modifyOp f ops fun _ => rfl

theorem body_foldl_retire (f : Function) (ops : List OpId) : (ops.foldl retire f).body = f.body := by
  induction ops generalizing f with
  | nil => rfl
  | cons op ops ih => exact ih _

def without (f : Function) (parent : Option OpId) (region ops : List OpId) : Function :=
  ops.foldl retire (f.setRegion parent region)

theorem sameValues_without (f : Function) (parent : Option OpId) (region ops : List OpId) :
    f.SameValues (f.without parent region ops) :=
  (sameValues_setRegion f parent region).trans (sameValues_foldl_retire _ ops)

theorem Represents.detach_eq {hd : Node} (h : f.Represents (k.plug (b ++ .node hd x z))) :
    f.detach hd.op = .ok (f.setRegion k.parent (b ++ z).roots) := by
  obtain ⟨hhold, hplace⟩ := h.holds
  have hnd := (Spine.nodup_plug.1 h.nodup).1
  rw [Code.ops_append, Code.ops, List.nodup_append', List.nodup_cons, List.nodup_append'] at hnd
  obtain ⟨-, ⟨hself, -, -, hxz⟩, hbx⟩ := hnd
  have hfilter : (b ++ .node hd x z).roots.filter (· ≠ hd.op) = (b ++ z).roots := by
    rw [Code.roots_append, Code.roots_append, List.filter_append, Code.roots,
      List.filter_cons_of_neg (by simp)]
    congr 1 <;> refine List.filter_eq_self.2 fun op ho => ?_
    · simpa using fun e => hbx (e ▸ Code.mem_ops_of_mem_roots ho) (by simp)
    · simpa using fun e => hself (by
        rw [List.mem_append]; exact .inr (e ▸ Code.mem_ops_of_mem_roots ho))
  rw [detach, op_eq_ok.2 (places_append.1 hplace).2.1]
  show (f.region k.parent >>= fun o => _) = _
  rw [hhold.region]
  exact congrArg (fun r => Except.ok (f.setRegion k.parent r)) hfilter

theorem Places.subtree_eq {parent : Option OpId} {hd : Node} (h : f.Places parent (.node hd x z))
    (hdepth : x.depth ≤ f.nesting) : f.subtree hd.op = hd.op :: x.ops := by
  rw [subtree, h.regionOf, h.2.1.unfold hdepth, Code.preorder_forest]

theorem Represents.depth_le {hd : Node} (h : f.Represents (k.plug (b ++ .node hd x z))) :
    x.depth ≤ f.nesting := by
  have hlen := length_ops_le (fun _ ho => h.places.exists_op ho) h.nodup
  rw [(Spine.ops_plug k _).length_eq] at hlen
  have hx := x.depth_le_length_ops
  simp only [Code.ops_append, Code.ops, List.length_append, List.length_cons] at hlen
  simp only [nesting]
  omega

theorem Represents.subtree_eq {hd : Node} (hr : f.Represents (k.plug (b ++ .node hd x z))) :
    f.subtree hd.op = hd.op :: x.ops :=
  (places_append.1 hr.holds.2).2.subtree_eq hr.depth_le

theorem Represents.erase_eq {hd : Node} (h : f.Represents (k.plug (b ++ .node hd x z))) :
    f.erase hd.op = .ok (f.without k.parent (b ++ z).roots (hd.op :: x.ops)) := by
  have hpl : (f.setRegion k.parent (b ++ z).roots).Places k.parent (.node hd x z) :=
    (places_append.1 h.holds.2).2.setRegion fun op hp ho => h.parent_not_mem hp (by simp [ho])
  have hsub : (f.setRegion k.parent (b ++ z).roots).subtree hd.op = hd.op :: x.ops :=
    hpl.subtree_eq (by simpa only [nesting, size_ops_setRegion] using h.depth_le)
  rw [erase, h.detach_eq]
  show Except.ok _ = _
  rw [hsub]
  rfl

theorem op?_without_of_not_mem {parent : Option OpId} {region ops : List OpId} {op : OpId}
    (ho : op ∉ ops) (hp : parent ≠ some op) : (f.without parent region ops).op? op = f.op? op := by
  rw [without, op?_foldl_retire, if_neg ho, op?_setRegion_of_ne hp]

theorem Represents.without {hd : Node} (h : f.Represents (k.plug (b ++ .node hd x z))) :
    (f.without k.parent (b ++ z).roots (hd.op :: x.ops)).Represents (k.plug (b ++ z)) := by
  obtain ⟨hhold, hplace⟩ := h.holds
  obtain ⟨hnd, hk, hdisj⟩ := Spine.nodup_plug.1 h.nodup
  have hnd' := hnd
  rw [Code.ops_append, Code.ops, List.nodup_append', List.nodup_cons, List.nodup_append'] at hnd'
  obtain ⟨-, ⟨hself, -, -, hxz⟩, hbx⟩ := hnd'
  have hgone : ∀ op, op ∈ (b ++ z).ops → op ∉ hd.op :: x.ops := by
    intro op ho hm
    rw [Code.ops_append, List.mem_append] at ho
    rcases ho with ho | ho
    · exact hbx ho (by simp only [List.mem_cons, List.mem_append] at hm ⊢; tauto)
    · rcases List.mem_cons.1 hm with rfl | hm
      · exact hself (by simp [ho])
      · exact hxz hm ho
  have hspine : ∀ op, op ∈ k.ops → op ∉ hd.op :: x.ops := by
    intro op ho hm
    refine hdisj ?_ ho
    simp only [Code.ops_append, Code.ops, List.mem_append, List.mem_cons] at hm ⊢
    tauto
  have hsub : ∀ op ∈ (b ++ z).ops, op ∈ (b ++ .node hd x z).ops := by
    intro op ho
    simp only [Code.ops_append, Code.ops, List.mem_append, List.mem_cons] at ho ⊢
    tauto
  obtain ⟨hb, -, -, hz⟩ := places_append.1 hplace
  have hholds : (f.without k.parent (b ++ z).roots (hd.op :: x.ops)).Holds k (b ++ z).roots :=
    (hhold.setRegion hk).congr
      (fun op ho => by rw [Function.without, op?_foldl_retire, if_neg (hspine op ho)])
      (body_foldl_retire _ _)
  have hplaces : (f.without k.parent (b ++ z).roots (hd.op :: x.ops)).Places k.parent (b ++ z) :=
    (places_append.2 ⟨hb, hz⟩).congr fun op ho =>
      op?_without_of_not_mem (hgone op ho) fun e => h.parent_not_mem e (hsub op ho)
  obtain ⟨hbody, hplaces⟩ := places_plug.2 ⟨hholds, hplaces⟩
  refine h.of_sameValues (sameValues_without _ _ _ _) hbody hplaces ?_ ?_ ?_
  · refine Spine.nodup_plug.2 ⟨?_, hk, fun op ho => hdisj (hsub op ho)⟩
    rw [Code.ops_append] at hnd ⊢
    refine hnd.sublist (List.Sublist.append_left ?_ _)
    exact (List.sublist_append_right _ _).trans (List.sublist_cons_self _ _)
  · intro op o hop hlive
    rw [Function.without, op?_foldl_retire] at hop
    split at hop
    · obtain ⟨o', -, rfl⟩ := Option.map_eq_some_iff.1 hop
      cases hlive
    · next hn =>
      by_cases hp : k.parent = some op
      · exact Spine.mem_ops_plug.2 (.inr (Spine.parent_mem_ops hp))
      · rw [op?_setRegion_of_ne hp] at hop
        have := h.live hop hlive
        simp only [Spine.mem_ops_plug, Code.ops_append, Code.ops, List.mem_append,
          List.mem_cons, not_or] at this hn ⊢
        tauto
  · intro hd' hm
    refine ⟨hd', ?_, rfl, rfl, rfl, rfl⟩
    simp only [Spine.mem_heads_plug, Code.heads_append, Code.heads, List.mem_append,
      List.mem_cons] at hm ⊢
    tauto

end Erasure

section Renaming

def swapped (old new : ValueId) (v : ValueId) : ValueId := if v = old then new else v

theorem swapped_of_ne {old new v : ValueId} (h : v ≠ old) : swapped old new v = v := if_neg h

@[simp] theorem swapped_self {old new : ValueId} : swapped old new old = new := if_pos rfl

@[simp] theorem swapped_to {old new : ValueId} : swapped old new new = new := ite_id new

theorem op?_foldl_retarget (f : Function) (ops : List OpId) (old new : ValueId) (op : OpId)
    (hn : ops.Nodup) :
    (ops.foldl (fun f op => f.modifyOp op (.retarget old new)) f).op? op =
      if op ∈ ops then (f.op? op).map (.retarget old new) else f.op? op := by
  induction ops generalizing f with
  | nil => rfl
  | cons x ops ih =>
    rw [List.nodup_cons] at hn
    rw [List.foldl_cons, ih _ hn.2, op?_modifyOp]
    by_cases hx : x = op
    · subst hx
      simp [hn.1]
    · simp [hx, Ne.symm hx]

theorem retarget_of_not_mem {old : ValueId} (new : ValueId) {o : Operation}
    (h : old ∉ o.operands) : o.retarget old new = o := by
  have hmap : (o.operands.map fun v => if v = old then new else v) = o.operands := by
    conv_rhs => rw [← List.map_id o.operands]
    refine List.map_congr_left fun v hv => if_neg ?_
    rintro rfl
    exact h hv
  rw [Operation.retarget, hmap]

theorem Represents.op?_replaceUses (h : f.Represents c) {op : OpId} (ho : op ∈ c.ops)
    (old new : ValueId) :
    (f.replaceUses old new).op? op = (f.op? op).map (.retarget old new) := by
  have hn : (f.users old).Nodup := by
    rw [users, h.walk_eq]
    exact h.nodup.filter _
  rw [Function.replaceUses, op?_foldl_retarget _ _ _ _ _ hn]
  split
  · rfl
  · next hm =>
    obtain ⟨o, hop⟩ := h.places.exists_op ho
    rw [users, h.walk_eq, List.mem_filter, not_and] at hm
    have hnot : old ∉ o.operands := by simpa [operandsOf, hop] using hm ho
    rw [hop, Option.map_some, retarget_of_not_mem new hnot]

theorem sameValues_replaceUses (f : Function) (old new : ValueId) :
    f.SameValues (f.replaceUses old new) :=
  sameValues_foldl_modifyOp f _ fun _ => rfl

theorem body_replaceUses (f : Function) (old new : ValueId) :
    (f.replaceUses old new).body = f.body := by
  rw [replaceUses]
  generalize f.users old = ops
  induction ops generalizing f with
  | nil => rfl
  | cons op ops ih => exact ih (f.modifyOp op _)

theorem Represents.replaceUses (h : f.Represents c) (old new : ValueId) :
    (f.replaceUses old new).Represents (c.rename (swapped old new)) := by
  have hplaces : ∀ (x : Code) (parent : Option OpId), f.Places parent x → x.ops ⊆ c.ops →
      (f.replaceUses old new).Places parent (x.rename (swapped old new)) := by
    intro x
    induction x with
    | nil => intro _ _ _; trivial
    | node hd body rest ihb ihr =>
      intro parent hp hx
      simp only [Code.ops, List.cons_subset, List.append_subset] at hx
      refine ⟨?_, ihb _ hp.2.1 hx.2.1, ihr _ hp.2.2 hx.2.2⟩
      rw [show (hd.rename (swapped old new)).op = hd.op from rfl, h.op?_replaceUses hx.1, hp.1,
        Code.roots_rename]
      rfl
  refine h.of_sameValues (sameValues_replaceUses f old new) ?_
    (hplaces c none h.places (List.Subset.refl _)) (by rw [Code.ops_rename]; exact h.nodup) ?_ ?_
  · rw [body_replaceUses, Code.roots_rename, h.body]
  · intro op o hop hlive
    rw [Code.ops_rename]
    by_contra hm
    have hn : op ∉ f.users old := fun hu => hm (by
      rw [users, h.walk_eq] at hu
      exact (List.mem_filter.1 hu).1)
    rw [Function.replaceUses, op?_foldl_retarget _ _ _ _ _
      (by rw [users, h.walk_eq]; exact h.nodup.filter _), if_neg hn] at hop
    exact hm (h.live hop hlive)
  · intro hd hm
    rw [Code.heads_rename] at hm
    obtain ⟨hd', hm', rfl⟩ := List.mem_map.1 hm
    exact ⟨hd', hm', rfl, rfl, rfl, rfl⟩

end Renaming

end Function

end KernelLowering
