import KernelLowering.Proofs.Integrity.Histories

namespace KernelLowering

namespace Operation

def bare (o : Operation) : Operation :=
  { o with kind := .ret, operands := [], result := none, marker := none, inductionVars := [] }

@[simp] theorem bare_parent (o : Operation) : o.bare.parent = o.parent := rfl

end Operation

namespace Function

variable {f g : Function} {op anchor : OpId} {parent : Option OpId} {ops : List OpId}

def skeleton (f : Function) : Function :=
  { f with ops := f.ops.map Operation.bare, values := #[], arity := 0 }

@[simp] theorem body_skeleton (f : Function) : f.skeleton.body = f.body := rfl

@[simp] theorem size_ops_skeleton (f : Function) : f.skeleton.ops.size = f.ops.size := by
  simp [skeleton]

@[simp] theorem op?_skeleton (f : Function) (op : OpId) :
    f.skeleton.op? op = (f.op? op).map Operation.bare := by
  simp [skeleton, op?]

theorem op_skeleton (f : Function) (op : OpId) : f.skeleton.op op = Operation.bare <$> f.op op := by
  rw [Function.op, op?_skeleton, Function.op]
  cases f.op? op <;> rfl

theorem op_skeleton_eq_ok {o : Operation} (h : f.op op = .ok o) : f.skeleton.op op = .ok o.bare := by
  rw [op_skeleton, h]
  rfl

@[simp] theorem isLive_skeleton (f : Function) (op : OpId) : f.skeleton.isLive op = f.isLive op := by
  rw [isLive, op_skeleton, isLive]
  cases f.op op <;> rfl

@[simp] theorem region_skeleton (f : Function) (parent : Option OpId) :
    f.skeleton.region parent = f.region parent := by
  cases parent with
  | none => rfl
  | some p =>
    show (·.region) <$> f.skeleton.op p = (·.region) <$> f.op p
    rw [op_skeleton]
    cases f.op p <;> rfl

@[simp] theorem regionOf_skeleton (f : Function) (op : OpId) :
    f.skeleton.regionOf op = f.regionOf op := by
  rw [regionOf, op?_skeleton, regionOf]
  cases f.op? op <;> rfl

@[simp] theorem unfold_skeleton (f : Function) (depth : Nat) (ops : List OpId) :
    f.skeleton.unfold depth ops = f.unfold depth ops := by
  induction depth generalizing ops with
  | zero => rfl
  | succ depth ih =>
    induction ops with
    | nil => rfl
    | cons op ops ihops => rw [unfold_cons, unfold_cons, ih, ihops, regionOf_skeleton]

@[simp] theorem nesting_skeleton (f : Function) : f.skeleton.nesting = f.nesting := by
  simp [nesting]

@[simp] theorem walk_skeleton (f : Function) : f.skeleton.walk = f.walk := by
  simp [walk, forest]

@[simp] theorem subtree_skeleton (f : Function) (op : OpId) :
    f.skeleton.subtree op = f.subtree op := by
  simp [subtree]

theorem skeleton_modifyOp {change change' : Operation → Operation}
    (h : ∀ o : Operation, (change o).bare = change' o.bare) (f : Function) (op : OpId) :
    (f.modifyOp op change).skeleton = f.skeleton.modifyOp op change' := by
  have hops : (f.ops.modify op.index change).map Operation.bare =
      (f.ops.map Operation.bare).modify op.index change' := by
    refine Array.ext (by simp) fun i hi hi' => ?_
    simp only [Array.getElem_map, Array.getElem_modify]
    split
    · exact h _
    · rfl
  rw [skeleton, modifyOp, modifyOp, skeleton, hops]

@[simp] theorem skeleton_setRegion (f : Function) (parent : Option OpId) (ops : List OpId) :
    (f.setRegion parent ops).skeleton = f.skeleton.setRegion parent ops := by
  cases parent with
  | none => rfl
  | some p =>
    refine skeleton_modifyOp ?_ f p
    exact fun _ => rfl

@[simp] theorem skeleton_setParent (f : Function) (op : OpId) (parent : Option OpId) :
    (f.setParent op parent).skeleton = f.skeleton.setParent op parent := by
  refine skeleton_modifyOp ?_ f op
  exact fun _ => rfl

theorem skeleton_retire (f : Function) (op : OpId) : (f.retire op).skeleton = f.skeleton.retire op := by
  refine skeleton_modifyOp ?_ f op
  exact fun _ => rfl

theorem skeleton_foldl_retire (ops : List OpId) (f : Function) :
    (ops.foldl retire f).skeleton = ops.foldl retire f.skeleton := by
  induction ops generalizing f with
  | nil => rfl
  | cons op ops ih => rw [List.foldl_cons, ih, List.foldl_cons, skeleton_retire]

@[simp] theorem skeleton_replaceUses (f : Function) (old new : ValueId) :
    (f.replaceUses old new).skeleton = f.skeleton := by
  rw [replaceUses]
  generalize f.users old = ops
  induction ops generalizing f with
  | nil => rfl
  | cons op ops ih =>
    have hop : (f.modifyOp op (.retarget old new)).skeleton = f.skeleton.modifyOp op id := by
      refine skeleton_modifyOp ?_ f op
      exact fun _ => rfl
    rw [List.foldl_cons, ih, hop]
    exact modifyOp_eq_self fun _ _ => rfl

@[simp] theorem skeleton_addOp (f : Function) (kind : OpKind) (operands : List ValueId)
    (type : Option ValueType) (marker : Option Stage) :
    (f.addOp kind operands type marker).1.skeleton = (f.skeleton.addOp .ret [] none none).1 := by
  simp [addOp, skeleton, definedValues, OpKind.loopRanges, Operation.bare]

theorem detach_skeleton (h : f.detach op = .ok g) : f.skeleton.detach op = .ok g.skeleton := by
  obtain ⟨o, ho, h⟩ := Fault.bind_eq_ok.1 h
  obtain ⟨ops, hops, h⟩ := Fault.bind_eq_ok.1 h
  cases h
  rw [detach, op_skeleton_eq_ok ho, Fault.ok_bind]
  dsimp only
  rw [Operation.bare_parent, region_skeleton, hops, skeleton_setRegion]
  rfl

theorem placeAt_skeleton {point : InsertionPoint} (h : f.placeAt op point = .ok g) :
    f.skeleton.placeAt op point = .ok g.skeleton := by
  cases point with
  | before anchor =>
    obtain ⟨f₁, hdetach, h⟩ := Fault.bind_eq_ok.1 h
    obtain ⟨o, ho, h⟩ := Fault.bind_eq_ok.1 h
    obtain ⟨ops, hops, h⟩ := Fault.bind_eq_ok.1 h
    obtain ⟨ops', hops', h⟩ := Fault.bind_eq_ok.1 h
    cases h
    rw [placeAt, placeBefore, detach_skeleton hdetach, Fault.ok_bind, op_skeleton_eq_ok ho,
      Fault.ok_bind]
    dsimp only
    rw [Operation.bare_parent, region_skeleton, hops, Fault.ok_bind, hops', skeleton_setParent,
      skeleton_setRegion]
    rfl
  | atEnd parent =>
    obtain ⟨f₁, hdetach, h⟩ := Fault.bind_eq_ok.1 h
    obtain ⟨ops, hops, h⟩ := Fault.bind_eq_ok.1 h
    cases h
    rw [placeAt, placeAtEnd, detach_skeleton hdetach, Fault.ok_bind, region_skeleton, hops,
      skeleton_setParent, skeleton_setRegion]
    rfl

theorem erase_skeleton (h : f.erase op = .ok g) : f.skeleton.erase op = .ok g.skeleton := by
  obtain ⟨f₁, hdetach, h⟩ := Fault.bind_eq_ok.1 h
  cases h
  rw [erase, detach_skeleton hdetach, Fault.ok_bind, skeleton_foldl_retire, subtree_skeleton]
  rfl

/-- The walk lists exactly the live operations, each once; each of them stands in the body that its
record names, and erased operations hold nothing. -/
structure Housed (f : Function) : Prop where
  walk : ∀ op, f.isLive op = .ok true ↔ op ∈ f.walk
  nodup : f.walk.Nodup
  held : ∀ op o, f.op? op = some o → o.live = true → ∃ ops, f.region o.parent = .ok ops ∧ op ∈ ops
  erased : ∀ op o, f.op? op = some o → o.live = false → o.region = []

theorem WellFormed.housed (h : f.WellFormed) (hclear : ∀ o ∈ f.ops, o.Clear) : f.Housed where
  walk _ := h.isLive_iff_mem_walk
  nodup := h.walk_eq ▸ h.nodup
  held _ _ ho hlive := (h.held_by_parent ho hlive).1
  erased _ o ho := hclear o (Array.mem_of_getElem? ho)

theorem count_preorder_unfold {depth : Nat} (hlen : (f.unfold depth ops).preorder.length < depth) :
    (f.unfold depth ops).preorder.count op =
      ops.count op + ((f.unfold depth ops).preorder.flatMap f.regionOf).count op := by
  induction depth generalizing ops with
  | zero => exact absurd hlen (Nat.not_lt_zero _)
  | succ depth ih =>
    induction ops with
    | nil => rfl
    | cons x ops ihops =>
      rw [unfold_cons, Forest.preorder, List.length_cons, List.length_append] at hlen
      have hbody := @ih (f.regionOf x) (by omega)
      have hrest := ihops (by omega)
      simp only [unfold_cons, Forest.preorder, List.flatMap_cons, List.flatMap_append,
        List.count_append, List.count_cons]
      omega

theorem skeleton_places_unfold {depth : Nat} (hlen : (f.unfold depth ops).preorder.length < depth)
    (hlive : ∀ op ∈ (f.unfold depth ops).preorder, f.isLive op = .ok true)
    (hparent : ∀ op ∈ ops, ∀ o, f.op? op = some o → o.parent = parent)
    (hparents : ∀ p ∈ (f.unfold depth ops).preorder, ∀ op ∈ f.regionOf p, ∀ o, f.op? op = some o →
      o.parent = some p) :
    f.skeleton.Places parent ((f.unfold depth ops).code f.skeleton) ∧
      ((f.unfold depth ops).code f.skeleton).roots = ops ∧
        ((f.unfold depth ops).code f.skeleton).ops = (f.unfold depth ops).preorder := by
  induction depth generalizing ops parent with
  | zero => exact absurd hlen (Nat.not_lt_zero _)
  | succ depth ih =>
    induction ops with
    | nil => exact ⟨trivial, rfl, rfl⟩
    | cons x ops ihops =>
      rw [unfold_cons, Forest.preorder] at hlen hlive hparents
      rw [List.length_cons, List.length_append] at hlen
      simp only [List.mem_cons, List.mem_append, forall_eq_or_imp] at hlive hparent hparents
      obtain ⟨o, ho, hl⟩ := isLive_eq_ok.1 hlive.1
      obtain ⟨hbody, hroots, hops⟩ := @ih (some x) (f.regionOf x) (by omega)
        (fun op hop => hlive.2 op (.inl hop)) hparents.1 (fun p hp => hparents.2 p (.inl hp))
      obtain ⟨hrest, hroots', hops'⟩ := ihops (by omega) (fun op hop => hlive.2 op (.inr hop))
        hparent.2 (fun p hp => hparents.2 p (.inr hp))
      have hhead : f.skeleton.head? x = some ⟨x, .ret, [], none, none, []⟩ := by
        rw [head?, op?_skeleton, ho]
        rfl
      have hrecord : f.skeleton.op? x = some
          ((⟨x, .ret, [], none, none, []⟩ : Node).record parent (f.regionOf x)) := by
        have hregion : f.regionOf x = o.region := by rw [regionOf, ho]; rfl
        rw [op?_skeleton, ho, hregion, Option.map_some, Node.record, ← hparent.1 o ho, ← hl]
        rfl
      simp only [unfold_cons, Forest.code, hhead, Places, Code.roots, Code.ops, Forest.preorder,
        hroots, hroots', hops, hops']
      exact ⟨⟨hrecord, hbody, hrest⟩, trivial, trivial⟩

theorem Housed.length_lt (h : f.Housed) : f.walk.length < f.nesting := by
  have hsub : f.walk ⊆ (List.range f.ops.size).map OpId.mk := fun op ho => by
    obtain ⟨o, hop, -⟩ := isLive_eq_ok.1 ((h.walk op).2 ho)
    exact List.mem_map.2
      ⟨op.index, List.mem_range.2 (Array.getElem?_eq_some_iff.1 hop).1, rfl⟩
  have hlen := (List.subperm_of_subset h.nodup hsub).length_le
  rw [List.length_map, List.length_range] at hlen
  exact Nat.lt_succ_of_le hlen

theorem Housed.perm_walk (h : f.Housed) :
    f.walk.Perm (f.body ++ f.walk.flatMap f.regionOf) :=
  List.perm_iff_count.2 fun _ => by
    rw [List.count_append]
    exact count_preorder_unfold h.length_lt

theorem Housed.mem_walk_of_mem_regionOf (h : f.Housed) {p : OpId} (hop : op ∈ f.regionOf p) :
    p ∈ f.walk := by
  refine (h.walk p).1 (isLive_eq_ok.2 ?_)
  cases ho : f.op? p with
  | none => simp [regionOf, ho] at hop
  | some o =>
    refine ⟨o, rfl, Bool.eq_true_of_not_eq_false fun hdead => ?_⟩
    simp [regionOf, ho, h.erased p o ho hdead] at hop

theorem Housed.held_by (h : f.Housed) {o : Operation} (ho : f.op? op = some o) (hlive : o.live = true) :
    o.parent = none ∧ op ∈ f.body ∨ ∃ p, o.parent = some p ∧ op ∈ f.regionOf p := by
  obtain ⟨ops, hops, hop⟩ := h.held op o ho hlive
  cases hparent : o.parent with
  | none =>
    rw [hparent] at hops
    cases hops
    exact .inl ⟨rfl, hop⟩
  | some p =>
    rw [hparent] at hops
    obtain ⟨o', ho', rfl⟩ := Fault.map_eq_ok.1 hops
    refine .inr ⟨p, rfl, ?_⟩
    rwa [regionOf, op_eq_ok.1 ho']

theorem Housed.parent_eq (h : f.Housed) {o : Operation} (ho : f.op? op = some o) :
    (op ∈ f.body → o.parent = none) ∧ ∀ p ∈ f.walk, op ∈ f.regionOf p → o.parent = some p := by
  obtain ⟨-, hregions, hapart⟩ := List.nodup_append'.1 (h.perm_walk.nodup_iff.1 h.nodup)
  have hlive : op ∈ f.body ++ f.walk.flatMap f.regionOf → o.live = true := fun hop => by
    obtain ⟨o', ho', hlive⟩ := isLive_eq_ok.1 ((h.walk op).2 (h.perm_walk.mem_iff.2 hop))
    rw [ho, Option.some.injEq] at ho'
    exact ho' ▸ hlive
  have hin : ∀ {p}, op ∈ f.regionOf p → op ∈ f.walk.flatMap f.regionOf := fun hop =>
    List.mem_flatMap.2 ⟨_, h.mem_walk_of_mem_regionOf hop, hop⟩
  refine ⟨fun hop => ?_, fun p hp hop => ?_⟩
  · rcases h.held_by ho (hlive (List.mem_append_left _ hop)) with ⟨hnone, -⟩ | ⟨q, -, hq⟩
    · exact hnone
    · exact (hapart hop (hin hq)).elim
  · rcases h.held_by ho (hlive (List.mem_append_right _ (hin hop))) with ⟨-, hbody⟩ | ⟨q, hparent, hq⟩
    · exact (hapart hbody (hin hop)).elim
    · by_contra hne
      have hpairs : f.walk.Pairwise fun p q => (f.regionOf p).Disjoint (f.regionOf q) :=
        (List.nodup_flatMap.1 hregions).2
      have : Std.Symm fun p q => (f.regionOf p).Disjoint (f.regionOf q) := ⟨fun _ _ hd => hd.symm⟩
      exact hpairs.forall hp (h.mem_walk_of_mem_regionOf hq) (fun he => hne (he ▸ hparent)) hop hq

theorem value?_skeleton (f : Function) (v : ValueId) : f.skeleton.value? v = none := by
  simp [value?, skeleton]

theorem record_skeleton {o : Operation} (ho : f.skeleton.op? op = some o) :
    o.result = none ∧ o.inductionVars = [] := by
  rw [op?_skeleton, Option.map_eq_some_iff] at ho
  obtain ⟨o', -, rfl⟩ := ho
  exact ⟨rfl, rfl⟩

theorem heads_skeleton (f : Function) (x : Forest) : ∀ hd ∈ (x.code f.skeleton).heads,
    hd.kind = .ret ∧ hd.result = none ∧ hd.inductionVars = [] := by
  induction x with
  | nil => simp [Forest.code, Code.heads]
  | node op body rest ihb ihr =>
    cases ho : f.op? op with
    | none => simpa [Forest.code, head?, ho] using ihr
    | some o =>
      simp only [Forest.code, head?, op?_skeleton, ho, Option.map_some, Code.heads, List.mem_cons,
        List.mem_append, forall_eq_or_imp]
      exact ⟨⟨rfl, rfl, rfl⟩, fun hd hh => hh.elim (ihb hd) (ihr hd)⟩

theorem Housed.represents_skeleton (h : f.Housed) :
    f.skeleton.Represents (f.forest.code f.skeleton) := by
  obtain ⟨hplaces, hroots, hops⟩ := @skeleton_places_unfold f none _ _ h.length_lt
    (fun op hop => (h.walk op).2 hop) (fun op hop o ho => (h.parent_eq ho).1 hop)
    fun p hp op hop o ho => (h.parent_eq ho).2 p hp hop
  refine ⟨hroots.symm, hplaces, ?_, fun {op o} ho hlive => ?_, fun {hd v t} hh hres => ?_,
    fun {hd} hh => ?_, fun {hd i v} hh hvar => ?_, fun hi => ?_, fun hv => ?_⟩
  · exact hops ▸ h.nodup
  · refine hops ▸ (h.walk op).1 ?_
    rw [← isLive_skeleton, isLive_eq_ok]
    exact ⟨o, ho, hlive⟩
  · rw [(f.heads_skeleton _ hd hh).2.1] at hres
    cases hres
  · rw [(f.heads_skeleton _ hd hh).1, (f.heads_skeleton _ hd hh).2.2]
    rfl
  · rw [(f.heads_skeleton _ hd hh).2.2] at hvar
    cases hvar
  · exact absurd hi (Nat.not_lt_zero _)
  · rw [value?_skeleton] at hv
    cases hv

theorem Housed.intact_skeleton (h : f.Housed) : f.skeleton.Intact := by
  refine ⟨h.represents_skeleton.wellFormed, fun op o ho hdead => ?_, fun v i => ?_, fun v op => ?_,
    fun v op i => ?_⟩
  · rw [op?_skeleton, Option.map_eq_some_iff] at ho
    obtain ⟨o', ho', rfl⟩ := ho
    exact h.erased op o' ho' hdead
  · simp only [value?_skeleton, reduceCtorEq, exists_false, false_iff, not_and]
    exact fun hi => absurd hi (Nat.not_lt_zero _)
  · simp only [value?_skeleton, reduceCtorEq, exists_false, false_iff, not_exists, not_and]
    intro o ho hres
    rw [(record_skeleton ho).1] at hres
    cases hres
  · simp only [value?_skeleton, reduceCtorEq, exists_false, false_iff, not_exists, not_and]
    intro o ho hvar
    rw [(record_skeleton ho).2] at hvar
    cases hvar

theorem isLive_iff_mem_walk (h : f.skeleton.Intact) : f.isLive op = .ok true ↔ op ∈ f.walk := by
  rw [← isLive_skeleton, ← walk_skeleton]
  exact h.wellFormed.isLive_iff_mem_walk

end Function

def Builder.skeleton (s : Builder) : Builder := ⟨s.function.skeleton, s.point⟩

theorem Builder.Sound.skeleton {s : Builder} (h : s.Sound) : s.skeleton.Sound := fun p hp => by
  rw [Builder.skeleton, Function.isLive_skeleton]
  exact h p hp

namespace Build

variable {s s' : Builder} {kind : OpKind} {operands : List ValueId} {type : Option ValueType}
  {marker : Option Stage} {op : OpId} {k : Spine} {b z : Code}

theorem run_insert_skeleton (h : (insert kind operands type marker).run s = .ok (op, s')) :
    (insert .ret [] none none).run s.skeleton = .ok (op, s'.skeleton) := by
  rw [run_insert, Fault.map_eq_ok] at h
  obtain ⟨g, hg, he⟩ := h
  cases he
  have hplace := Function.placeAt_skeleton hg
  rw [Function.skeleton_addOp] at hplace
  rw [run_insert, Builder.skeleton, Function.size_ops_skeleton, hplace]
  rfl

theorem run_place_skeleton (h : (place op).run s = .ok ((), s')) :
    (place op).run s.skeleton = .ok ((), s'.skeleton) := by
  rw [run_place, Fault.map_eq_ok] at h
  obtain ⟨g, hg, he⟩ := h
  cases he
  rw [run_place, Builder.skeleton, Function.placeAt_skeleton hg]
  rfl

theorem run_forM_place_skeleton {ops : List OpId} (h : (ops.forM place).run s = .ok ((), s')) :
    (ops.forM place).run s.skeleton = .ok ((), s'.skeleton) := by
  induction ops generalizing s with
  | nil =>
    cases h
    rfl
  | cons op ops ih =>
    obtain ⟨⟨⟩, s₁, hplace, h⟩ := run_bind_eq_ok.1 h
    exact run_bind_eq_ok.2 ⟨(), s₁.skeleton, run_place_skeleton hplace, ih h⟩

theorem run_erase_skeleton (h : (Build.erase op).run s = .ok ((), s')) :
    (Build.erase op).run s.skeleton = .ok ((), s'.skeleton) := by
  rw [Build.erase, run_edit, Fault.map_eq_ok] at h
  obtain ⟨g, hg, he⟩ := h
  cases he
  rw [Build.erase, run_edit, Builder.skeleton, Function.erase_skeleton hg]
  rfl

variable {I : Function → Prop}

theorem Editing.skeleton (h : Editing I) : Editing fun g => I g.skeleton where
  insert hI hs := Ends.of_eq_ok fun _ hr => (h.insert hI hs.skeleton).of_ok (run_insert_skeleton hr)
  replaceUses old new hI := by rwa [Function.skeleton_replaceUses]
  erase hI hg := h.erase hI (Function.erase_skeleton hg)

theorem Keeps.skeleton (h : Keeps I (place op)) : Keeps (fun g => I g.skeleton) (place op) :=
  fun s hI hs => Ends.of_eq_ok fun r hr => by
    obtain ⟨hI', hs', hspares⟩ := (h s.skeleton hI hs.skeleton).of_ok (run_place_skeleton hr)
    simp only [Builder.Sound, Function.Spares, Builder.skeleton, Function.isLive_skeleton]
      at hs' hspares
    exact ⟨hI', hs', hspares⟩

theorem cursor_insert_skeleton (h : Cursor s.skeleton k b z)
    (hrun : (insert kind operands type marker).run s = .ok (op, s')) :
    ∃ n : Node, n.op = op ∧ Cursor s'.skeleton k (b ++ .node n .nil .nil) z := by
  have hinserted := run_insert_skeleton hrun
  rw [h.run_insert, Except.ok.injEq, Prod.mk.injEq] at hinserted
  obtain ⟨hop, hs'⟩ := hinserted
  refine ⟨s.skeleton.function.nextNode .ret [] none none, hop, ?_⟩
  rw [← hs']
  exact h.inserted_cursor

theorem skeleton_of_run_replaceUses {old new : ValueId}
    (hrun : (Build.replaceUses old new).run s = .ok ((), s')) : s'.skeleton = s.skeleton := by
  rw [Build.replaceUses, run_edit] at hrun
  cases hrun
  simp [Builder.skeleton]

theorem skeleton_of_forM_replaceUses {swaps : List (ValueId × ValueId)}
    (hrun : (swaps.forM fun q => Build.replaceUses q.1 q.2).run s = .ok ((), s')) :
    s'.skeleton = s.skeleton := by
  induction swaps generalizing s with
  | nil =>
    cases hrun
    rfl
  | cons q swaps ih =>
    obtain ⟨⟨⟩, s₁, huses, hrest⟩ := run_bind_eq_ok.1 hrun
    rw [ih hrest, skeleton_of_run_replaceUses huses]

theorem run_insertValue {t : ValueType} {v : ValueId}
    (hrun : (insertValue kind operands t).run s = .ok (v, s')) :
    ∃ op, (insert kind operands (some t) none).run s = .ok (op, s') := by
  obtain ⟨op, s₁, hinsert, hrest⟩ := run_bind_eq_ok.1 hrun
  obtain ⟨f, s₂, hfunction, hrest⟩ := run_bind_eq_ok.1 hrest
  obtain ⟨rfl, rfl⟩ := run_function_eq_ok.1 hfunction
  obtain ⟨-, rfl⟩ := run_lift_eq_ok.1 hrest
  exact ⟨op, hinsert⟩

theorem run_loop {vars : List ValueId} (hrun : (loop kind).run s = .ok ((op, vars), s')) :
    (insert kind [] none none).run s = .ok (op, s') := by
  obtain ⟨op', s₁, hinsert, hrest⟩ := run_bind_eq_ok.1 hrun
  obtain ⟨f, s₂, hfunction, hvars⟩ := run_bind_eq_ok.1 hrest
  obtain ⟨o, s₃, hop, hpair⟩ := run_bind_eq_ok.1 hvars
  obtain ⟨-, rfl⟩ := run_lift_eq_ok.1 hop
  obtain ⟨-, rfl⟩ := run_function_eq_ok.1 hfunction
  cases hpair
  exact hinsert

end Build

namespace TrivialLoops

open Build

variable {s s' : Builder} {k : Spine} {b x z : Code} {hd : Node} {f g : Function} {op : OpId}

theorem cursor_dropSingle {pairs kept : List (LoopRange × ValueId)} (h : Cursor s.skeleton k b z)
    (hrun : (dropSingle pairs).run s = .ok (kept, s')) :
    ∃ y, Cursor s'.skeleton k (b ++ y) z := by
  induction pairs generalizing s b kept with
  | nil =>
    cases hrun
    exact ⟨.nil, by rwa [Code.append_nil]⟩
  | cons pair pairs ih =>
    obtain ⟨trips, s₁, htrips, hrest⟩ := run_bind_eq_ok.1 hrun
    obtain ⟨-, rfl⟩ := run_lift_eq_ok.1 htrips
    split at hrest
    · obtain ⟨v, s₂, hconstant, hrest⟩ := run_bind_eq_ok.1 hrest
      obtain ⟨⟨⟩, s₃, huses, hrest⟩ := run_bind_eq_ok.1 hrest
      obtain ⟨op, hinsert⟩ := run_insertValue hconstant
      obtain ⟨n, -, hcursor⟩ := cursor_insert_skeleton h hinsert
      rw [← skeleton_of_run_replaceUses huses] at hcursor
      obtain ⟨y, hcursor⟩ := ih hcursor hrest
      rw [Code.append_assoc] at hcursor
      exact ⟨_, hcursor⟩
    · obtain ⟨kept', s₂, hdrop, hrest⟩ := run_bind_eq_ok.1 hrest
      cases hrest
      exact ih h hdrop

theorem cursor_buildTarget {kind : OpKind} {kept : List (LoopRange × ValueId)}
    {point : InsertionPoint} (h : Cursor s.skeleton k b (.node hd x z))
    (hrun : (buildTarget hd.op kind kept).run s = .ok (point, s')) :
    (point = .before hd.op ∧ Cursor s'.skeleton k b (.node hd x z)) ∨
      ∃ n : Node, point = .atEnd (some n.op) ∧
        Cursor s'.skeleton k (b ++ .node n .nil .nil) (.node hd x z) := by
  cases kept with
  | nil =>
    cases hrun
    exact .inl ⟨rfl, h⟩
  | cons pair kept =>
    obtain ⟨⟨loop, vars⟩, s₁, hloop, hrest⟩ := run_bind_eq_ok.1 hrun
    obtain ⟨⟨⟩, s₂, huses, hrest⟩ := run_bind_eq_ok.1 hrest
    cases hrest
    have hinsert : ∃ kind', (insert kind' [] none none).run s = .ok (loop, s₁) := by
      dsimp only [buildLoop] at hloop
      split at hloop <;> exact ⟨_, run_loop hloop⟩
    obtain ⟨kind', hinsert⟩ := hinsert
    obtain ⟨n, rfl, hcursor⟩ := cursor_insert_skeleton h hinsert
    rw [← skeleton_of_forM_replaceUses huses] at hcursor
    exact .inr ⟨n, rfl, hcursor⟩

theorem wellFormed_skeleton_perform (h : f.skeleton.Represents (k.plug (b ++ .node hd x z)))
    (hrun : (perform hd.op).run ⟨f, .before hd.op⟩ = .ok ((), s')) :
    s'.function.skeleton.WellFormed := by
  have herase : ∀ {s : Builder} {k b x z},
      s.function.skeleton.Represents (Spine.plug k (b ++ .node hd x z)) →
        (Build.erase hd.op).run s = .ok ((), s') → s'.function.skeleton.WellFormed := by
    intro s k b x z hr he
    exact ((yields_erase (s := s.skeleton) (p := True) hr).of_ok (run_erase_skeleton he)).1.wellFormed
  obtain ⟨f', s₁, hfunction, hbody⟩ := run_bind_eq_ok.1 hrun
  obtain ⟨o, s₂, hlift, hranges⟩ := run_bind_eq_ok.1 hbody
  obtain ⟨hop, rfl⟩ := run_lift_eq_ok.1 hlift
  obtain ⟨rfl, rfl⟩ := run_function_eq_ok.1 hfunction
  have hregion : o.region = x.roots := by
    have hrecord := h.record_at
    rw [Function.op_skeleton_eq_ok hop, Except.ok.injEq] at hrecord
    exact congrArg Operation.region hrecord
  obtain ⟨never, s₃, hnever, hrest⟩ := run_bind_eq_ok.1 hranges
  obtain rfl : s₃ = ⟨_, .before hd.op⟩ := ((yields_anyM_never _ _).of_ok hnever).1
  split at hrest
  · exact herase h hrest
  obtain ⟨kept, s₄, hdrop, hplaced⟩ := run_bind_eq_ok.1 hrest
  obtain ⟨point, s₅, htarget, hplaced'⟩ := run_bind_eq_ok.1 hplaced
  obtain ⟨⟨⟩, s₆, hpoint, hmoves⟩ := run_bind_eq_ok.1 hplaced'
  cases hpoint
  obtain ⟨⟨⟩, s₇, hmove, hgone⟩ := run_bind_eq_ok.1 hmoves
  rw [hregion] at hmove
  have hmove' := run_forM_place_skeleton hmove
  obtain ⟨y, hcursor⟩ := cursor_dropSingle (s := ⟨_, .before hd.op⟩) (z := .node hd x z) ⟨h, rfl⟩ hdrop
  rcases cursor_buildTarget hcursor htarget with ⟨rfl, hcursor'⟩ | ⟨n, rfl, hcursor'⟩
  · exact herase ((yields_place_before (s := ⟨s₅.function.skeleton, .before hd.op⟩) (p := True)
      hcursor'.represents rfl).of_ok hmove').1 hgone
  · have hrep := hcursor'.represents
    rw [Code.append_assoc (b ++ y)] at hrep
    have hmoved := ((yields_place_behind (s := ⟨s₅.function.skeleton, .atEnd (some n.op)⟩) (p := True)
      hrep rfl).of_ok hmove').1
    have hmoved' : s₇.function.skeleton.Represents
        (k.plug (b ++ y ++ .node n (.nil ++ x) .nil ++ .node hd .nil z)) := by
      rw [Code.append_assoc (b ++ y)]
      exact hmoved
    exact herase hmoved' hgone

end TrivialLoops

theorem Rule.intact_skeleton_of_answers {rule : Rule} {f g : Function} {op : OpId}
    (h : f.skeleton.Intact) (hlive : f.isLive op = .ok true) (hg : (rule.apply f op).Answers g) :
    g.skeleton.Intact := by
  rw [apply, Inspect.answers_bind] at hg
  obtain ⟨⟨⟩, -, hg⟩ := hg
  rw [Inspect.answers_lift] at hg
  by_cases hrule : rule = .trivialLoops
  · subst hrule
    obtain ⟨k, b, hd, x, z, rfl, hc⟩ := h.wellFormed.exists_at ((f.isLive_skeleton op).trans hlive)
    obtain ⟨⟨⟨⟩, g'⟩, hrun, rfl⟩ := Fault.map_eq_ok.1 hg
    obtain ⟨point, hrun⟩ := Function.runOn_eq_ok hrun
    have hr : f.skeleton.Represents (k.plug (b ++ .node hd x z)) := hc ▸ h.wellFormed
    refine ⟨TrivialLoops.wellFormed_skeleton_perform hr hrun, ?_⟩
    exact ((ends_performAt (Build.editing_sealed f.skeleton).skeleton hd.op ⟨h.sealed, .refl _⟩
      .trivialLoops fun _ _ _ r _ => (Build.keeps_place_sealed f.skeleton r).skeleton).of_ok hg).1
  · exact ((ends_performAt (Build.editing_intact f.skeleton).skeleton op ⟨h, .refl _⟩ rule
      fun he => (hrule he).elim).of_ok hg).1

end KernelLowering
