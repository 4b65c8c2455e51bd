import KernelLowering.Proofs.Simulation.Definitions

namespace KernelLowering

theorem exists_cons_cons_of_getElem? {α : Type} {l : List α} {a b : α} (ha : l[0]? = some a)
    (hb : l[1]? = some b) : ∃ rest, l = a :: b :: rest := by
  obtain _ | ⟨x, _ | ⟨y, rest⟩⟩ := l
  · cases ha
  · cases hb
  · cases ha
    cases hb
    exact ⟨rest, rfl⟩

namespace Code

def definer? (c : Code) (v : ValueId) : Option Node :=
  c.heads.find? fun h => h.result.map (·.1) = some v

theorem of_definer? {c : Code} {v : ValueId} {h : Node} (hd : c.definer? v = some h) :
    h ∈ c.heads ∧ ∃ t, h.result = some (v, t) := by
  have hres := List.find?_some hd
  simp only [decide_eq_true_eq, Option.map_eq_some_iff] at hres
  obtain ⟨⟨u, t⟩, hres, rfl⟩ := hres
  exact ⟨List.mem_of_find?_eq_some hd, t, hres⟩

theorem definer?_eq_none {c : Code} {v : ValueId} :
    c.definer? v = none ↔ ∀ h ∈ c.heads, ∀ t, h.result ≠ some (v, t) := by
  simp only [definer?, List.find?_eq_none, decide_eq_true_eq, Option.map_eq_some_iff]
  constructor
  · exact fun h hd hm t hres => h hd hm ⟨(v, t), hres, rfl⟩
  · rintro h hd hm ⟨⟨u, t⟩, hres, rfl⟩
    exact h hd hm t hres

def constant? (c : Code) (v : ValueId) : Option Int := (c.definer? v).bind (·.kind.constant?)

end Code

namespace Function

variable {f : Function} {v : ValueId}

theorem has_of_bufferType? {t : Option BufferType} (h : f.bufferType? v = .ok t) : f.Has v := by
  obtain ⟨a, ha, -⟩ := Fault.map_eq_ok.1 h
  exact (Array.getElem?_eq_some_iff.1 (value_eq_ok.1 ha)).1

theorem has_of_definingOp? {op : Option OpId} (h : f.definingOp? v = .ok op) : f.Has v := by
  obtain ⟨a, ha, -⟩ := Fault.bind_eq_ok.1 h
  exact (Array.getElem?_eq_some_iff.1 (value_eq_ok.1 ha)).1

theorem has_of_definition? {o : Option Operation} (h : f.definition? v = .ok o) : f.Has v := by
  obtain ⟨_, hop, -⟩ := Fault.bind_eq_ok.1 h
  exact has_of_definingOp? hop

end Function

theorem Node.Typed.has {f : Function} {h : Node} (ht : h.Typed f) : ∀ v ∈ h.operands, f.Has v := by
  cases ht with
  | addIndex op v hx hy => exact List.forall_mem_cons.2 ⟨hx, List.forall_mem_singleton.2 hy⟩
  | view op v type hx => exact List.forall_mem_singleton.2 hx
  | subView op v hsource hsupplied =>
    exact List.forall_mem_cons.2 ⟨Function.has_of_bufferType? hsource, hsupplied⟩
  | effect op marker hpure hloop hcopy hops => exact hops
  | constant => simp [Node.value]
  | alloc => simp [Node.value]
  | loop => simp [Node.loop]

namespace Function.Represents

variable {f : Function} {c : Code} {v : ValueId} {h : Node}

theorem definer?_eq (hr : f.Represents c) (hh : h ∈ c.heads) {t : ValueType}
    (hres : h.result = some (v, t)) : c.definer? v = some h := by
  cases hd : c.definer? v with
  | none => exact absurd hres (Code.definer?_eq_none.1 hd h hh t)
  | some h' =>
    obtain ⟨hh', t', hres'⟩ := Code.of_definer? hd
    rw [hr.eq_of_result hh hh' hres hres']

theorem isLive_eq (hr : f.Represents c) (hh : h ∈ c.heads) : f.isLive h.op = .ok true := by
  obtain ⟨parent, region, hop⟩ := hr.exists_record hh
  rw [isLive, op_eq_ok.2 hop]
  rfl

theorem definingOp?_eq (hr : f.Represents c) (hv : f.Has v) :
    f.definingOp? v = .ok ((c.definer? v).map (·.op)) := by
  obtain ⟨⟨t, d⟩, ha⟩ : ∃ a, f.value? v = some a := ⟨_, Array.getElem?_eq_getElem hv⟩
  have hother : (∀ op, d ≠ .result op) → c.definer? v = none := by
    refine fun hd => Code.definer?_eq_none.2 fun h hh t' hres => hd h.op ?_
    rw [hr.result hh hres] at ha
    simp only [Option.some.injEq, Value.mk.injEq] at ha
    exact ha.2.symm
  rw [definingOp?, value_eq_ok.2 ha, Fault.ok_bind]
  cases d with
  | argument i =>
    rw [hother (by simp)]
    rfl
  | inductionVar op i =>
    rw [hother (by simp)]
    rfl
  | result op =>
    obtain ⟨o, ho, hres⟩ := hr.definer ha
    have hlive : f.isLive op = .ok o.live := by
      rw [isLive, op_eq_ok.2 ho]
      rfl
    simp only [hlive, Fault.ok_bind]
    cases hd : c.definer? v with
    | some h =>
      obtain ⟨hh, t', hres'⟩ := Code.of_definer? hd
      have hval := hr.result hh hres'
      rw [ha] at hval
      simp only [Option.some.injEq, Value.mk.injEq, Definition.result.injEq] at hval
      have htrue := hr.isLive_eq hh
      rw [← hval.2, hlive, Except.ok.injEq] at htrue
      rw [htrue, if_pos rfl, hval.2]
      rfl
    | none =>
      have hdead : o.live = false := by
        rw [Bool.eq_false_iff]
        intro hl
        have hmem := hr.live ho hl
        rw [Code.ops_eq_map_heads] at hmem
        obtain ⟨h, hh, rfl⟩ := List.mem_map.1 hmem
        obtain ⟨parent, region, hop⟩ := hr.exists_record hh
        rw [hop, Option.some.injEq] at ho
        subst ho
        obtain ⟨⟨u, t'⟩, hres', rfl⟩ := Option.map_eq_some_iff.1 hres
        exact Code.definer?_eq_none.1 hd h hh t' hres'
      rw [hdead, if_neg (by simp)]
      rfl

theorem definition?_eq (hr : f.Represents c) (hv : f.Has v) :
    (c.definer? v = none ∧ f.definition? v = .ok none) ∨ ∃ h parent region,
      c.definer? v = some h ∧ f.op? h.op = some (h.record parent region) ∧
        f.definition? v = .ok (some (h.record parent region)) := by
  rw [definition?, hr.definingOp?_eq hv, Fault.ok_bind]
  cases hd : c.definer? v with
  | none => exact .inl ⟨rfl, rfl⟩
  | some h =>
    obtain ⟨parent, region, hop⟩ := hr.exists_record (Code.of_definer? hd).1
    refine .inr ⟨h, parent, region, rfl, hop, ?_⟩
    simp [op_eq_ok.2 hop]

theorem definition?_of_definer? (hr : f.Represents c) (hdef : c.definer? v = some h) :
    ∃ parent region, f.definition? v = .ok (some (h.record parent region)) := by
  obtain ⟨hh, t, hres⟩ := Code.of_definer? hdef
  have hv : f.Has v := (Array.getElem?_eq_some_iff.1 (hr.result hh hres)).1
  rcases hr.definition?_eq hv with ⟨hnone, -⟩ | ⟨h', parent, region, hdef', -, hdefinition⟩
  · cases hnone.symm.trans hdef
  · obtain rfl := Option.some.inj (hdef'.symm.trans hdef)
    exact ⟨parent, region, hdefinition⟩

theorem definingKind?_eq (hr : f.Represents c) (hv : f.Has v) :
    f.definingKind? v = .ok ((c.definer? v).map (·.kind)) := by
  rcases hr.definition?_eq hv with ⟨hd, he⟩ | ⟨h, parent, region, hd, -, he⟩
  · rw [definingKind?, he, hd]
    rfl
  · rw [definingKind?, he, hd]
    rfl

theorem constant?_eq (hr : f.Represents c) (hv : f.Has v) :
    f.constant? v = .ok (c.constant? v) := by
  rw [constant?, hr.definingKind?_eq hv, Code.constant?]
  cases c.definer? v <;> rfl

end Function.Represents

theorem Env.Computed.constant {c : Code} {env : Env} (hc : env.Computed c.heads) {v : ValueId}
    {n : Int} (hd : c.constant? v = some n) {item : Item}
    (hv : env v = some item) : item = .index n := by
  obtain ⟨h, hdef, hkind⟩ := Option.bind_eq_some_iff.1 hd
  obtain ⟨hh, t, hres⟩ := Code.of_definer? hdef
  have hi := hc h hh v t item hres hv
  rw [OpKind.constant?_eq_some] at hkind
  rw [Node.item, hkind] at hi
  exact (Option.some.inj hi).symm

end KernelLowering

namespace KernelLowering.Code

inductive Stack (c : Code) : Option ValueId → List Node → Prop
  | ground {v : Option ValueId} (h : ∀ d ∈ v.bind c.definer?, d.kind.window? = none) : Stack c v []
  | view {v : Option ValueId} {d : Node} {views : List Node} (hdef : v.bind c.definer? = some d)
      (hwindow : d.kind.window?.isSome = true) (hbelow : Stack c d.operands.head? views) :
      Stack c v (d :: views)

def height (c : Code) : Nat → Option ValueId → Nat
  | 0, _ => 0
  | limit + 1, v =>
    match v.bind c.definer? with
    | some d => if d.kind.window?.isSome then c.height limit d.operands.head? + 1 else 0
    | none => 0

variable {c : Code} {v : Option ValueId} {d : Node} {views views' : List Node}

namespace Stack

theorem unique (h : c.Stack v views) (h' : c.Stack v views') : views = views' := by
  induction h generalizing views' with
  | ground hnone =>
    cases h' with
    | ground => rfl
    | view hdef hwindow => simp [hnone _ hdef] at hwindow
  | view hdef hwindow _ ih =>
    cases h' with
    | ground hnone => simp [hnone _ hdef] at hwindow
    | view hdef' _ hbelow =>
      obtain rfl := Option.some.inj (hdef.symm.trans hdef')
      rw [ih hbelow]

theorem mem_heads (h : c.Stack v views) (hd : d ∈ views) : d ∈ c.heads := by
  induction h with
  | ground => cases hd
  | view hdef _ _ ih =>
    rcases List.mem_cons.1 hd with rfl | hd
    · obtain ⟨u, -, hu⟩ := Option.bind_eq_some_iff.1 hdef
      exact (of_definer? hu).1
    · exact ih hd

theorem exists_of_mem (h : c.Stack v views) (hd : d ∈ views) :
    ∃ views', c.Stack d.operands.head? views' ∧ views'.length < views.length := by
  induction h with
  | ground => cases hd
  | view _ _ hbelow ih =>
    rcases List.mem_cons.1 hd with rfl | hd
    · exact ⟨_, hbelow, Nat.lt_succ_self _⟩
    · obtain ⟨views', h', hlt⟩ := ih hd
      exact ⟨views', h', Nat.lt_succ_of_lt hlt⟩

theorem nodup (h : c.Stack v views) : views.Nodup := by
  induction h with
  | ground => exact List.nodup_nil
  | view _ _ hbelow ih =>
    refine List.nodup_cons.2 ⟨fun hd => ?_, ih⟩
    obtain ⟨views', h', hlt⟩ := hbelow.exists_of_mem hd
    exact absurd (congrArg List.length (h'.unique hbelow)) hlt.ne

theorem length_le (h : c.Stack v views) : views.length ≤ c.heads.length :=
  (h.nodup.subperm fun _ hd => h.mem_heads hd).length_le

theorem height_eq {limit : Nat} (h : c.Stack v views) (hlimit : views.length ≤ limit) :
    c.height limit v = views.length := by
  induction h generalizing limit with
  | @ground v hnone =>
    cases limit with
    | zero => rfl
    | succ limit =>
      rw [height]
      cases hdef : v.bind c.definer? with
      | none => rfl
      | some d => simp [hnone d hdef]
  | view hdef hwindow _ ih =>
    cases limit with
    | zero => cases hlimit
    | succ limit =>
      rw [height, hdef]
      dsimp only
      rw [if_pos hwindow, ih (Nat.le_of_succ_le_succ hlimit), List.length_cons]

end Stack

end KernelLowering.Code
