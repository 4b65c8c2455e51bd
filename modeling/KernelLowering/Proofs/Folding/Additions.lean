import KernelLowering.Proofs.Inspection
import KernelLowering.Proofs.Simulation.Lookup
import KernelLowering.Proofs.Simulation.Values
import KernelLowering.Rule.Basic

namespace KernelLowering

theorem Function.has_of_constant? {f : Function} {v : ValueId} {n : Option Int}
    (h : f.constant? v = .ok n) : f.Has v := by
  simp only [constant?, definingKind?, definition?, definingOp?, Fault.bind_eq_ok] at h
  obtain ⟨_, ⟨_, ⟨_, ⟨a, ha, -⟩, -⟩, -⟩, -⟩ := h
  exact (Array.getElem?_eq_some_iff.1 (value_eq_ok.1 ha)).1

namespace AdditionFolding

variable {f : Function} {k : Spine} {b x z : Code} {hd : Node}

def Folds : Option Int → Option Int → Prop
  | some _, some _ => True
  | some m, none => m = 0
  | none, some n => n = 0
  | none, none => False

def Ready (f : Function) (hd : Node) : Prop :=
  hd.kind = .addIndex → ∃ lhs rhs rest, hd.operands = lhs :: rhs :: rest ∧ f.Has lhs ∧ f.Has rhs

theorem gives_check (hr : f.Represents (k.plug (b ++ .node hd x z))) (hready : Ready f hd) :
    (check f hd.op).Gives True fun _ => hd.kind = .addIndex ∧ ∃ lhs rhs rest,
      hd.operands = lhs :: rhs :: rest ∧ f.Has lhs ∧ f.Has rhs ∧
        Folds ((k.plug (b ++ .node hd x z)).constant? lhs)
          ((k.plug (b ++ .node hd x z)).constant? rhs) := by
  rw [check, Inspect.gives_bind, Inspect.gives_lift, hr.record_at, Yields.ok_iff]
  by_cases hkind : hd.kind = .addIndex
  · obtain ⟨lhs, rhs, rest, hops, hx, hy⟩ := hready hkind
    simp only [Node.record, hkind, ne_eq, not_true_eq_false, if_false, Operation.operand, hops,
      Inspect.gives_bind, Inspect.gives_lift, List.getElem?_cons_zero, List.getElem?_cons_succ,
      Fault.require_some, Yields.ok_iff, hr.constant?_eq hx, hr.constant?_eq hy, true_and]
    have hfound : Folds ((k.plug (b ++ .node hd x z)).constant? lhs)
        ((k.plug (b ++ .node hd x z)).constant? rhs) → ∃ lhs' rhs' rest',
          lhs :: rhs :: rest = lhs' :: rhs' :: rest' ∧ f.Has lhs' ∧ f.Has rhs' ∧
            Folds ((k.plug (b ++ .node hd x z)).constant? lhs')
              ((k.plug (b ++ .node hd x z)).constant? rhs') :=
      fun hf => ⟨lhs, rhs, rest, rfl, hx, hy, hf⟩
    split
    · rename_i hl hr
      exact Inspect.gives_pure.2 (hfound (by rw [hl, hr]; trivial))
    · rename_i hl hr
      exact Inspect.gives_pure.2 (hfound (by rw [hl, hr]; rfl))
    · rename_i hl hr
      exact Inspect.gives_pure.2 (hfound (by rw [hl, hr]; rfl))
    · exact Inspect.gives_throw
  · simp [Node.record, hkind]

theorem ready_of_answers (hr : f.Represents (k.plug (b ++ .node hd x z)))
    (h : (check f hd.op).Answers ()) : Ready f hd := by
  intro hkind
  rw [check, Inspect.answers_bind] at h
  obtain ⟨o, ho, h⟩ := h
  rw [Inspect.answers_lift, hr.record_at, Except.ok.injEq] at ho
  subst ho
  simp only [Node.record, hkind, ne_eq, not_true_eq_false, if_false, Inspect.answers_bind,
    Inspect.answers_lift, Operation.operand, Fault.require_eq_ok] at h
  obtain ⟨lhs, hl, m, hm, rhs, hr, n, hn, -⟩ := h
  obtain ⟨rest, hops⟩ := exists_cons_cons_of_getElem? hl hr
  exact ⟨lhs, rhs, rest, hops, Function.has_of_constant? hm, Function.has_of_constant? hn⟩

inductive Folded (c : Code) (lhs rhs : ValueId) : Code → ValueId → Prop
  | constants {m n : Int} (op : OpId) (v : ValueId) (hl : c.constant? lhs = some m)
      (hr : c.constant? rhs = some n) :
      Folded c lhs rhs (.node (.value op (.constant (m + n)) [] v .index) .nil .nil) v
  | right (hl : c.constant? lhs = some 0) : Folded c lhs rhs .nil rhs
  | left (hr : c.constant? rhs = some 0) : Folded c lhs rhs .nil lhs

theorem yields_perform (hr : f.Represents (k.plug (b ++ .node hd x z))) {lhs rhs : ValueId}
    {rest : List ValueId} (hops : hd.operands = lhs :: rhs :: rest) (hl : f.Has lhs)
    (hr' : f.Has rhs)
    (hfold : Folds ((k.plug (b ++ .node hd x z)).constant? lhs)
      ((k.plug (b ++ .node hd x z)).constant? rhs)) :
    Yields True ((Rule.additionFolding).performAt f hd.op) fun g => ∃ y w,
      Folded (k.plug (b ++ .node hd x z)) lhs rhs y w ∧
        Splice f g (k.rename (hd.redirect w)) (b.rename (hd.redirect w)) (y.rename (hd.redirect w))
          (z.rename (hd.redirect w)) := by
  have hcursor : Cursor ⟨f, .before hd.op⟩ k b (.node hd x z) := ⟨hr, rfl⟩
  rw [Rule.performAt, Yields.map_iff, Build.yields_runOn]
  simp only [Rule.perform, perform, Build.yields_bind, Build.yields_function, Build.yields_lift,
    hr.record_at, Yields.ok_iff, Node.record, Operation.operand, hops, List.getElem?_cons_zero,
    List.getElem?_cons_succ, Fault.require_some, hr.constant?_eq hl,
    hr.constant?_eq hr']
  have hkeep : ∀ w, Folded (k.plug (b ++ .node hd x z)) lhs rhs .nil w →
      Yields True ((Build.replaceOp hd.op (some w)).run ⟨f, .before hd.op⟩) fun out => ∃ y w,
        Folded (k.plug (b ++ .node hd x z)) lhs rhs y w ∧
          Splice f out.2.function (k.rename (hd.redirect w)) (b.rename (hd.redirect w))
            (y.rename (hd.redirect w)) (z.rename (hd.redirect w)) := fun w hw =>
    ((Writes.nil hcursor).yields_redirect w).mono fun out _ hsplice =>
      ⟨.nil, w, hw, hsplice⟩
  split
  · rename_i m n hm hn
    simp only [Build.yields_bind, Build.yields_lift]
    refine (Checked.yields_add m n).weaken (fun _ => trivial) |>.mono ?_
    rintro _ - rfl
    refine (hcursor.yields_value (.constant (m + n)) [] .index rfl).mono ?_
    rintro ⟨w, s'⟩ - ⟨op, hw⟩
    exact (hw.yields_redirect w).mono fun out _ hsplice =>
      ⟨_, w, .constants op w hm hn, hsplice⟩
  · rename_i hm _
    exact hkeep rhs (.right hm)
  · rename_i hzero hboth
    refine hkeep lhs (.left ?_)
    cases hl : (k.plug (b ++ .node hd x z)).constant? lhs with
    | none =>
      cases hr : (k.plug (b ++ .node hd x z)).constant? rhs with
      | none =>
        rw [hl, hr] at hfold
        exact hfold.elim
      | some n =>
        rw [hl, hr] at hfold
        exact congrArg some hfold
    | some m =>
      cases hr : (k.plug (b ++ .node hd x z)).constant? rhs with
      | none =>
        rw [hl, hr] at hfold
        exact (hzero (hl.trans (congrArg some hfold))).elim
      | some n => exact (hboth m n hl hr).elim

theorem gives_splice (hr : f.Represents (k.plug (b ++ .node hd x z))) (hready : Ready f hd) :
    (Rule.additionFolding.apply f hd.op).Gives True fun g => hd.kind = .addIndex ∧
      ∃ lhs rhs rest y w, hd.operands = lhs :: rhs :: rest ∧ f.Has lhs ∧ f.Has rhs ∧
        Folded (k.plug (b ++ .node hd x z)) lhs rhs y w ∧
          Splice f g (k.rename (hd.redirect w)) (b.rename (hd.redirect w)) (y.rename (hd.redirect w))
            (z.rename (hd.redirect w)) := by
  rw [Rule.apply, Inspect.gives_bind]
  refine (gives_check hr hready).mono ?_
  rintro - - ⟨hkind, lhs, rhs, rest, hops, hl, hr', hfold⟩
  rw [Inspect.gives_lift]
  refine (yields_perform hr hops hl hr' hfold).mono ?_
  rintro g - ⟨y, w, hy, hsplice⟩
  exact ⟨hkind, lhs, rhs, rest, y, w, hops, hl, hr', hy, hsplice⟩

theorem item_eq_some {env : Env} {lhs rhs : ValueId} {item : Item} (hkind : hd.kind = .addIndex)
    (hops : hd.operands = [lhs, rhs]) (hi : hd.item env = some item) :
    ∃ i j, env lhs = some (.index i) ∧ env rhs = some (.index j) ∧ item = .index (i + j) := by
  simp only [Node.item, hkind, hops, Option.bind_eq_bind, Option.bind_eq_some_iff, Option.pure_def,
    Option.some.injEq] at hi
  obtain ⟨i, hi, j, hj, rfl⟩ := hi
  exact ⟨i, j, Env.index?_eq_some.1 hi, Env.index?_eq_some.1 hj, rfl⟩

theorem ready_of_typed (ht : hd.Typed f) : Ready f hd := by
  intro hkind
  obtain ⟨lhs, rhs, v, hops, -, hl, hr⟩ := ht.of_addIndex hkind
  exact ⟨lhs, rhs, [], hops, hl, hr⟩

theorem gives_refinement (hs : f.Sound (k.plug (b ++ .node hd x z))) :
    (Rule.additionFolding.apply f hd.op).Gives True fun g => ∃ (r w : ValueId) (y : Code),
      hd.kind = .addIndex ∧ hd.result = some (r, .index) ∧ (∀ h ∈ y.heads, h.kind.computes = true ∧ h.operands = []) ∧
        (w ∈ hd.operands ∨ ¬ f.Has w) ∧
          Splice f g (k.rename (Function.swapped r w)) (b.rename (Function.swapped r w))
            (y.rename (Function.swapped r w)) (z.rename (Function.swapped r w)) ∧
              f.Improves g (k.plug (b ++ .node hd x z))
                ((k.rename (Function.swapped r w)).plug (b.rename (Function.swapped r w) ++
                  (y.rename (Function.swapped r w) ++ z.rename (Function.swapped r w)))) := by
  rw [Rule.apply, Inspect.gives_bind]
  refine (gives_check hs.represents (ready_of_typed hs.typed_at)).mono ?_
  rintro - - ⟨hkind, lhs', rhs', rest, hops', -, -, hfold⟩
  obtain ⟨lhs, rhs, r, hops, hres, hl, hr⟩ := hs.typed_at.of_addIndex hkind
  rw [hops, List.cons.injEq, List.cons.injEq] at hops'
  obtain ⟨rfl, rfl, -⟩ := hops'
  rw [Inspect.gives_lift]
  refine (yields_perform hs.represents hops hl hr hfold).mono ?_
  rintro g - ⟨y, w, hy, hsplice⟩
  rw [hd.redirect_of_result hres] at hsplice
  have hheads : ∀ h ∈ y.heads, h.Typed g ∧ h.kind.computes = true ∧ h.operands = [] := by
    cases hy with
    | constants op v hm hn =>
      intro h hh
      rw [List.mem_singleton.1 hh]
      exact ⟨.constant op _ w, rfl, rfl⟩
    | right hm => exact fun h hh => (List.not_mem_nil hh).elim
    | left hm => exact fun h hh => (List.not_mem_nil hh).elim
  have hw : g.Has w ∧ (w ∈ hd.operands ∨ ¬ f.Has w) := by
    cases hy with
    | @constants m n op v hm hn =>
      have hv : w ∈ (Code.node (.value op (.constant (m + n)) [] w .index) .nil .nil).defined :=
        List.mem_singleton_self w
      rw [← Code.defined_rename (Function.swapped r w)] at hv
      refine ⟨hsplice.represents.has_of_mem ?_, .inr fun hf => ?_⟩
      · rw [(Spine.defined_plug _ _).mem_iff, Code.defined_append, Code.defined_append]
        exact List.mem_append_left _ (List.mem_append_right _ (List.mem_append_left _ hv))
      · rw [hsplice.defined, mem_freshValues] at hv
        exact Nat.not_lt_of_le hv.1 hf
    | right hm => exact ⟨hsplice.grows.has hr, .inl (by simp [hops])⟩
    | left hm => exact ⟨hsplice.grows.has hl, .inl (by simp [hops])⟩
  refine ⟨r, w, y, hkind, hres, fun h hh => (hheads h hh).2, hw.2, hsplice,
    hs.replace hsplice hres (by rw [hkind]; rfl) hw.1 (fun _ ht => by cases ht)
      (fun h hh => (hheads h hh).1) (fun h hh => (hheads h hh).2.1) (fun env _ _ _ => ?_) ?_⟩
  · cases hy with
    | constants op v hm hn => exact Code.throughout_fit (by simp [Code.heads, Node.value, OpKind.isLinalg, OpKind.window?]) env
    | right hm => trivial
    | left hm => trivial
  intro env item hinformed _ hitem
  obtain ⟨i, j, hi, hj, rfl⟩ := item_eq_some hkind hops hitem
  cases hy with
  | constants op v hm hn =>
    cases hinformed.computed.constant hm hi
    cases hinformed.computed.constant hn hj
    exact env.set_self w _
  | right hm =>
    cases hinformed.computed.constant hm hi
    rwa [← Int.zero_add j] at hj
  | left hm =>
    cases hinformed.computed.constant hm hj
    rwa [← Int.add_zero i] at hi

end AdditionFolding

end KernelLowering
