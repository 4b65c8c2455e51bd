import KernelLowering.Proofs.Arena.Replacement
import KernelLowering.Proofs.Layout.Windows
import KernelLowering.Proofs.Folding.Additions

namespace KernelLowering

namespace Offset

def Present (f : Function) (offsets : List Offset) (supplied : List ValueId) : Prop :=
  ∀ v, .supplied v ∈ supply offsets supplied → f.Has v

theorem Present.of_has {f : Function} {offsets : List Offset} {supplied : List ValueId}
    (h : ∀ v ∈ supplied, f.Has v) : Present f offsets supplied :=
  fun v hv => h v (mem_of_supplied hv)

end Offset

namespace OffsetFolding

variable {f : Function} {k : Spine} {b x z c : Code} {hd : Node} {w : Window}
  {source : ValueId} {supplied : List ValueId}

def folded (c : Code) : SuppliedOffset ValueId → Offset × List ValueId
  | .static value => (.static value, [])
  | .supplied v =>
    match c.constant? v with
    | some value => (.static value, [])
    | none => (.dynamic, [v])
  | .missing => (.dynamic, [])

def foldedWindow (c : Code) (w : Window) (supplied : List ValueId) : Window :=
  { w with offsets := (Offset.supply w.offsets supplied).map fun o => (folded c o).1 }

def remaining (c : Code) (w : Window) (supplied : List ValueId) : List ValueId :=
  (Offset.supply w.offsets supplied).flatMap fun o => (folded c o).2

theorem mem_remaining {v : ValueId} (h : v ∈ remaining c w supplied) : v ∈ supplied := by
  obtain ⟨o, ho, hv⟩ := List.mem_flatMap.1 h
  cases o with
  | supplied u =>
    simp only [folded] at hv
    split at hv
    · cases hv
    · rw [List.mem_singleton.1 hv]
      exact Offset.mem_of_supplied ho
  | _ => cases hv

theorem count_folded (c : Code) (os : List (SuppliedOffset ValueId)) :
    (os.map fun o => (folded c o).1).count .dynamic =
      (os.flatMap fun o => (folded c o).2).length + os.count .missing := by
  induction os with
  | nil => rfl
  | cons o os ih =>
    rw [List.map_cons, List.flatMap_cons, List.count_cons, List.count_cons, List.length_append, ih]
    cases o with
    | static value =>
      simp [folded]
    | supplied v =>
      cases hv : c.constant? v with
      | some n => simp [folded, hv]
      | none =>
        simp only [folded, hv, List.length_singleton]
        simp
        omega
    | missing =>
      simp [folded]
      omega

theorem dynamicCount_foldedWindow :
    (foldedWindow c w supplied).dynamicCount = (remaining c w supplied).length ↔
      w.dynamicCount ≤ supplied.length := by
  rw [Window.dynamicCount, Window.dynamicCount, ← Offset.missing_not_mem_supply, foldedWindow,
    remaining, count_folded, ← List.count_eq_zero]
  omega

def settled (c : Code) : SuppliedOffset ValueId → SuppliedOffset ValueId
  | .supplied v =>
    match c.constant? v with
    | some n => .static n
    | none => .supplied v
  | o => o

theorem supply_folded (c : Code) {os : List (SuppliedOffset ValueId)} (h : .missing ∉ os) :
    Offset.supply (os.map fun o => (folded c o).1) (os.flatMap fun o => (folded c o).2) =
      os.map (settled c) := by
  induction os with
  | nil => rfl
  | cons o os ih =>
    rw [List.mem_cons, not_or] at h
    rw [List.map_cons, List.flatMap_cons, List.map_cons, ← ih h.2]
    cases o with
    | static n => rfl
    | supplied v =>
      simp only [folded, settled]
      cases c.constant? v <;> rfl
    | missing => exact (h.1 rfl).elim

theorem mapM_settled {start : SuppliedOffset ValueId → Option Int}
    (hstart : ∀ o i, start o = some i → start (settled c o) = some i) (hmissing : start .missing = none)
    {os : List (SuppliedOffset ValueId)} {is : List Int} (hs : os.mapM start = some is) :
    .missing ∉ os ∧ (os.map (settled c)).mapM start = some is := by
  induction os generalizing is with
  | nil => exact ⟨List.not_mem_nil, hs⟩
  | cons o os ih =>
    simp only [List.map_cons, List.mapM_cons, Option.bind_eq_bind, Option.bind_eq_some_iff,
      Option.pure_def, Option.some.injEq] at hs ⊢
    obtain ⟨i, hi, is, his, rfl⟩ := hs
    refine ⟨?_, i, hstart o i hi, is, (ih his).2, rfl⟩
    rw [List.mem_cons, not_or]
    refine ⟨?_, (ih his).1⟩
    rintro rfl
    cases hmissing.symm.trans hi

structure Ready (f : Function) (hd : Node) (w : Window) (source : ValueId)
    (supplied : List ValueId) (type : BufferType) : Prop where
  kind : hd.kind = .subView w
  operands : hd.operands = source :: supplied
  has : Offset.Present f w.offsets supplied
  source : f.bufferType? source = .ok (some type)
  count : w.dynamicCount ≤ supplied.length

theorem foldOffset_eq (hr : f.Represents c) {o : SuppliedOffset ValueId}
    (ho : ∀ v, o = .supplied v → f.Has v) : foldOffset f o = .ok (folded c o) := by
  cases o with
  | supplied v =>
    rw [foldOffset, hr.constant?_eq (ho v rfl), Fault.ok_bind, folded]
    cases c.constant? v <;> rfl
  | _ => rfl

theorem mapM_foldOffset (hr : f.Represents c) {os : List (SuppliedOffset ValueId)}
    (hos : ∀ v, .supplied v ∈ os → f.Has v) :
    os.mapM (foldOffset f) = .ok (os.map (folded c)) := by
  induction os with
  | nil => rfl
  | cons o os ih =>
    rw [List.mapM_cons, foldOffset_eq hr (fun v hv => hos v (hv ▸ List.mem_cons_self)),
      ih fun v hv => hos v (List.mem_cons_of_mem o hv)]
    rfl

theorem has_of_mapM_foldOffset {os : List (SuppliedOffset ValueId)}
    {dims : List (Offset × List ValueId)} (h : os.mapM (foldOffset f) = .ok dims) {v : ValueId}
    (hv : .supplied v ∈ os) : f.Has v := by
  induction os generalizing dims with
  | nil => cases hv
  | cons o os ih =>
    rw [List.mapM_cons] at h
    obtain ⟨dim, ho, h⟩ := Fault.bind_eq_ok.1 h
    obtain ⟨dims', hos, -⟩ := Fault.bind_eq_ok.1 h
    rcases List.mem_cons.1 hv with rfl | hv
    · obtain ⟨n, hn, -⟩ := Fault.bind_eq_ok.1 ho
      exact Function.has_of_constant? hn
    · exact ih hos hv

theorem yields_perform {type : BufferType} (hr : f.Represents (k.plug (b ++ .node hd x z)))
    (hready : Ready f hd w source supplied type) :
    Yields True ((Rule.offsetFolding).performAt f hd.op) fun g => ∃ op v result,
      (foldedWindow (k.plug (b ++ .node hd x z)) w supplied).resultType type = .ok result ∧
        Splice f g (k.rename (hd.redirect v)) (b.rename (hd.redirect v))
          (.rename (hd.redirect v) (.node (.value op
            (.subView (foldedWindow (k.plug (b ++ .node hd x z)) w supplied))
            (source :: remaining (k.plug (b ++ .node hd x z)) w supplied) v (.buffer result))
              .nil .nil)) (z.rename (hd.redirect v)) := by
  have hcursor : Cursor ⟨f, .before hd.op⟩ k b (.node hd x z) := ⟨hr, rfl⟩
  rw [Rule.performAt, Yields.map_iff, Build.yields_runOn]
  simp only [Rule.perform, perform, Build.yields_bind, Build.yields_function, Build.yields_lift,
    hr.record_at, Yields.ok_iff, Node.record, hready.kind, OpKind.window?, Fault.require_some,
    Operation.operand, hready.operands, List.getElem?_cons_zero, foldOffsets,
    Operation.offsetOperands, Fault.ok_bind, mapM_foldOffset hr hready.has, List.map_map,
    List.flatMap_map]
  refine (hcursor.yields_subView (dynamicCount_foldedWindow.2 hready.count) hready.source
    (Window.yields_resultType _ _)).mono ?_
  rintro ⟨v, s⟩ - ⟨op, result, hresult, hw⟩
  exact (hw.yields_redirect v).mono fun out _ hsplice => ⟨op, v, result, hresult, hsplice⟩

theorem ready_of_ok {g : Function} (hr : f.Represents (k.plug (b ++ .node hd x z)))
    (h : (Rule.offsetFolding).performAt f hd.op = .ok g) :
    ∃ w source supplied type, Ready f hd w source supplied type := by
  obtain ⟨r, hrun, -⟩ := Fault.map_eq_ok.1 h
  obtain ⟨⟨u, s⟩, hrun, -⟩ := Fault.bind_eq_ok.1 hrun
  simp only [Rule.perform, perform, Build.run_bind_eq_ok, Build.run_lift_eq_ok,
    Build.run_function_eq_ok, existsAndEq, true_and, hr.record_at,
    Except.ok.injEq, Node.record, Fault.require_eq_ok, OpKind.window?_eq_some] at hrun
  obtain ⟨w, ⟨hkind, -⟩, source, ⟨hsource, -⟩, dims, ⟨hdims, -⟩, v, s', hview, -⟩ := hrun
  obtain ⟨rest, hops⟩ : ∃ rest, hd.operands = source :: rest := by
    have hsource := Fault.require_eq_ok.1 hsource
    cases hops : hd.operands with
    | nil => cases hops ▸ hsource
    | cons source' rest =>
      cases hops ▸ hsource
      exact ⟨rest, rfl⟩
  rw [foldOffsets, Operation.offsetOperands, hops, Fault.ok_bind] at hdims
  have hhas : Offset.Present f w.offsets rest := fun v hv => has_of_mapM_foldOffset hdims hv
  obtain ⟨hcount, type, htype⟩ := Cursor.subView_of_ok hview
  rw [mapM_foldOffset hr hhas, Except.ok.injEq] at hdims
  subst hdims
  rw [List.map_map, List.flatMap_map] at hcount
  exact ⟨w, source, rest, type, hkind, hops, hhas, htype, dynamicCount_foldedWindow.1 hcount⟩

theorem gives_check (hr : f.Represents (k.plug (b ++ .node hd x z)))
    (hready : ∀ w, hd.kind = .subView w → ∃ source supplied, hd.operands = source :: supplied ∧
      ∀ v ∈ supplied, f.Has v) :
    (check f hd.op).Gives True fun _ => ∃ w, hd.kind = .subView w := by
  rw [check, Inspect.gives_bind, Inspect.gives_lift, hr.record_at, Yields.ok_iff]
  simp only [Inspect.gives_bind, Inspect.gives_discard, Operation.window, Inspect.gives_orDecline,
    Node.record, OpKind.window?_eq_some]
  intro w hkind
  obtain ⟨source, supplied, hops, hhas⟩ := hready w hkind
  simp only [Operation.offsetOperands, hops, Inspect.gives_lift, Yields.ok_iff]
  refine (Inspect.gives_anyM fun v hv => ?_).mono fun found _ _ => ?_
  · rw [Inspect.gives_bind, Inspect.gives_lift, hr.constant?_eq (hhas v hv)]
    exact Inspect.gives_pure (p := True) |>.2 trivial
  · split
    · exact Inspect.gives_throw
    · exact Inspect.gives_pure.2 ⟨w, hkind⟩

theorem gives_splice (hr : f.Represents (k.plug (b ++ .node hd x z)))
    (hready : ∀ w, hd.kind = .subView w → ∃ source supplied type,
      Ready f hd w source supplied type ∧ ∀ v ∈ supplied, f.Has v) :
    (Rule.offsetFolding.apply f hd.op).Gives True fun g => ∃ w source supplied type op v result,
      Ready f hd w source supplied type ∧
        (foldedWindow (k.plug (b ++ .node hd x z)) w supplied).resultType type = .ok result ∧
          Splice f g (k.rename (hd.redirect v)) (b.rename (hd.redirect v))
            (.rename (hd.redirect v) (.node (.value op
              (.subView (foldedWindow (k.plug (b ++ .node hd x z)) w supplied))
              (source :: remaining (k.plug (b ++ .node hd x z)) w supplied) v (.buffer result))
                .nil .nil)) (z.rename (hd.redirect v)) := by
  rw [Rule.apply, Inspect.gives_bind]
  refine (gives_check hr fun w hkind => ?_).mono ?_
  · obtain ⟨source, supplied, type, hready, hhas⟩ := hready w hkind
    exact ⟨source, supplied, hready.operands, hhas⟩
  rintro - - ⟨w, hkind⟩
  obtain ⟨source, supplied, type, hready, -⟩ := hready w hkind
  rw [Inspect.gives_lift]
  refine (yields_perform hr hready).mono ?_
  rintro g - ⟨op, v, result, hresult, hsplice⟩
  exact ⟨w, source, supplied, type, op, v, result, hready, hresult, hsplice⟩

theorem ready_of_typed (ht : hd.Typed f) (hkind : hd.kind = .subView w) :
    ∃ source supplied type, Ready f hd w source supplied type ∧ ∀ v ∈ supplied, f.Has v := by
  obtain ⟨source, supplied, v, type, below, hops, -, hbelow, hhas, hcount, -⟩ := ht.of_subView hkind
  exact ⟨source, supplied, below, ⟨hkind, hops, .of_has hhas, hbelow, hcount.le⟩, hhas⟩

theorem starts_foldedWindow {env : Env} (hc : env.Computed c.heads) {is : List Int}
    (hs : w.starts env supplied = some is) :
    (foldedWindow c w supplied).starts env (remaining c w supplied) = some is := by
  have hsettled : ∀ o i, Window.startAt env o = some i → Window.startAt env (settled c o) = some i := by
    intro o i hi
    cases o with
    | supplied v =>
      rw [settled]
      split
      · rename_i n hn
        cases hc.constant hn (Env.index?_eq_some.1 hi)
        rfl
      · exact hi
    | _ => exact hi
  obtain ⟨hmissing, hs⟩ := mapM_settled hsettled rfl hs
  rw [Window.starts, foldedWindow, remaining, supply_folded c hmissing, hs]

theorem gives_refinement (hs : f.Sound (k.plug (b ++ .node hd x z))) :
    (Rule.offsetFolding.apply f hd.op).Gives True fun g =>
      ∃ c, f.Improves g (k.plug (b ++ .node hd x z)) c := by
  refine (gives_splice hs.represents fun w hkind => ready_of_typed hs.typed_at hkind).mono ?_
  rintro g - ⟨w, source, supplied, type, op, v, result, hready, hresult, hsplice⟩
  obtain ⟨source', supplied', r, t, below, hops, hres, -, hhas, -, hoffsets, hstrides, -⟩ :=
    hs.typed_at.of_subView hready.kind
  rw [hready.operands, List.cons.injEq] at hops
  obtain ⟨rfl, rfl⟩ := hops
  rw [hd.redirect_of_result hres] at hsplice
  set c := k.plug (b ++ .node hd x z)
  set new : Node := .value op (.subView (foldedWindow c w supplied))
    (source :: remaining c w supplied) v (.buffer result) with hnew
  have hmem : new.rename (Function.swapped r v) ∈ ((k.rename (Function.swapped r v)).plug
      (b.rename (Function.swapped r v) ++ ((Code.node new .nil .nil).rename (Function.swapped r v) ++
        z.rename (Function.swapped r v)))).heads :=
    Spine.mem_heads_splice.2 (.inr List.mem_cons_self)
  have htype : g.bufferType? v = .ok (some result) :=
    hsplice.represents.bufferType?_eq (t := .buffer result) hmem rfl
  have hoffsets' : (foldedWindow c w supplied).offsets.length = w.sizes.length := by
    simp [foldedWindow, hoffsets]
  have htyped : new.Typed g := .subView op v (hsplice.grows.bufferType? hready.source)
    (fun u hu => hsplice.grows.has (hhas u (mem_remaining hu)))
    (dynamicCount_foldedWindow.2 hready.count) hoffsets' hstrides (Window.of_resultType hresult).1
  refine ⟨_, hs.replace hsplice hres (by rw [hready.kind]; rfl) (Function.has_of_bufferType? htype)
    (fun _ _ => ⟨result, htype⟩) (List.forall_mem_singleton.2 htyped)
    (List.forall_mem_singleton.2 rfl) (fun env hinformed _ hfit => ?_)
    fun env item hinformed _ hitem => ?_⟩
  · obtain ⟨u, us, s, starts, hops, hsource, hstarts, hembeds⟩ := hfit.shows w hready.kind
    rw [hready.operands, List.cons.injEq] at hops
    obtain ⟨rfl, rfl⟩ := hops
    refine ⟨⟨by simp [new, Node.value, OpKind.isLinalg], fun w' hk => ?_⟩, (fun _ hi => nomatch hi), trivial⟩
    cases hk
    exact ⟨_, _, s, starts, rfl, hsource, starts_foldedWindow hinformed.computed hstarts,
      hembeds.inside, hembeds.distinct⟩
  · simp only [Node.item, hready.kind, hready.operands, Option.bind_eq_bind, Option.bind_eq_some_iff,
      Option.pure_def, Option.some.injEq] at hitem
    obtain ⟨s, hsource, starts, hstarts, rfl⟩ := hitem
    refine (env.set_self v _).trans ?_
    exact Node.item_subView op v _ hsource (starts_foldedWindow hinformed.computed hstarts)

end OffsetFolding

end KernelLowering
