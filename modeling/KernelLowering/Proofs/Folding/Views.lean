import KernelLowering.Proofs.Arena.Replacement
import KernelLowering.Proofs.Layout.Windows
import KernelLowering.Proofs.Inspection
import KernelLowering.Proofs.Simulation.Lookup
import KernelLowering.Rule.Basic

namespace KernelLowering.ViewFolding

inductive Summed :
    SuppliedOffset ValueId → SuppliedOffset ValueId → Code → Offset → List ValueId → Prop
  | static {a b : Int} : Summed (.static a) (.static b) .nil (.static (a + b)) []
  | outer (u : ValueId) : Summed (.supplied u) (.static 0) .nil .dynamic [u]
  | inner (u : ValueId) : Summed (.static 0) (.supplied u) .nil .dynamic [u]
  | outerShifted {u : ValueId} {b : Int} (op op' : OpId) (c v : ValueId) (hb : b ≠ 0) :
      Summed (.supplied u) (.static b) (.node (.value op (.constant b) [] c .index) .nil
        (.node (.value op' .addIndex [u, c] v .index) .nil .nil)) .dynamic [v]
  | innerShifted {u : ValueId} {a : Int} (op op' : OpId) (c v : ValueId) (ha : a ≠ 0) :
      Summed (.static a) (.supplied u) (.node (.value op (.constant a) [] c .index) .nil
        (.node (.value op' .addIndex [u, c] v .index) .nil .nil)) .dynamic [v]
  | both (u u' : ValueId) (op : OpId) (v : ValueId) :
      Summed (.supplied u) (.supplied u') (.node (.value op .addIndex [u', u] v .index) .nil .nil)
        .dynamic [v]

inductive SummedAll :
    List (SuppliedOffset ValueId × SuppliedOffset ValueId) → Code → List Offset → List ValueId → Prop
  | nil : SummedAll [] .nil [] []
  | cons {o o' : SuppliedOffset ValueId} {dims : List (SuppliedOffset ValueId × SuppliedOffset ValueId)}
      {y y' : Code} {offset : Offset} {offsets : List Offset} {vs supplied : List ValueId}
      (hfirst : Summed o o' y offset vs) (hrest : SummedAll dims y' offsets supplied) :
      SummedAll ((o, o') :: dims) (y ++ y') (offset :: offsets) (vs ++ supplied)

theorem Summed.nested {o o' : SuppliedOffset ValueId} {y : Code} {offset : Offset}
    {vs : List ValueId} (h : Summed o o' y offset vs) : y.Nested := by
  cases h <;> simp [Code.Nested]

theorem SummedAll.nested {dims : List (SuppliedOffset ValueId × SuppliedOffset ValueId)}
    {y : Code} {offsets : List Offset} {supplied : List ValueId}
    (h : SummedAll dims y offsets supplied) : y.Nested := by
  induction h with
  | nil => trivial
  | cons hfirst _ ih => exact Code.nested_append.2 ⟨hfirst.nested, ih⟩

theorem Summed.count {o o' : SuppliedOffset ValueId} {y : Code} {offset : Offset}
    {vs : List ValueId} (h : Summed o o' y offset vs) : [offset].count .dynamic = vs.length := by
  cases h <;> rfl

theorem SummedAll.dynamicCount {dims : List (SuppliedOffset ValueId × SuppliedOffset ValueId)}
    {y : Code} {offsets : List Offset} {supplied : List ValueId}
    (h : SummedAll dims y offsets supplied) : offsets.count .dynamic = supplied.length := by
  induction h with
  | nil => rfl
  | cons hfirst _ ih =>
    rw [List.length_append, ← hfirst.count, ← ih, ← List.count_append]
    rfl

theorem SummedAll.length {dims : List (SuppliedOffset ValueId × SuppliedOffset ValueId)}
    {y : Code} {offsets : List Offset} {supplied : List ValueId} (h : SummedAll dims y offsets supplied) :
    offsets.length = dims.length := by
  induction h with
  | nil => rfl
  | cons _ _ ih => rw [List.length_cons, List.length_cons, ih]

theorem SummedAll.kind_eq {dims : List (SuppliedOffset ValueId × SuppliedOffset ValueId)}
    {y : Code} {offsets : List Offset} {supplied : List ValueId} (h : SummedAll dims y offsets supplied) :
    ∀ n ∈ y.heads, n.kind = .addIndex ∨ ∃ i, n.kind = .constant i := by
  induction h with
  | nil => simp [Code.heads]
  | cons hfirst _ ih =>
    rw [Code.heads_append, List.forall_mem_append]
    refine ⟨?_, ih⟩
    cases hfirst <;> simp [Code.heads, Node.value]

theorem SummedAll.result_eq {dims : List (SuppliedOffset ValueId × SuppliedOffset ValueId)}
    {y : Code} {offsets : List Offset} {supplied : List ValueId} (h : SummedAll dims y offsets supplied) :
    ∀ n ∈ y.heads, ∀ v ∈ n.defined, n.result = some (v, .index) := by
  induction h with
  | nil => simp [Code.heads]
  | cons hfirst _ ih =>
    rw [Code.heads_append, List.forall_mem_append]
    refine ⟨?_, ih⟩
    cases hfirst <;> simp [Code.heads, Node.value, Node.defined]

section Building

variable {s : Builder} {k : Spine} {b z : Code}

theorem SummedAll.has_of_buffer {s' : Builder} {y : Code} {offsets : List Offset}
    {dims : List (SuppliedOffset ValueId × SuppliedOffset ValueId)} {supplied : List ValueId}
    {v : ValueId} {type : BufferType} (h : SummedAll dims y offsets supplied) (hw : Writes s s' k b y z)
    (htype : s'.function.bufferType? v = .ok (some type)) : s.function.Has v := by
  by_contra hnot
  have hfresh : v ∈ y.defined := by
    rw [hw.defined, mem_freshValues]
    exact ⟨Nat.not_lt.1 hnot, Function.has_of_bufferType? htype⟩
  obtain ⟨n, hn, hv⟩ := List.mem_flatMap.1 hfresh
  have hin : n ∈ (k.plug (b ++ y ++ z)).heads := by simp [Spine.mem_heads_plug, hn]
  rw [hw.cursor.represents.bufferType?_eq hin (h.result_eq n hn v hv)] at htype
  cases htype

theorem yields_buildShifted (h : Cursor s k b z) (u : ValueId) {shift : Int} (hshift : shift ≠ 0) :
    Yields True ((buildShifted u shift).run s) fun r => ∃ op op' c,
      Writes s r.2 k b (.node (.value op (.constant shift) [] c .index) .nil
        (.node (.value op' .addIndex [u, c] r.1 .index) .nil .nil)) z := by
  simp only [buildShifted, hshift, if_false, Build.yields_bind]
  refine (h.yields_value (.constant shift) [] .index rfl).mono ?_
  rintro ⟨c, s₁⟩ - ⟨op, hw⟩
  refine (hw.cursor.yields_value .addIndex [u, c] .index rfl).mono ?_
  rintro ⟨v, s₂⟩ - ⟨op', hw'⟩
  exact ⟨op, op', c, hw.trans hw'⟩

theorem yields_buildOffset (h : Cursor s k b z) {o o' : SuppliedOffset ValueId} (ho : o ≠ .missing)
    (ho' : o' ≠ .missing) : Yields True ((buildOffset o o').run s) fun r =>
      ∃ y, Writes s r.2 k b y z ∧ Summed o o' y r.1.1 r.1.2 := by
  cases o with
  | missing => exact (ho rfl).elim
  | static a =>
    cases o' with
    | missing => exact (ho' rfl).elim
    | static b =>
      simp only [buildOffset, Build.yields_bind, Build.yields_lift, Build.yields_pure]
      refine (Checked.yields_add a b).weaken (fun _ => trivial) |>.mono ?_
      rintro _ - rfl
      exact ⟨.nil, .nil h, .static⟩
    | supplied u =>
      simp only [buildOffset, Build.yields_bind, Build.yields_pure]
      by_cases ha : a = 0
      · subst ha
        exact ⟨.nil, .nil h, .inner u⟩
      · refine (yields_buildShifted h u ha).mono ?_
        rintro ⟨v, s'⟩ - ⟨op, op', c, hw⟩
        exact ⟨_, hw, .innerShifted op op' c v ha⟩
  | supplied u =>
    cases o' with
    | missing => exact (ho' rfl).elim
    | static b =>
      simp only [buildOffset, Build.yields_bind, Build.yields_pure]
      by_cases hb : b = 0
      · subst hb
        exact ⟨.nil, .nil h, .outer u⟩
      · refine (yields_buildShifted h u hb).mono ?_
        rintro ⟨v, s'⟩ - ⟨op, op', c, hw⟩
        exact ⟨_, hw, .outerShifted op op' c v hb⟩
    | supplied u' =>
      simp only [buildOffset, Build.yields_bind, Build.yields_pure]
      refine (h.yields_value .addIndex [u', u] .index rfl).mono ?_
      rintro ⟨v, s'⟩ - ⟨op, hw⟩
      exact ⟨_, hw, .both u u' op v⟩

theorem yields_offsets (h : Cursor s k b z)
    {dims : List (SuppliedOffset ValueId × SuppliedOffset ValueId)}
    (hdims : ∀ d ∈ dims, d.1 ≠ .missing ∧ d.2 ≠ .missing) :
    Yields True ((dims.mapM fun (x, y) => buildOffset x y).run s) fun r =>
      ∃ y, Writes s r.2 k b y z ∧ SummedAll dims y (r.1.map (·.1)) (r.1.flatMap (·.2)) := by
  induction dims generalizing s b with
  | nil => exact ⟨.nil, .nil h, .nil⟩
  | cons d dims ih =>
    rw [List.forall_mem_cons] at hdims
    simp only [List.mapM_cons, Build.yields_bind, Build.yields_pure]
    refine (yields_buildOffset h hdims.1.1 hdims.1.2).mono ?_
    rintro ⟨first, s₁⟩ - ⟨y, hw, hfirst⟩
    refine (ih hw.cursor hdims.2).mono ?_
    rintro ⟨rest, s₂⟩ - ⟨y', hw', hrest⟩
    exact ⟨y ++ y', hw.trans hw', .cons hfirst hrest⟩

end Building

structure Ready (f : Function) (c : Code) (hd inner : Node) (w w' : Window) (u source : ValueId)
    (supplied supplied' : List ValueId) (type : BufferType) : Prop where
  kind : hd.kind = .subView w
  operands : hd.operands = u :: supplied
  has : f.Has u
  definer : c.definer? u = some inner
  innerKind : inner.kind = .subView w'
  innerOperands : inner.operands = source :: supplied'
  source : f.bufferType? source = .ok (some type)
  paired : ∀ d ∈ (Offset.supply w.offsets supplied).zip (Offset.supply w'.offsets supplied'),
    d.1 ≠ .missing ∧ d.2 ≠ .missing

variable {f : Function} {k : Spine} {b x z : Code} {hd inner : Node} {w w' : Window}
  {u source : ValueId} {supplied supplied' : List ValueId} {type : BufferType}

theorem paired_of_count {offsets offsets' : List Offset} {supplied supplied' : List ValueId}
    (hcount : offsets.count .dynamic ≤ supplied.length)
    (hcount' : offsets'.count .dynamic ≤ supplied'.length) :
    ∀ d ∈ (Offset.supply offsets supplied).zip (Offset.supply offsets' supplied'),
      d.1 ≠ .missing ∧ d.2 ≠ .missing := by
  intro d hd'
  obtain ⟨h₁, h₂⟩ := List.of_mem_zip hd'
  exact ⟨fun e => Offset.missing_not_mem_supply.2 hcount (e ▸ h₁),
    fun e => Offset.missing_not_mem_supply.2 hcount' (e ▸ h₂)⟩

def combined (w : Window) (offsets : List Offset) : Window := { w with offsets := offsets }

theorem yields_perform (hr : f.Represents (k.plug (b ++ .node hd x z)))
    (hready : Ready f (k.plug (b ++ .node hd x z)) hd inner w w' u source supplied supplied' type) :
    Yields True ((Rule.viewFolding).performAt f hd.op) fun g => ∃ y offsets vs op v result,
      SummedAll ((Offset.supply w.offsets supplied).zip (Offset.supply w'.offsets supplied')) y
        offsets vs ∧ (combined w offsets).resultType type = .ok result ∧
          Splice f g (k.rename (hd.redirect v)) (b.rename (hd.redirect v))
            (.rename (hd.redirect v) (y ++ .node (.value op (.subView (combined w offsets))
              (source :: vs) v (.buffer result)) .nil .nil)) (z.rename (hd.redirect v)) := by
  have hcursor : Cursor ⟨f, .before hd.op⟩ k b (.node hd x z) := ⟨hr, rfl⟩
  obtain ⟨parent, region, hop⟩ := hr.exists_record (Code.of_definer? hready.definer).1
  rw [Rule.performAt, Yields.map_iff, Build.yields_runOn]
  simp only [Rule.perform, perform, Build.yields_bind, Build.yields_function, Build.yields_lift,
    hr.record_at, Yields.ok_iff, Node.record, hready.kind, OpKind.window?, Fault.require_some,
    Operation.operand, hready.operands, List.getElem?_cons_zero, hr.definingOp?_eq hready.has,
    hready.definer, Option.map_some, Function.op_eq_ok.2 hop, hready.innerKind,
    hready.innerOperands, Operation.offsetOperands]
  refine (yields_offsets hcursor hready.paired).mono ?_
  rintro ⟨dims, s₁⟩ - ⟨y, hw, hsums⟩
  have hcount : (combined w (dims.map (·.1))).dynamicCount = (dims.flatMap (·.2)).length :=
    hsums.dynamicCount
  refine (hw.cursor.yields_subView hcount (hw.grows.bufferType? hready.source)
    (Window.yields_resultType _ _)).mono ?_
  rintro ⟨v, s₂⟩ - ⟨op, result, hresult, hw'⟩
  exact ((hw.trans hw').yields_redirect v).mono fun out _ hsplice =>
    ⟨y, _, _, op, v, result, hsums, hresult, hsplice⟩

theorem paired_of_mapM {s : Builder}
    {dims : List (SuppliedOffset ValueId × SuppliedOffset ValueId)}
    {r : List (Offset × List ValueId) × Builder}
    (h : (dims.mapM fun (x, y) => buildOffset x y).run s = .ok r) :
    ∀ d ∈ dims, d.1 ≠ .missing ∧ d.2 ≠ .missing := by
  induction dims generalizing s r with
  | nil => simp
  | cons d dims ih =>
    obtain ⟨o, o'⟩ := d
    simp only [List.mapM_cons, Build.run_bind_eq_ok] at h
    obtain ⟨a, s', hfirst, as, s'', hrest, -⟩ := h
    refine List.forall_mem_cons.2 ⟨⟨?_, ?_⟩, ih hrest⟩
    · rintro rfl
      cases o' <;> cases hfirst
    · rintro rfl
      cases o <;> cases hfirst

theorem cons_of_offsets {v : ValueId} {operands supplied : List ValueId} (hv : operands[0]? = some v)
    (hs : (match operands with
      | [] => Except.error Fault.indexOutOfBounds
      | _ :: rest => Except.ok rest) = .ok supplied) : operands = v :: supplied := by
  cases operands with
  | nil => cases hv
  | cons v' rest =>
    cases hv
    cases hs
    rfl

theorem ready_of_ok {g : Function} (hr : f.Represents (k.plug (b ++ .node hd x z)))
    (h : (Rule.viewFolding).performAt f hd.op = .ok g) :
    ∃ inner w w' u source supplied supplied' type,
      Ready f (k.plug (b ++ .node hd x z)) hd inner w w' u source supplied supplied' type := by
  have hcursor : Cursor ⟨f, .before hd.op⟩ k b (.node hd x z) := ⟨hr, rfl⟩
  obtain ⟨r, hrun, -⟩ := Fault.map_eq_ok.1 h
  obtain ⟨⟨r, s⟩, hrun, -⟩ := Fault.bind_eq_ok.1 hrun
  simp only [Rule.perform, perform, Build.run_bind_eq_ok, Build.run_lift_eq_ok,
    Build.run_function_eq_ok, existsAndEq, true_and, hr.record_at,
    Except.ok.injEq, Node.record, Fault.require_eq_ok, OpKind.window?_eq_some, Operation.operand,
    Operation.offsetOperands] at hrun
  obtain ⟨u, ⟨hu, -⟩, op, ⟨hdefined, -⟩, w, ⟨hkind, -⟩, o, ⟨hop, -⟩, w', ⟨hkind', -⟩, supplied,
    ⟨hsupplied, -⟩, supplied', ⟨hsupplied', -⟩, source, ⟨hsource, -⟩, dims, s₁, hdims, v, s₂, hview,
    -⟩ := hrun
  have hoperands := cons_of_offsets hu hsupplied
  have hoperands' := cons_of_offsets hsource hsupplied'
  have hu' : f.Has u := Function.has_of_definingOp? hdefined
  rw [hr.definingOp?_eq hu', Except.ok.injEq, Option.map_eq_some_iff] at hdefined
  obtain ⟨inner, hinner, rfl⟩ := hdefined
  obtain ⟨parent, region, hrecord⟩ := hr.exists_record (Code.of_definer? hinner).1
  rw [Function.op_eq_ok.1 hop, Option.some.injEq] at hrecord
  subst hrecord
  have hpaired := paired_of_mapM hdims
  obtain ⟨y, hw, hsums⟩ := (yields_offsets hcursor hpaired).of_ok hdims
  obtain ⟨-, type, htype⟩ := Cursor.subView_of_ok hview
  refine ⟨inner, w, w', u, source, supplied, supplied', type, hkind, hoperands, hu', hinner, hkind',
    hoperands', ?_, hpaired⟩
  exact (hw.grows.bufferType?_of_lt (hsums.has_of_buffer hw htype)).symm.trans htype

def Equipped (f : Function) (h : Node) : Prop :=
  ∀ w, h.kind = .subView w → ∃ source supplied v type below, h.operands = source :: supplied ∧
    h.result = some (v, .buffer type) ∧ f.bufferType? source = .ok (some below) ∧
      w.dynamicCount = supplied.length

def Viewed (f : Function) (h : Node) : Prop :=
  ∀ w, h.kind = .subView w → w.Ranked ∧ ∃ source supplied v type below,
    h.operands = source :: supplied ∧ h.result = some (v, .buffer type) ∧
      f.bufferType? source = .ok (some below) ∧ w.dynamicCount = supplied.length

def isEquipped (f : Function) (w : Window) : List ValueId → Option (ValueId × ValueType) → Bool
  | source :: supplied, some (_, .buffer _) =>
    (f.bufferType? source).toOption.join.isSome && w.dynamicCount == supplied.length
  | _, _ => false

theorem isEquipped_iff {operands : List ValueId} {res : Option (ValueId × ValueType)} :
    isEquipped f w operands res = true ↔ ∃ source supplied v type below, operands = source :: supplied ∧
      res = some (v, .buffer type) ∧ f.bufferType? source = .ok (some below) ∧
        w.dynamicCount = supplied.length := by
  have hbelow : ∀ source, (f.bufferType? source).toOption.join.isSome = true ↔
      ∃ below, f.bufferType? source = .ok (some below) := by
    intro source
    rcases f.bufferType? source with _ | (_ | below) <;> simp [Except.toOption]
  unfold isEquipped
  split
  · simp [hbelow]
  · rename_i hother
    refine ⟨fun h => (Bool.false_ne_true h).elim, ?_⟩
    rintro ⟨source, supplied, v, type, -, rfl, rfl, -⟩
    exact (hother source supplied v type rfl rfl).elim

instance (f : Function) (h : Node) : Decidable (Viewed f h) :=
  decidable_of_iff (∀ w ∈ h.kind.window?, w.Ranked ∧ isEquipped f w h.operands h.result = true) (by
    simp only [Option.mem_def, OpKind.window?_eq_some, isEquipped_iff, Viewed])

theorem yields_fits (offset : Offset) (size stride bound : Int) :
    Yields True (fits offset size stride bound) fun _ => True := by
  simp only [fits, Yields.bind_iff]
  refine (Checked.yields_fit _).mono fun _ _ _ => (Checked.yields_fit _).mono fun _ _ _ =>
    (Checked.yields_fit _).mono fun span _ _ => ?_
  have hstart : ∀ start : Int, Yields True (if start < 0 then pure false
      else do return (← Checked.add start span) ≤ bound) fun _ => True := by
    intro start
    split
    · trivial
    · simp only [Yields.bind_iff]
      exact (Checked.yields_fit _).mono fun _ _ _ => trivial
  cases offset with
  | static value => exact hstart value
  | dynamic => exact hstart 0

theorem yields_allFit (offsets : List Offset) (sizes strides bounds : List Int) :
    Yields True (allFit offsets sizes strides bounds) fun _ => True := by
  induction offsets generalizing sizes strides bounds with
  | nil => trivial
  | cons offset offsets ih =>
    match sizes, strides, bounds with
    | [], _, _ => trivial
    | _ :: _, [], _ => trivial
    | _ :: _, _ :: _, [] => trivial
    | size :: sizes, stride :: strides, bound :: bounds =>
      rw [allFit, Yields.bind_iff]
      refine (yields_fits _ _ _ _).mono fun found _ _ => ?_
      cases found with
      | true => exact ih _ _ _
      | false => trivial

theorem result_eq {c : Code} {h : Node} {v : ValueId} {t : ValueType} (hr : f.Represents c)
    (hh : h ∈ c.heads) (hres : h.result = some (v, t)) : f.result h.op = .ok v := by
  obtain ⟨parent, region, hop⟩ := hr.exists_record hh
  simp [Function.result, Function.op_eq_ok.2 hop, Node.record, hres]

def compare (outer inner : Window) (outerType innerType : BufferType) : Inspect Unit := do
  if outerType.element ≠ innerType.element then
    throw .layoutMismatch
  if (← outerType.strides) ≠ (← innerType.strides) then
    throw .layoutMismatch
  if outer.offsets.length ≠ inner.sizes.length ∨ inner.strides.any (· ≠ 1) then
    throw .incompatibleWindow
  if !(← allFit outer.offsets outer.sizes outer.strides inner.sizes) then
    throw .incompatibleWindow

theorem check_eq_compare {op : OpId} : check f op = (do
    let outerOp ← f.op op
    let outer ← outerOp.window .wrongKind
    let inner ← Inspect.orDecline .sourceNotSubView (← f.definingOp? (← outerOp.operand 0))
    let innerWindow ← (← f.op inner).window .sourceNotSubView
    let outerType ← Inspect.orDecline .layoutMismatch (← f.bufferType? (← f.result op))
    let innerType ← Inspect.orDecline .layoutMismatch (← f.bufferType? (← f.result inner))
    compare outer innerWindow outerType innerType) := rfl

theorem gives_compare {outer inner : BufferType} : (compare w w' outer inner).Gives True fun _ =>
    w.offsets.length = w'.sizes.length ∧ ∀ stride ∈ w'.strides, stride = 1 := by
  rw [compare]
  split
  · exact Inspect.gives_throw
  simp only [Inspect.gives_bind, Inspect.gives_lift]
  refine outer.yields_strides.mono fun strides _ _ => inner.yields_strides.mono fun strides' _ _ => ?_
  split
  · exact Inspect.gives_throw
  split
  · exact Inspect.gives_throw
  rename_i hwindow
  simp only [Inspect.gives_bind, Inspect.gives_lift]
  refine (yields_allFit _ _ _ _).mono fun found _ _ => ?_
  split
  · exact Inspect.gives_throw
  exact Inspect.gives_pure.2 (by simpa [not_or] using hwindow)

theorem gives_check (hr : f.Represents (k.plug (b ++ .node hd x z)))
    (hviews : ∀ h ∈ (k.plug (b ++ .node hd x z)).heads, Equipped f h) :
    (check f hd.op).Gives True fun _ => ∃ inner w w' u source supplied supplied' type,
      Ready f (k.plug (b ++ .node hd x z)) hd inner w w' u source supplied supplied' type ∧
        w.offsets.length = w'.sizes.length ∧ ∀ stride ∈ w'.strides, stride = 1 := by
  rw [check_eq_compare, Inspect.gives_bind, Inspect.gives_lift, hr.record_at, Yields.ok_iff]
  simp only [Operation.window, Inspect.gives_bind, Inspect.gives_orDecline, Node.record,
    OpKind.window?_eq_some, Inspect.gives_lift]
  intro w hkind
  obtain ⟨u, supplied, v, t, below, hops, hres, hbelow, hcount⟩ :=
    hviews hd (Spine.mem_heads_at k b x z hd) w hkind
  have hu := Function.has_of_bufferType? hbelow
  simp only [Operation.operand, hops, List.getElem?_cons_zero, Fault.require_some, Yields.ok_iff,
    hr.definingOp?_eq hu, Option.map_eq_some_iff]
  rintro _ ⟨inner, hdef, rfl⟩
  obtain ⟨hinner, t', hres'⟩ := Code.of_definer? hdef
  obtain ⟨parent, region, hop⟩ := hr.exists_record hinner
  simp only [Function.op_eq_ok.2 hop, Yields.ok_iff, Node.record]
  intro w' hkind'
  obtain ⟨source, supplied', v', t'', type, hops', hres'', htype, hcount'⟩ :=
    hviews inner hinner w' hkind'
  simp only [result_eq hr (Spine.mem_heads_at k b x z hd) hres, result_eq hr hinner hres'',
    hr.bufferType?_eq (Spine.mem_heads_at k b x z hd) hres, hr.bufferType?_eq hinner hres'',
    Yields.ok_iff, ValueType.buffer?, Option.some.injEq, forall_eq']
  exact gives_compare.mono fun _ _ hwindow => ⟨inner, w, w', u, source, supplied, supplied', type,
    ⟨hkind, hops, hu, hdef, hkind', hops', htype, paired_of_count hcount.le hcount'.le⟩, hwindow⟩

end KernelLowering.ViewFolding
