import Mathlib.Tactic.Ring
import KernelLowering.Proofs.Folding.Views
import KernelLowering.Proofs.Layout.Canonicalization

namespace KernelLowering

def Offset.shift : List Offset → List Int → Option Int
  | .static v :: offsets, stride :: strides => (shift offsets strides).map (v * stride + ·)
  | .dynamic :: _, _ :: _ => none
  | [], _ => some 0
  | _, [] => some 0

theorem Offset.map_bind_shift (outer inner : Option Int) (a b stride : Int) :
    (outer.bind fun i => inner.map (i + ·)).map ((a + b) * stride + ·) =
      (outer.map (a * stride + ·)).bind fun i => (inner.map (b * stride + ·)).map (i + ·) := by
  cases outer with
  | none => rfl
  | some i =>
    cases inner with
    | none => rfl
    | some j =>
      simp only [Option.map_some, Option.bind_some, Option.some.injEq]
      ring

theorem Offset.bind_bind_shift (base outer inner : Option Int) :
    (base.bind fun base => (outer.bind fun i => inner.map (i + ·)).map (base + ·)) =
      (base.bind fun base => inner.map (base + ·)).bind fun base => outer.map (base + ·) := by
  cases base with
  | none => rfl
  | some base =>
    cases outer with
    | none => cases inner <;> rfl
    | some i =>
      cases inner with
      | none => rfl
      | some j =>
        simp only [Option.map_some, Option.bind_some, Option.some.injEq]
        ring

namespace Window

variable {w : Window} {source : BufferType} {offsets : List Offset} {strides ones steps : List Int}
  {base : Int} {result : Option Int}

theorem linearOffset_eq_shift (h : linearOffset base offsets strides = .ok result) :
    result = (Offset.shift offsets strides).map (base + ·) := by
  fun_induction linearOffset base offsets strides with
  | case1 base v offsets stride strides ih =>
    obtain ⟨product, hproduct, h⟩ := Fault.bind_eq_ok.1 h
    obtain ⟨next, hnext, h⟩ := Fault.bind_eq_ok.1 h
    obtain ⟨-, rfl⟩ := Checked.mul_eq_ok.1 hproduct
    obtain ⟨-, rfl⟩ := Checked.add_eq_ok.1 hnext
    rw [ih _ h, Offset.shift, Option.map_map]
    exact congrArg (Option.map · _) (funext fun i => Int.add_assoc base (v * stride) i)
  | case2 => exact (Except.ok.inj h).symm
  | case3 => simp_all [Offset.shift]
  | case4 => simp_all [Offset.shift]

theorem start_eq_shift (h : w.start source strides = .ok result) :
    result = source.offset.bind fun base => (Offset.shift w.offsets strides).map (base + ·) := by
  rw [start] at h
  split at h
  · next base hbase => rw [hbase, Option.bind_some, linearOffset_eq_shift h]
  · next hbase => rw [hbase, Option.bind_none, Except.ok.inj h]

section Ones

variable (hones : ∀ one ∈ ones, one = 1)

include hones

theorem zipWith_mul_ones (hsteps : steps.length ≤ ones.length) :
    List.zipWith (· * ·) (List.zipWith (· * ·) strides ones) steps =
      List.zipWith (· * ·) strides steps := by
  induction strides generalizing ones steps with
  | nil => rfl
  | cons stride strides ih =>
    cases steps with
    | nil => simp
    | cons step steps =>
      obtain ⟨one, ones, rfl⟩ := List.exists_cons_of_length_pos (Nat.lt_of_lt_of_le (Nat.succ_pos _) hsteps)
      rw [List.forall_mem_cons] at hones
      rw [List.zipWith_cons_cons, List.zipWith_cons_cons, List.zipWith_cons_cons, hones.1, Int.mul_one,
        ih hones.2 (Nat.le_of_succ_le_succ hsteps)]

theorem shift_mul_ones (hoffsets : offsets.length ≤ ones.length) :
    Offset.shift offsets (List.zipWith (· * ·) strides ones) = Offset.shift offsets strides := by
  induction offsets generalizing strides ones with
  | nil => simp [Offset.shift]
  | cons offset offsets ih =>
    cases strides with
    | nil => rfl
    | cons stride strides =>
      obtain ⟨one, ones, rfl⟩ :=
        List.exists_cons_of_length_pos (Nat.lt_of_lt_of_le (Nat.succ_pos _) hoffsets)
      rw [List.forall_mem_cons] at hones
      rw [List.zipWith_cons_cons, hones.1, Int.mul_one]
      cases offset with
      | static v => rw [Offset.shift, Offset.shift, ih hones.2 (Nat.le_of_succ_le_succ hoffsets)]
      | dynamic => rfl

end Ones

end Window

namespace ViewFolding

variable {w w' : Window} {source below type result : BufferType} {supplied supplied' : List ValueId}
  {offsets : List Offset} {y : Code} {vs : List ValueId}

theorem SummedAll.shift_eq {dims : List (SuppliedOffset ValueId × SuppliedOffset ValueId)}
    (h : SummedAll dims y offsets vs) (strides : List Int) : Offset.shift offsets strides =
      (Offset.shift ((dims.map (·.1)).map (·.offset)) strides).bind fun i =>
        (Offset.shift ((dims.map (·.2)).map (·.offset)) strides).map (i + ·) := by
  induction h generalizing strides with
  | nil => simp [Offset.shift]
  | cons hfirst _ ih =>
    cases strides with
    | nil => simp [Offset.shift]
    | cons stride strides =>
      simp only [List.map_cons]
      cases hfirst with
      | static =>
        rw [Offset.shift, ih]
        exact Offset.map_bind_shift _ _ _ _ stride
      | outer => rfl
      | outerShifted => rfl
      | both => rfl
      | inner => exact (Option.bind_fun_none _).symm
      | innerShifted => exact (Option.bind_fun_none _).symm

theorem SummedAll.shift_supply
    (h : SummedAll ((Offset.supply w.offsets supplied).zip (Offset.supply w'.offsets supplied')) y
      offsets vs) (hlength : w.offsets.length = w'.offsets.length) (strides : List Int) :
    Offset.shift offsets strides = (Offset.shift w.offsets strides).bind fun i =>
      (Offset.shift w'.offsets strides).map (i + ·) := by
  rw [h.shift_eq, List.map_fst_zip (by simp [hlength]), List.map_snd_zip (by simp [hlength]),
    SuppliedOffset.map_offset_supply, SuppliedOffset.map_offset_supply]

theorem resultType_combined (hinner : w'.resultType source = .ok below)
    (houter : w.resultType below = .ok type) (hones : ∀ stride ∈ w'.strides, stride = 1)
    (hsums : SummedAll ((Offset.supply w.offsets supplied).zip (Offset.supply w'.offsets supplied')) y
      offsets vs) (hoffsets : w.offsets.length = w'.offsets.length)
    (hcount : w.offsets.length ≤ w'.strides.length) (hsteps : w.strides.length ≤ w'.strides.length)
    (hresult : (combined w offsets).resultType source = .ok result) : result = type := by
  obtain ⟨strides, products, start, hstrides, hproducts, hstart, rfl⟩ := Window.resultType_eq_ok.1 hinner
  obtain ⟨strides', products', start', hstrides', hproducts', hstart', rfl⟩ :=
    Window.resultType_eq_ok.1 houter
  obtain ⟨strides'', products'', start'', hstrides'', hproducts'', hstart'', rfl⟩ :=
    Window.resultType_eq_ok.1 hresult
  obtain rfl := Except.ok.inj (hstrides.symm.trans hstrides'')
  obtain rfl : products = strides' := Except.ok.inj hstrides'
  obtain rfl := Window.mapM_mul_eq_ok hproducts
  obtain rfl := Window.mapM_mul_eq_ok hproducts'
  obtain rfl := Window.mapM_mul_eq_ok hproducts''
  have hbegins : start'' = start' := by
    rw [Window.start_eq_shift hstart'', Window.start_eq_shift hstart', Window.shift_mul_ones hones hcount,
      combined, hsums.shift_supply hoffsets]
    show _ = start.bind _
    rw [Window.start_eq_shift hstart]
    exact Offset.bind_bind_shift _ _ _
  simp only [combined, hbegins, Window.zipWith_mul_ones hones hsteps]

end ViewFolding

def Window.Consistent (w : Window) : Prop :=
  w.sizes.length = w.offsets.length ∧ w.strides.length = w.offsets.length

instance (w : Window) : Decidable w.Consistent :=
  inferInstanceAs (Decidable (_ ∧ _))

/-- There is an operand for each dynamic offset of a sub-view. -/
def Node.Supplied (h : Node) : Prop := ∀ w ∈ h.kind.window?, w.dynamicCount ≤ h.operands.tail.length

/-- The lists of a sub-view have an entry for each dimension. -/
def Node.Consistent (h : Node) : Prop := ∀ w ∈ h.kind.window?, w.Consistent

instance (h : Node) : Decidable h.Consistent :=
  inferInstanceAs (Decidable (∀ w ∈ h.kind.window?, w.Consistent))

theorem Node.Exact.rename {f g : Function} {h : Node} {σ : ValueId → ValueId} (hexact : h.Exact f)
    (hσ : ∀ v type, f.bufferType? v = .ok (some type) → g.bufferType? (σ v) = .ok (some type)) :
    (h.rename σ).Exact g := by
  intro w hw
  obtain ⟨⟨below, type⟩, ht, htype⟩ := hexact w hw
  obtain ⟨source, rest, v, hops, hbelow, hres⟩ := Function.viewTypes?_eq_some.1 ht
  refine ⟨(below, type), Function.viewTypes?_eq_some.2 ⟨σ source, rest.map σ, v, ?_, hσ _ _ hbelow, hres⟩,
    htype⟩
  rw [Node.rename, hops, List.map_cons]

namespace ViewFolding

variable {w w' : Window} {type : BufferType} {source : ValueId} {supplied supplied' : List ValueId}

section Rewriting

variable {f g : Function} {k : Spine} {b x z : Code} {hd : Node} {op : OpId}

theorem views_of_check (hr : f.Represents (k.plug (b ++ .node hd x z)))
    (h : (check f hd.op).Answers ()) : ∃ w w' u supplied inner, hd.kind = .subView w ∧
      hd.operands = u :: supplied ∧ f.Has u ∧
        (k.plug (b ++ .node hd x z)).definer? u = some inner ∧ inner.kind = .subView w' ∧
          w.offsets.length = w'.sizes.length ∧ ∀ stride ∈ w'.strides, stride = 1 := by
  simp only [check_eq_compare, Operation.window, Inspect.answers_bind, Inspect.answers_lift,
    Inspect.answers_orDecline, hr.record_at, Except.ok.injEq, Operation.operand, Fault.require_eq_ok,
    existsAndEq, true_and, OpKind.window?_eq_some, Node.record] at h
  obtain ⟨w, hkind, u, hu, op, hdefined, o, ho, w', hkind', v, -, t, -, v', -, t', -, hcompare⟩ := h
  have hhas : f.Has u := Function.has_of_definingOp? hdefined
  rw [hr.definingOp?_eq hhas, Except.ok.injEq, Option.map_eq_some_iff] at hdefined
  obtain ⟨inner, hinner, rfl⟩ := hdefined
  obtain ⟨parent, region, hrecord⟩ := hr.exists_record (Code.of_definer? hinner).1
  obtain rfl := Option.some.inj ((Function.op_eq_ok.1 ho).symm.trans hrecord)
  obtain ⟨supplied, hoperands⟩ : ∃ supplied, hd.operands = u :: supplied := by
    cases hops : hd.operands with
    | nil => simp [hops] at hu
    | cons u' supplied =>
      obtain rfl : u' = u := by simpa [hops] using hu
      exact ⟨supplied, rfl⟩
  exact ⟨w, w', u, supplied, inner, hkind, hoperands, hhas, hinner, hkind', gives_compare.of_answers hcompare⟩

/-- A sub-view of the same type stands in the place of the operation, and for its result in all uses. -/
structure Retypes (f g : Function) (hd n : Node) (k : Spine) (b x y z : Code) (r v : ValueId)
    (type : BufferType) : Prop where
  before : f.code = k.plug (b ++ .node hd x z)
  result : hd.result = some (r, .buffer type)
  window : n.kind.window?.isSome = true
  same : n.result = some (v, .buffer type)
  after : g.code = (k.rename (Function.swapped r v)).plug (b.rename (Function.swapped r v) ++
    ((y ++ .node n .nil .nil).rename (Function.swapped r v) ++ z.rename (Function.swapped r v)))

variable {inner : Node} {u : ValueId} (hr : f.Represents (k.plug (b ++ .node hd x z)))
  (hexact : ∀ h ∈ (k.plug (b ++ .node hd x z)).heads, h.Exact f)
  (hcheck : (check f hd.op).Answers ())

include hr hexact hcheck

theorem ready_of_check (hsupplied : ∀ h ∈ (k.plug (b ++ .node hd x z)).heads, h.Supplied) :
    ∃ inner w w' u source supplied supplied' type,
      Ready f (k.plug (b ++ .node hd x z)) hd inner w w' u source supplied supplied' type := by
  obtain ⟨w, w', u, supplied, inner, hkind, hoperands, hhas, hdef, hkind', -⟩ := views_of_check hr hcheck
  have hinner := (Code.of_definer? hdef).1
  obtain ⟨⟨type, below⟩, ht, -⟩ := hexact inner hinner w' (OpKind.window?_eq_some.2 hkind')
  obtain ⟨source, supplied', -, hoperands', hsource, -⟩ := Function.viewTypes?_eq_some.1 ht
  have hcount := hsupplied hd (Spine.mem_heads_at k b x z hd) w (OpKind.window?_eq_some.2 hkind)
  have hcount' := hsupplied inner hinner w' (OpKind.window?_eq_some.2 hkind')
  rw [hoperands] at hcount
  rw [hoperands'] at hcount'
  exact ⟨inner, w, w', u, source, supplied, supplied', type, hkind, hoperands, hhas, hdef, hkind',
    hoperands', hsource, paired_of_count hcount hcount'⟩

theorem Ready.type_eq (hconsistent : ∀ h ∈ (k.plug (b ++ .node hd x z)).heads, h.Consistent)
    (hready : Ready f (k.plug (b ++ .node hd x z)) hd inner w w' u source supplied supplied' type) :
    ∃ r outer, hd.result = some (r, .buffer outer) ∧ ∀ {y offsets vs result},
      SummedAll ((Offset.supply w.offsets supplied).zip (Offset.supply w'.offsets supplied')) y offsets vs →
        (combined w offsets).resultType type = .ok result → result = outer := by
  obtain ⟨hinner, t, hres⟩ := Code.of_definer? hready.definer
  have hat := Spine.mem_heads_at k b x z hd
  have hwindow : hd.kind.window? = some w := OpKind.window?_eq_some.2 hready.kind
  have hwindow' : inner.kind.window? = some w' := OpKind.window?_eq_some.2 hready.innerKind
  obtain ⟨⟨below, outer⟩, ht, htype⟩ := hexact hd hat w hwindow
  obtain ⟨⟨type', below'⟩, ht', htype'⟩ := hexact inner hinner w' hwindow'
  obtain ⟨u', rest, r, hops, hbelow, hresult⟩ := Function.viewTypes?_eq_some.1 ht
  obtain ⟨source', rest', u'', hops', hsource, hresult'⟩ := Function.viewTypes?_eq_some.1 ht'
  obtain ⟨rfl, -⟩ : u = u' ∧ supplied = rest := by simpa [hready.operands] using hops
  obtain ⟨rfl, -⟩ : source = source' ∧ supplied' = rest' := by simpa [hready.innerOperands] using hops'
  obtain rfl : type = type' := by simpa [hready.source] using hsource
  obtain ⟨rfl, rfl⟩ : u = u'' ∧ t = .buffer below' := by simpa [hres] using hresult'
  obtain rfl : below' = below := by
    simpa [hr.bufferType?_eq hinner hres, ValueType.buffer?] using hbelow
  obtain ⟨v, v', u₁, rest₁, inner₁, hkind, hoperands, -, hdef, hkind', hcount, hones⟩ :=
    views_of_check hr hcheck
  obtain rfl : w = v := OpKind.subView.inj (hready.kind.symm.trans hkind)
  obtain ⟨rfl, -⟩ : u = u₁ ∧ supplied = rest₁ := by simpa [hready.operands] using hoperands
  obtain rfl : inner = inner₁ := Option.some.inj (hready.definer.symm.trans hdef)
  obtain rfl : w' = v' := OpKind.subView.inj (hready.innerKind.symm.trans hkind')
  obtain ⟨-, hsteps⟩ := hconsistent hd hat w hwindow
  obtain ⟨hsizes', hsteps'⟩ := hconsistent inner hinner w' hwindow'
  have hoffsets : w.offsets.length = w'.offsets.length := hcount.trans hsizes'
  refine ⟨r, outer, hresult, fun hsums hcombined => ?_⟩
  exact resultType_combined htype' htype hones hsums hoffsets (hoffsets.trans hsteps'.symm).le
    (hsteps.trans (hoffsets.trans hsteps'.symm)).le hcombined

theorem yields_retypes (hconsistent : ∀ h ∈ (k.plug (b ++ .node hd x z)).heads, h.Consistent)
    (hready : Ready f (k.plug (b ++ .node hd x z)) hd inner w w' u source supplied supplied' type) :
    Yields True (Rule.viewFolding.performAt f hd.op) fun g =>
      (∃ y n r v outer, Retypes f g hd n k b x y z r v outer) ∧ ∀ h ∈ g.code.heads, h.Exact g := by
  obtain ⟨r, outer, hresult, htypes⟩ := hready.type_eq hr hexact hcheck hconsistent
  refine (yields_perform hr hready).mono ?_
  rintro g - ⟨y, offsets, vs, op, v, result, hsums, hcombined, hsplice⟩
  obtain rfl := htypes hsums hcombined
  rw [Node.redirect_of_result hresult] at hsplice
  have hg := hsplice.represents
  refine ⟨⟨y, _, r, v, result, ⟨hr.code_eq, hresult, rfl, rfl, hg.code_eq⟩⟩, fun h' hh' => ?_⟩
  have hold : f.bufferType? r = .ok (some result) := hr.bufferType?_eq (Spine.mem_heads_at k b x z hd) hresult
  have hnew : g.bufferType? v = .ok (some result) := by
    have hview : ((Node.value op (.subView (combined w offsets)) (source :: vs) v (.buffer result)).rename
        (Function.swapped r v)).result = some (v, .buffer result) := rfl
    refine hg.bufferType?_eq (Spine.mem_heads_splice.2 (.inr ?_)) hview
    simp [Code.rename, Code.heads]
  have hσ : ∀ v' type', f.bufferType? v' = .ok (some type') →
      g.bufferType? (Function.swapped r v v') = .ok (some type') := by
    intro v' type' hv'
    by_cases he : v' = r
    · subst he
      rw [Function.swapped_self, hnew, ← hold, hv']
    · rw [Function.swapped_of_ne he]
      exact hsplice.grows.bufferType? hv'
  rw [hg.code_eq, Spine.mem_heads_splice] at hh'
  rcases hh' with ⟨h, hh, rfl⟩ | hh'
  · exact (hexact h (Spine.mem_heads_around hh hd x)).rename hσ
  · rw [Code.heads_rename, List.mem_map] at hh'
    obtain ⟨h, hh, rfl⟩ := hh'
    refine Node.Exact.rename (fun w₁ hw₁ => ?_) hσ
    rw [Code.heads_append, List.mem_append] at hh
    rcases hh with hh | hh
    · rcases hsums.kind_eq h hh with hkind | ⟨i, hkind⟩ <;> simp [hkind, OpKind.window?] at hw₁
    · obtain rfl := List.mem_singleton.1 hh
      obtain rfl : combined w offsets = w₁ := by simpa [Node.value, OpKind.window?] using hw₁
      exact ⟨_, Function.viewTypes?_eq_some.2 ⟨source, vs, v, rfl, hready.source, rfl⟩, hcombined⟩

end Rewriting

theorem performAt_types {f : Function} {op : OpId} (hwf : f.WellFormed)
    (hexact : ∀ h ∈ f.code.heads, h.Exact f) (hconsistent : ∀ h ∈ f.code.heads, h.Consistent)
    (hlive : f.isLive op = .ok true) (hcheck : (Rule.viewFolding.check f op).Answers ()) :
    Ends (fun fault => (∀ h ∈ f.code.heads, h.Supplied) → fault = .overflow)
      (Rule.viewFolding.performAt f op) fun g =>
        (∃ hd n k b x y z r v type, hd.op = op ∧ Retypes f g hd n k b x y z r v type) ∧
          ∀ h ∈ g.code.heads, h.Exact g := by
  obtain ⟨k, b, hd, x, z, rfl, hcode⟩ := hwf.exists_at hlive
  have hr : f.Represents (k.plug (b ++ .node hd x z)) := hcode ▸ hwf
  rw [hcode] at hexact hconsistent ⊢
  have hready : ∀ {inner w w' u source supplied supplied' type},
      Ready f (k.plug (b ++ .node hd x z)) hd inner w w' u source supplied supplied' type →
        Yields True (Rule.viewFolding.performAt f hd.op) fun g =>
          (∃ hd' n k b x y z r v type, hd'.op = hd.op ∧ Retypes f g hd' n k b x y z r v type) ∧
            ∀ h ∈ g.code.heads, h.Exact g := fun hready =>
    (yields_retypes hr hexact hcheck hconsistent hready).mono fun g _ ⟨⟨y, n, r, v, type, h⟩, hafter⟩ =>
      ⟨⟨hd, n, k, b, x, y, z, r, v, type, rfl, h⟩, hafter⟩
  cases hperform : Rule.viewFolding.performAt f hd.op with
  | ok g =>
    obtain ⟨inner, w, w', u, source, supplied, supplied', type, h⟩ := ready_of_ok hr hperform
    exact (hready h).of_ok hperform
  | error fault =>
    intro hsupplied
    obtain ⟨inner, w, w', u, source, supplied, supplied', type, h⟩ :=
      ready_of_check hr hexact hcheck hsupplied
    have hyields := hready h
    rw [hperform] at hyields
    exact hyields.1

def nestedTiles : Function where
  name := "nested"
  ops := #[⟨.subView ⟨[.static 2, .static 3], [8, 8], [1, 1]⟩, [⟨0⟩], some ⟨3⟩, none, [], [], none, true⟩,
    ⟨.subView ⟨[.static 1, .dynamic], [4, 4], [1, 1]⟩, [⟨3⟩, ⟨2⟩], some ⟨4⟩, none, [], [], none, true⟩,
    ⟨.subView ⟨[.static 0, .static 1], [2, 2], [1, 1]⟩, [⟨4⟩], some ⟨5⟩, none, [], [], none, true⟩,
    ⟨.copy, [⟨5⟩, ⟨1⟩], none, none, [], [], none, true⟩]
  values := #[⟨.buffer (.rowMajor [16, 16] .float32 .global), .argument 0⟩,
    ⟨.buffer (.rowMajor [2, 2] .float32 .global), .argument 1⟩, ⟨.index, .argument 2⟩,
    ⟨.buffer ⟨[8, 8], .float32, .strided (some 35) [16, 1], .global⟩, .result ⟨0⟩⟩,
    ⟨.buffer ⟨[4, 4], .float32, .strided none [16, 1], .global⟩, .result ⟨1⟩⟩,
    ⟨.buffer ⟨[2, 2], .float32, .strided none [16, 1], .global⟩, .result ⟨2⟩⟩]
  arity := 3
  body := [⟨0⟩, ⟨1⟩, ⟨2⟩, ⟨3⟩]

theorem performAt_types_nestedTiles : nestedTiles.WellFormed ∧
    (∀ h ∈ nestedTiles.code.heads, h.Exact nestedTiles) ∧
    (∀ h ∈ nestedTiles.code.heads, h.Consistent) ∧ nestedTiles.isLive ⟨1⟩ = .ok true ∧
      (Rule.viewFolding.check nestedTiles ⟨1⟩).Answers () ∧
        ∃ g, Rule.viewFolding.performAt nestedTiles ⟨1⟩ = .ok g ∧
          (∃ hd n k b x y z r v type, hd.op = ⟨1⟩ ∧ Retypes nestedTiles g hd n k b x y z r v type) ∧
            ∀ h ∈ g.code.heads, h.Exact g := by
  have hwf : nestedTiles.WellFormed := by decide +kernel
  have hexact : ∀ h ∈ nestedTiles.code.heads, h.Exact nestedTiles := by decide +kernel
  have hconsistent : ∀ h ∈ nestedTiles.code.heads, h.Consistent := by decide +kernel
  have hlive : nestedTiles.isLive ⟨1⟩ = .ok true := rfl
  have hcheck : (Rule.viewFolding.check nestedTiles ⟨1⟩).Answers () := rfl
  have hok : (Rule.viewFolding.performAt nestedTiles ⟨1⟩).toOption.isSome = true := by decide +kernel
  generalize nestedTiles = f at *
  have htypes := performAt_types hwf hexact hconsistent hlive hcheck
  cases hg : Rule.viewFolding.performAt f ⟨1⟩ with
  | error fault => simp [hg, Except.toOption] at hok
  | ok g => exact ⟨hwf, hexact, hconsistent, hlive, hcheck, g, rfl, htypes.of_ok hg⟩

end ViewFolding

end KernelLowering
