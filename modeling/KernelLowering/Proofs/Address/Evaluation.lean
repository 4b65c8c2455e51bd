import KernelLowering.Proofs.Address.Windows
import KernelLowering.Proofs.Simulation.Lookup

namespace KernelLowering

inductive Code.IndexAt (c : Code) (bindings : Bindings) : Nat → ValueId → Int → Prop
  | bound {d : Nat} {v : ValueId} {n : Int} (hbound : bindings.find? v = some n) :
      IndexAt c bindings (d + 1) v n
  | constant {d : Nat} {v : ValueId} {n : Int} {h : Node} (hbound : bindings.find? v = none)
      (hdef : c.definer? v = some h) (hkind : h.kind = .constant n) :
      IndexAt c bindings (d + 1) v n
  | sum {d : Nat} {v x y : ValueId} {rest : List ValueId} {m n : Int} {h : Node}
      (hbound : bindings.find? v = none) (hdef : c.definer? v = some h) (hkind : h.kind = .addIndex)
      (hops : h.operands = x :: y :: rest) (hx : IndexAt c bindings d x m)
      (hy : IndexAt c bindings d y n) (hfits : Checked.Fits (m + n)) :
      IndexAt c bindings (d + 1) v (m + n)

inductive Code.OffsetAt (c : Code) (bindings : Bindings) (limit : Nat) :
    SuppliedOffset ValueId → Int → Prop
  | static (n : Int) : OffsetAt c bindings limit (.static n) n
  | supplied {v : ValueId} {n : Int} (h : c.IndexAt bindings limit v n) :
      OffsetAt c bindings limit (.supplied v) n

inductive Function.ViewAt (f : Function) (c : Code) (bindings : Bindings) (limit : Nat) :
    Nat → ValueId → ValueId → IndexArray → Prop
  | root {d : Nat} {v : ValueId} {type : BufferType} {shape : List Nat}
      (htype : f.bufferType? v = .ok (some type))
      (hdef : ∀ h, c.definer? v = some h → h.kind.window? = none)
      (hshape : Address.rootShape type.shape = .ok shape) :
      ViewAt f c bindings limit (d + 1) v v (.rowMajor shape)
  | window {d : Nat} {v source root : ValueId} {type : BufferType} {h : Node} {w : Window}
      {supplied : List ValueId} {starts : List Int} {a a' : IndexArray}
      (htype : f.bufferType? v = .ok (some type)) (hdef : c.definer? v = some h)
      (hkind : h.kind = .subView w) (hops : h.operands = source :: supplied)
      (hsource : ViewAt f c bindings limit d source root a)
      (hstarts : List.Forall₂ (c.OffsetAt bindings limit) (Offset.supply w.offsets supplied) starts)
      (hshows : w.Shows starts a a') : ViewAt f c bindings limit (d + 1) v root a'

theorem Code.IndexAt.mono {c : Code} {bindings : Bindings} {d d' : Nat} {v : ValueId} {n : Int}
    (h : c.IndexAt bindings d v n) (hd : d ≤ d') : c.IndexAt bindings d' v n := by
  induction h generalizing d' with
  | bound hbound =>
    cases d' with
    | zero => cases hd
    | succ d' => exact .bound hbound
  | constant hbound hdef hkind =>
    cases d' with
    | zero => cases hd
    | succ d' => exact .constant hbound hdef hkind
  | sum hbound hdef hkind hops _ _ hfits ihx ihy =>
    cases d' with
    | zero => cases hd
    | succ d' =>
      have hd := Nat.le_of_succ_le_succ hd
      exact .sum hbound hdef hkind hops (ihx hd) (ihy hd) hfits

namespace Address

variable {f : Function} {c : Code} {bindings : Bindings} {d : Nat} {v : ValueId}

theorem evalIndexTo_iff (hr : f.Represents c) {n : Int} :
    Found (evalIndexTo f bindings d v) n ↔ c.IndexAt bindings d v n := by
  induction d generalizing v n with
  | zero =>
    constructor
    · intro h
      cases h
    · rintro ⟨⟩
  | succ d ih =>
    rw [evalIndexTo]
    cases hbound : bindings.find? v with
    | some m =>
      constructor
      · intro h
        obtain rfl := Found.pure_iff.1 h
        exact .bound hbound
      · rintro (⟨h⟩ | ⟨h⟩ | ⟨h⟩) <;> simp_all
    | none =>
      simp only [Found.bind_iff, Found.lift_iff]
      constructor
      · rintro ⟨o, ho, h⟩
        rcases hr.definition?_eq (Function.has_of_definition? ho) with ⟨-, hnone⟩ |
          ⟨hd, parent, region, hdef, -, hsome⟩
        · obtain rfl := Except.ok.inj (hnone.symm.trans ho)
          cases h
        obtain rfl := Except.ok.inj (hsome.symm.trans ho)
        simp only [Node.record] at h
        cases hkind : hd.kind <;> simp only [hkind] at h <;> try cases Found.throw_iff h
        · obtain rfl := Found.pure_iff.1 h
          exact .constant hbound hdef hkind
        · simp only [Found.bind_iff, Found.lift_iff, Operation.operand, Fault.require_eq_ok, ih,
            Checked.add_eq_ok] at h
          obtain ⟨x, hx, m, hm, y, hy, n, hn, hfits, rfl⟩ := h
          obtain ⟨rest, hops⟩ := exists_cons_cons_of_getElem? hx hy
          exact .sum hbound hdef hkind hops hm hn hfits
      · rintro (h | ⟨-, hdef, hkind⟩ | @⟨_, _, x, y, rest, l, m, hd, -, hdef, hkind, hops, hx, hy, hfits⟩)
        · cases h.symm.trans hbound
        · obtain ⟨parent, region, ho⟩ := hr.definition?_of_definer? hdef
          refine ⟨_, ho, ?_⟩
          simp [Node.record, hkind]
        · obtain ⟨parent, region, ho⟩ := hr.definition?_of_definer? hdef
          refine ⟨_, ho, ?_⟩
          simp only [Node.record, hkind, Operation.operand, hops, Found.bind_iff, Found.lift_iff,
            ih, Checked.add_eq_ok]
          exact ⟨x, rfl, l, hx, y, rfl, m, hy, hfits, rfl⟩

theorem evalOffset_iff (hr : f.Represents c) {o : SuppliedOffset ValueId} {n : Int} :
    Found (evalOffset f bindings v o) n ↔ c.OffsetAt bindings (depthOf f) o n := by
  cases o with
  | static m =>
    rw [evalOffset, Found.pure_iff]
    constructor
    · rintro rfl
      exact .static m
    · rintro ⟨⟩
      rfl
  | supplied u =>
    rw [evalOffset, evalIndex, evalIndexTo_iff hr]
    exact ⟨.supplied, fun h => by cases h; assumption⟩
  | missing =>
    constructor
    · intro h
      cases h
    · rintro ⟨⟩

def AllRanked (c : Code) : Prop := ∀ h ∈ c.heads, ∀ w, h.kind = .subView w → w.Ranked

theorem length_of_offsetsAt {w : Window} {supplied : List ValueId} {starts : List Int} {limit : Nat}
    (h : List.Forall₂ (c.OffsetAt bindings limit) (Offset.supply w.offsets supplied) starts) :
    starts.length = w.offsets.length := by
  rw [← h.length_eq, Offset.length_supply]

section Step

variable {type : BufferType} {o : Option Operation} {e : AddressedElements}

theorem exists_of_found (h : Found (addressedTo f bindings d v) e) :
    ∃ d' type o, d = d' + 1 ∧ f.bufferType? v = .ok (some type) ∧ f.definition? v = .ok o := by
  cases d with
  | zero => cases h
  | succ d =>
    simp only [addressedTo, Found.bind_iff, Found.lift_iff] at h
    obtain ⟨t, htype, h⟩ := h
    cases t with
    | none => cases h
    | some type =>
      simp only [Found.bind_iff, Found.lift_iff] at h
      obtain ⟨o, ho, -⟩ := h
      exact ⟨d, type, o, rfl, htype, ho⟩

theorem found_root_iff (htype : f.bufferType? v = .ok (some type)) (hdef : f.definition? v = .ok o)
    (hkind : o.bind (·.kind.window?) = none) : Found (addressedTo f bindings (d + 1) v) e ↔
      ∃ shape, rootShape type.shape = .ok shape ∧ ⟨v, .rowMajor shape⟩ = e := by
  have hwindow : (o.bind fun o => o.kind.window?.map fun w => (o, w)) = none := by
    cases o with
    | none => rfl
    | some o => rw [Option.bind_some, show o.kind.window? = none from hkind, Option.map_none]
  simp only [addressedTo, Found.bind_iff, Found.lift_iff, htype, Except.ok.injEq, exists_eq_left']
  simp only [Found.bind_iff, Found.lift_iff, hdef, Except.ok.injEq, exists_eq_left', hwindow,
    Found.pure_iff]

theorem found_window_iff {o : Operation} {w : Window} (htype : f.bufferType? v = .ok (some type))
    (hdef : f.definition? v = .ok (some o)) (hkind : o.kind = .subView w) :
    Found (addressedTo f bindings (d + 1) v) e ↔ ∃ source supplied, o.operands = source :: supplied ∧
      ∃ e', Found (addressedTo f bindings d source) e' ∧
        ∃ starts, List.Forall₂ (fun o start => Found (evalOffset f bindings v o) start)
            (Offset.supply w.offsets supplied) starts ∧
          Found (starts.zipIdx.forM fun (start, axis) =>
            checkAxis w e'.positions.shape v axis start) () ∧
          ∃ a, windowElements w starts e'.positions = .ok a ∧ ⟨e'.root, a⟩ = e := by
  simp only [addressedTo, Found.bind_iff, Found.lift_iff, htype, Except.ok.injEq, exists_eq_left']
  simp only [Found.bind_iff, Found.lift_iff, hdef, Except.ok.injEq, exists_eq_left', Option.bind_some,
    hkind, OpKind.window?, Option.map_some, Found.mapM_iff, Found.pure_iff, Operation.operand,
    Operation.offsetOperands, Unique.exists_iff]
  cases o.operands with
  | nil => simp
  | cons source supplied => simp

end Step

theorem viewAt_of_addressedTo (hr : f.Represents c) (hranked : AllRanked c) {root : ValueId}
    {a : IndexArray} (h : Found (addressedTo f bindings d v) ⟨root, a⟩) :
    f.ViewAt c bindings (depthOf f) d v root a := by
  induction d generalizing v root a with
  | zero => cases h
  | succ d ih =>
    obtain ⟨_, type, o, ⟨⟩, htype, ho⟩ := exists_of_found h
    rcases hr.definition?_eq (Function.has_of_definition? ho) with ⟨hdef, hnone⟩ |
      ⟨hd, parent, region, hdef, -, hsome⟩
    · obtain ⟨shape, hshape, ⟨⟩⟩ := (found_root_iff htype hnone rfl).1 h
      exact .root htype (by simp [hdef]) hshape
    cases hwindow : hd.kind.window? with
    | none =>
      obtain ⟨shape, hshape, ⟨⟩⟩ := (found_root_iff htype hsome hwindow).1 h
      exact .root htype (by simp [hdef, hwindow]) hshape
    | some w =>
      have hkind := OpKind.window?_eq_some.1 hwindow
      have hw := hranked hd (Code.of_definer? hdef).1 w hkind
      obtain ⟨source, supplied, hops, e', he', starts, hstarts, hchecks, elements, helements, ⟨⟩⟩ :=
        (found_window_iff htype hsome hkind).1 h
      have hstarts := hstarts.imp fun _ _ => (evalOffset_iff hr).1
      exact .window htype hdef hkind hops (ih he') hstarts
        ((Window.shows_iff hw (length_of_offsetsAt hstarts)).1 ⟨hchecks, helements⟩)

theorem addressedTo_of_viewAt (hr : f.Represents c) (hranked : AllRanked c) {root : ValueId}
    {a : IndexArray} (h : f.ViewAt c bindings (depthOf f) d v root a) :
    Found (addressedTo f bindings d v) ⟨root, a⟩ := by
  induction h with
  | @root d v type shape htype hdef hshape =>
    rcases hr.definition?_eq (Function.has_of_bufferType? htype) with ⟨-, ho⟩ |
      ⟨hd, parent, region, hdef', -, ho⟩
    · exact (found_root_iff htype ho rfl).2 ⟨shape, hshape, rfl⟩
    · exact (found_root_iff htype ho (hdef hd hdef')).2 ⟨shape, hshape, rfl⟩
  | @window d v source root type h w supplied starts a a' htype hdef hkind hops _ hstarts hshows ih =>
    obtain ⟨parent, region, ho⟩ := hr.definition?_of_definer? hdef
    have hw := hranked h (Code.of_definer? hdef).1 w hkind
    obtain ⟨hchecks, helements⟩ :=
      (Window.shows_iff (v := v) hw (length_of_offsetsAt hstarts)).2 hshows
    exact (found_window_iff htype ho hkind).2 ⟨source, supplied, hops, _, ih, starts,
      hstarts.imp fun _ _ => (evalOffset_iff hr).2, hchecks, a', helements, rfl⟩

theorem found_addressed (hr : f.Represents c) (hranked : AllRanked c) {a : AddressedElements} :
    Found (addressed f v bindings) a ↔
      f.ViewAt c bindings (depthOf f) (depthOf f) v a.root a.positions :=
  ⟨viewAt_of_addressedTo hr hranked, addressedTo_of_viewAt hr hranked⟩

end Address

end KernelLowering
