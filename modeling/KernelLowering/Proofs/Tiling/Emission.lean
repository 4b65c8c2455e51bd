import KernelLowering.Proofs.Arena.Cursor
import KernelLowering.Proofs.Layout.Windows
import KernelLowering.Proofs.Kernel.Shapes
import KernelLowering.Proofs.Tiling.Partition
import KernelLowering.Rule.Tiling

namespace KernelLowering.Tiling

inductive SumOf : ValueId → List ValueId → Code → ValueId → Prop
  | done (v : ValueId) : SumOf v [] .nil v
  | more {first next v last : ValueId} {rest : List ValueId} {y : Code} (op : OpId)
      (hrest : SumOf v rest y last) :
      SumOf first (next :: rest) (.node (.value op .addIndex [first, next] v .index) .nil y) last

def varsAlong (vars : LoopVars) (terms : List Nat) : List ValueId :=
  terms.filterMap fun d => vars[d]?.join

inductive OffsetOf (vars : LoopVars) (terms : List Nat) : Offset → List ValueId → Code → Prop
  | static (hv : varsAlong vars terms = []) : OffsetOf vars terms (.static 0) [] .nil
  | dynamic {first v : ValueId} {rest : List ValueId} {y : Code}
      (hv : varsAlong vars terms = first :: rest) (hsum : SumOf first rest y v) :
      OffsetOf vars terms .dynamic [v] y

inductive OffsetsOf (vars : LoopVars) : OperandMap → List Offset → List ValueId → Code → Prop
  | nil : OffsetsOf vars [] [] [] .nil
  | cons {terms : List Nat} {map : OperandMap} {offset : Offset} {offsets : List Offset}
      {vs supplied : List ValueId} {y y' : Code} (hfirst : OffsetOf vars terms offset vs y)
      (hrest : OffsetsOf vars map offsets supplied y') :
      OffsetsOf vars (terms :: map) (offset :: offsets) (vs ++ supplied) (y ++ y')

def windowOf (nest : Nest) (map : OperandMap) (offsets : List Offset) : Window where
  offsets := offsets
  sizes := map.map (span nest.sizes)
  strides := map.map fun _ => 1

inductive OperandOf (nest : Nest) (vars : LoopVars) (operand : ValueId) (type : BufferType)
    (map : OperandMap) : Code → ValueId → Prop
  | whole (hvars : ∀ terms ∈ map, varsAlong vars terms = [])
      (hsizes : map.map (span nest.sizes) = type.shape) :
      OperandOf nest vars operand type map .nil operand
  | window {offsets : List Offset} {supplied : List ValueId} {y : Code} {v : ValueId}
      {result : BufferType} (op : OpId) (hoffsets : OffsetsOf vars map offsets supplied y)
      (hcut : supplied ≠ [] ∨ map.map (span nest.sizes) ≠ type.shape)
      (hresult : (windowOf nest map offsets).resultType type = .ok result) :
      OperandOf nest vars operand type map
        (y ++ .node (.value op (.subView (windowOf nest map offsets)) (operand :: supplied) v
          (.buffer result)) .nil .nil) v

inductive OperandsOf (nest : Nest) (vars : LoopVars) :
    List (ValueId × BufferType × OperandMap) → Code → List ValueId → Prop
  | nil : OperandsOf nest vars [] .nil []
  | cons {operand v : ValueId} {type : BufferType} {map : OperandMap}
      {rest : List (ValueId × BufferType × OperandMap)} {y y' : Code} {vs : List ValueId}
      (hfirst : OperandOf nest vars operand type map y v) (hrest : OperandsOf nest vars rest y' vs) :
      OperandsOf nest vars ((operand, type, map) :: rest) (y ++ y') (v :: vs)

inductive LoopsOf (nest : Nest) : List (List Nat) → LoopVars → List Node → LoopVars → Prop
  | nil (vars : LoopVars) : LoopsOf nest [] vars [] vars
  | cons {dims : List Nat} {groups : List (List Nat)} {vars vars' : LoopVars} {loops : List Node}
      {kind : OpKind} {vs : List ValueId} (op : OpId) (hloop : kind.isLoop = true)
      (hranges : kind.loopRanges.map some = dims.map fun d => nest.ranges[d]?)
      (hvars : vs.length = dims.length)
      (hrest : LoopsOf nest groups (assign vars dims vs) loops vars') :
      LoopsOf nest (dims :: groups) vars (.loop op kind vs :: loops) vars'

def groups (t : Tiling) (plan : TilePlan) : List (List Nat) :=
  match t.options.style with
  | .sequential => plan.order.map fun d => [d]
  | .parallel =>
    let (parallel, reduction) := plan.order.partition t.isParallel
    (if parallel.isEmpty then [] else [parallel]) ++ reduction.map fun d => [d]

def loopKinds (t : Tiling) (plan : TilePlan) (nest : Nest) : List OpKind :=
  let sequential (dims : List Nat) := dims.filterMap fun d => (nest.ranges[d]?).map .forLoop
  match t.options.style with
  | .sequential => sequential plan.order
  | .parallel =>
    let (parallel, reduction) := plan.order.partition t.isParallel
    (if parallel.isEmpty then [] else [.parallelLoop (parallel.filterMap fun d => nest.ranges[d]?)]) ++
      sequential reduction

inductive NestOf (t : Tiling) (plan : TilePlan) (operands : List ValueId) (nest : Nest) : Code → Prop
  | intro {loops : List Node} {vars : LoopVars} {y : Code} {tiled : List ValueId} (op : OpId)
      (hloops : LoopsOf nest (t.groups plan) (plan.extents.map fun _ => none) loops vars)
      (htiled : OperandsOf nest vars (operands.zip (plan.operandTypes.zip t.kind.operandMaps)) y
        tiled)
      (hkinds : loops.map (·.kind) = t.loopKinds plan nest) :
      NestOf t plan operands nest (.within loops
        (y ++ .node (.effect op (.kernel t.kind) tiled (some t.guard.next)) .nil .nil))

inductive NestsOf (t : Tiling) (plan : TilePlan) (operands : List ValueId) :
    List Nest → Code → Prop
  | nil : NestsOf t plan operands [] .nil
  | cons {nest : Nest} {nests : List Nest} {y y' : Code}
      (hfirst : NestOf t plan operands nest y) (hrest : NestsOf t plan operands nests y') :
      NestsOf t plan operands (nest :: nests) (y ++ y')

section Values

variable {nest : Nest} {vars : LoopVars} {y : Code}

theorem SumOf.eq_value {first last : ValueId} {rest : List ValueId} (h : SumOf first rest y last) :
    ∀ hd ∈ y.heads, ∃ op terms v, hd = .value op .addIndex terms v .index := by
  induction h with
  | done v => simp [Code.heads]
  | more op _ ih => exact List.forall_mem_cons.2 ⟨⟨op, _, _, rfl⟩, ih⟩

theorem OffsetsOf.eq_value {map : OperandMap} {offsets : List Offset} {supplied : List ValueId}
    (h : OffsetsOf vars map offsets supplied y) :
    ∀ hd ∈ y.heads, ∃ op terms v, hd = .value op .addIndex terms v .index := by
  induction h with
  | nil => simp [Code.heads]
  | cons hfirst _ ih =>
    rw [Code.heads_append, List.forall_mem_append]
    cases hfirst with
    | static => exact ⟨by simp [Code.heads], ih⟩
    | dynamic hv hsum => exact ⟨hsum.eq_value, ih⟩

theorem OperandsOf.eq_value {all : List (ValueId × BufferType × OperandMap)} {vs : List ValueId}
    (h : OperandsOf nest vars all y vs) : ∀ hd ∈ y.heads,
      (∃ op terms v, hd = .value op .addIndex terms v .index) ∨
        ∃ op w terms v t, hd = .value op (.subView w) terms v t := by
  induction h with
  | nil => simp [Code.heads]
  | cons hfirst _ ih =>
    rw [Code.heads_append, List.forall_mem_append]
    cases hfirst with
    | whole => exact ⟨by simp [Code.heads], ih⟩
    | window op hoffsets hcut hresult =>
      rw [Code.heads_append, List.forall_mem_append]
      exact ⟨⟨fun hd hh => .inl (hoffsets.eq_value hd hh),
        List.forall_mem_singleton.2 (.inr ⟨op, _, _, _, _, rfl⟩)⟩, ih⟩

end Values

namespace OffsetsOf

variable {vars : LoopVars} {map : OperandMap} {offsets : List Offset} {supplied : List ValueId}
  {y : Code}

theorem count_dynamic (h : OffsetsOf vars map offsets supplied y) :
    offsets.count .dynamic = supplied.length := by
  induction h with
  | nil => rfl
  | cons hfirst _ ih =>
    cases hfirst with
    | static => simp [ih]
    | dynamic => simp [ih]

theorem zero_or_dynamic (h : OffsetsOf vars map offsets supplied y) :
    ∀ offset ∈ offsets, offset = .static 0 ∨ offset = .dynamic := by
  induction h with
  | nil => simp
  | cons hfirst _ ih =>
    rw [List.forall_mem_cons]
    cases hfirst with
    | static => exact ⟨.inl rfl, ih⟩
    | dynamic => exact ⟨.inr rfl, ih⟩

theorem static_of_nil (h : OffsetsOf vars map offsets supplied y) (hs : supplied = []) :
    y = .nil ∧ ∀ terms ∈ map, varsAlong vars terms = [] := by
  induction h with
  | nil => simp
  | cons hfirst _ ih =>
    obtain ⟨rfl, rfl⟩ := List.append_eq_nil_iff.1 hs
    cases hfirst with
    | static hv =>
      obtain ⟨rfl, hrest⟩ := ih rfl
      exact ⟨rfl, List.forall_mem_cons.2 ⟨hv, hrest⟩⟩

end OffsetsOf

section Windows

variable {s : Builder} {k : Spine} {b z : Code} {p : Prop} {nest : Nest} {vars : LoopVars}

theorem yields_buildSum {first : ValueId} {rest : List ValueId} (h : Cursor s k b z) :
    Yields p ((buildSum first rest).run s) fun r =>
      ∃ y, Writes s r.2 k b y z ∧ SumOf first rest y r.1 := by
  induction rest generalizing s first b with
  | nil => exact ⟨.nil, .nil h, .done first⟩
  | cons next rest ih =>
    simp only [buildSum, List.foldlM_cons, StateT.run_bind, Yields.bind_iff]
    refine (h.yields_value .addIndex [first, next] .index rfl).mono ?_
    rintro ⟨v, s'⟩ - ⟨op, hw⟩
    refine (ih hw.cursor).mono ?_
    rintro ⟨last, s''⟩ - ⟨y, hw', hsum⟩
    exact ⟨_, hw.trans hw', .more op hsum⟩

theorem yields_buildOffset {terms : List Nat} (h : Cursor s k b z) :
    Yields p ((buildOffset vars terms).run s) fun r =>
      ∃ y, Writes s r.2 k b y z ∧ OffsetOf vars terms r.1.1 r.1.2 y := by
  unfold buildOffset
  split
  · rename_i hv
    exact ⟨.nil, .nil h, .static hv⟩
  · rename_i first rest hv
    simp only [StateT.run_bind, Yields.bind_iff]
    refine (yields_buildSum h).mono ?_
    rintro ⟨v, s'⟩ - ⟨y, hw, hsum⟩
    exact ⟨y, hw, .dynamic hv hsum⟩

theorem mapM_sizes {terms : List Nat} (h : ∀ d ∈ terms, d < nest.sizes.length) :
    (terms.mapM fun d => Fault.indexOutOfBounds.require nest.sizes[d]?) =
      .ok (terms.map fun d => nest.sizes[d]?.getD 0) := by
  induction terms with
  | nil => rfl
  | cons d terms ih =>
    rw [List.forall_mem_cons] at h
    rw [List.mapM_cons, ih h.2, List.map_cons, List.getElem?_eq_getElem h.1]
    rfl

theorem yields_windowSize {terms : List Nat} (h : ∀ d ∈ terms, d < nest.sizes.length)
    (hpos : ∀ size ∈ nest.sizes, 0 < size) :
    Yields (Checked.maxValue < (terms.map fun d => nest.sizes[d]?.getD 0).sum)
      (windowSize nest terms) (· = span nest.sizes terms) := by
  rw [windowSize, mapM_sizes h]
  refine (yields_windowExtent ?_).mono fun size _ hsize => by
    rw [hsize, List.length_map, span]
  intro x hx
  obtain ⟨d, hd, rfl⟩ := List.mem_map.1 hx
  rw [List.getElem?_eq_getElem (h d hd)]
  exact hpos _ (List.getElem_mem _)

variable {map : OperandMap}

def SizesFit (p : Prop) (nest : Nest) (map : OperandMap) : Prop :=
  ∀ terms ∈ map, Yields p (windowSize nest terms) (· = span nest.sizes terms)

theorem yields_offsets (h : Cursor s k b z) (hsizes : SizesFit p nest map) :
    Yields p ((map.mapM fun terms => do
      let (offset, supplied) ← buildOffset vars terms
      return (offset, supplied, ← windowSize nest terms) :
        Build (List (Offset × List ValueId × Int))).run s) fun r =>
      ∃ y, Writes s r.2 k b y z ∧ r.1.map (·.2.2) = map.map (span nest.sizes) ∧
        OffsetsOf vars map (r.1.map (·.1)) (r.1.flatMap (·.2.1)) y := by
  induction map generalizing s b with
  | nil => exact ⟨.nil, .nil h, rfl, .nil⟩
  | cons terms map ih =>
    obtain ⟨hsize, hsizes⟩ := List.forall_mem_cons.1 hsizes
    simp only [List.mapM_cons, StateT.run_bind, Yields.bind_iff]
    refine (yields_buildOffset h).mono ?_
    rintro ⟨⟨offset, supplied⟩, s'⟩ - ⟨y, hw, hoffset⟩
    simp only [StateT.run_monadLift, Yields.bind_iff, StateT.run_pure, Yields.pure_iff]
    refine hsize.mono fun size _ hsize => ?_
    refine (ih hw.cursor hsizes).mono ?_
    rintro ⟨dims, s''⟩ - ⟨y', hw', hspan, hoffsets⟩
    exact ⟨y ++ y', hw.trans hw', by simp [hspan, hsize], .cons hoffset hoffsets⟩

variable {operand : ValueId} {type : BufferType}

theorem yields_buildOperand (h : Cursor s k b z) (hsizes : SizesFit p nest map)
    (htype : s.function.bufferType? operand = .ok (some type)) (hp : ¬ type.Addressable → p) :
    Yields p ((buildOperand nest vars operand type map).run s) fun r =>
      ∃ y, Writes s r.2 k b y z ∧ OperandOf nest vars operand type map y r.1 := by
  simp only [buildOperand, StateT.run_bind, Yields.bind_iff]
  refine (yields_offsets h hsizes).mono ?_
  rintro ⟨dims, s'⟩ - ⟨y, hw, hspan, hoffsets⟩
  dsimp only at hspan hoffsets ⊢
  split
  · rename_i hwhole
    obtain ⟨rfl, hvars⟩ := hoffsets.static_of_nil (List.isEmpty_iff.1 hwhole.1)
    exact ⟨.nil, hw, .whole hvars (hspan ▸ hwhole.2)⟩
  · rename_i hcut
    have hwindow : Window.mk (dims.map (·.1)) (dims.map (·.2.2)) ((dims.map (·.2.2)).map fun _ => 1) =
        windowOf nest map (dims.map (·.1)) := by
      rw [hspan, List.map_map]
      rfl
    rw [hwindow]
    have hresult : Yields p ((windowOf nest map (dims.map (·.1))).resultType type) fun _ => True :=
      (Window.yields_resultType_of_zero hoffsets.zero_or_dynamic (by simp [windowOf])).weaken hp
    have hcount : (windowOf nest map (dims.map (·.1))).dynamicCount =
        (dims.flatMap (·.2.1)).length := hoffsets.count_dynamic
    refine (hw.cursor.yields_subView hcount (hw.grows.bufferType? htype) hresult).mono ?_
    rintro ⟨v, s''⟩ - ⟨op, result, hr, hw'⟩
    refine ⟨_, hw.trans hw', .window op hoffsets ?_ hr⟩
    rw [hspan, List.isEmpty_iff] at hcut
    tauto

theorem yields_operands {all : List (ValueId × BufferType × OperandMap)} (h : Cursor s k b z)
    (hall : ∀ x ∈ all, SizesFit p nest x.2.2 ∧
      s.function.bufferType? x.1 = .ok (some x.2.1) ∧ (¬ x.2.1.Addressable → p)) :
    Yields p ((all.mapM fun (operand, type, map) =>
      buildOperand nest vars operand type map).run s) fun r =>
      ∃ y, Writes s r.2 k b y z ∧ OperandsOf nest vars all y r.1 := by
  induction all generalizing s b with
  | nil => exact ⟨.nil, .nil h, .nil⟩
  | cons x all ih =>
    obtain ⟨operand, type, map⟩ := x
    obtain ⟨⟨hsizes, htype, hp⟩, hall⟩ := List.forall_mem_cons.1 hall
    simp only [List.mapM_cons, StateT.run_bind, Yields.bind_iff]
    refine (yields_buildOperand h hsizes htype hp).mono ?_
    rintro ⟨v, s'⟩ - ⟨y, hw, hoperand⟩
    refine (ih hw.cursor fun x hx => ?_).mono ?_
    · obtain ⟨hsizes, htype, hp⟩ := hall x hx
      exact ⟨hsizes, hw.grows.bufferType? htype, hp⟩
    · rintro ⟨vs, s''⟩ - ⟨y', hw', hoperands⟩
      exact ⟨y ++ y', hw.trans hw', .cons hoperand hoperands⟩

end Windows

section Loops

variable {s : Builder} {k : Spine} {b z : Code} {p : Prop} {nest : Nest} {vars : LoopVars}
  {α : Type}

theorem yields_loop_around (kind : OpKind) (body : OpId × List ValueId → Build α)
    {q : OpId → List ValueId → Code → Prop} (h : Cursor s k b z)
    (hbody : ∀ s' k' op vs, vs.length = kind.loopRanges.length → Cursor s' k' .nil .nil →
      s.function.Grows s'.function → Yields p ((body (op, vs)).run s') fun r =>
        ∃ y, Writes s' { r.2 with point := s'.point } k' .nil y .nil ∧ q op vs y) :
    Yields p ((do
      let x ← Build.loop kind
      Build.setPoint (.atEnd (some x.1))
      body x).run s) fun r => ∃ op vs y, vs.length = kind.loopRanges.length ∧ q op vs y ∧
        Writes s { r.2 with point := s.point } k b (.node (.loop op kind vs) y .nil) z := by
  simp only [StateT.run_bind, Yields.bind_iff]
  refine (h.yields_loop kind).mono ?_
  rintro ⟨⟨op, vs⟩, s'⟩ - ⟨hlen, hw⟩
  rw [Build.yields_setPoint]
  refine (hbody _ _ op vs hlen hw.cursor.enter hw.grows).mono ?_
  rintro ⟨a, s''⟩ - ⟨y, hw', hq⟩
  have hleave := hw.leave hw' rfl
  exact ⟨op, vs, y, hlen, hq, hleave⟩

theorem rangeOf_eq {d : Nat} (hd : d < nest.ranges.length) :
    rangeOf nest d = .ok nest.ranges[d] := by
  rw [rangeOf, List.getElem?_eq_getElem hd, Fault.require_some]

def BodyOf (p : Prop) (s : Builder) (body : LoopVars → Build α) (vars : LoopVars)
    (q : Code → Prop) : Prop :=
  ∀ s' k' b' z', Cursor s' k' b' z' → s.function.Grows s'.function →
    Yields p ((body vars).run s') fun r =>
      ∃ y, Writes s' { r.2 with point := s'.point } k' b' y z' ∧ q y

theorem BodyOf.grows {s' : Builder} {body : LoopVars → Build α} {q : Code → Prop}
    (h : BodyOf p s body vars q) (hs : s.function.Grows s'.function) : BodyOf p s' body vars q :=
  fun s'' k' b' z' hc hg => h s'' k' b' z' hc (hs.trans hg)

theorem yields_buildSequential {dims : List Nat} {body : LoopVars → Build α}
    {q : LoopVars → Code → Prop} (h : Cursor s k b z) (hdims : ∀ d ∈ dims, d < nest.ranges.length)
    (hbody : ∀ vars', BodyOf p s body vars' (q vars')) :
    Yields p ((buildSequential nest dims vars >>= body).run s) fun r => ∃ loops vars' y,
      LoopsOf nest (dims.map fun d => [d]) vars loops vars' ∧
        loops.map (·.kind) = (dims.filterMap fun d => (nest.ranges[d]?).map .forLoop) ∧ q vars' y ∧
          Writes s { r.2 with point := s.point } k b (.within loops y) z := by
  induction dims generalizing s k b z vars with
  | nil =>
    refine (hbody vars s k b z h (.refl _)).mono ?_
    rintro ⟨a, s'⟩ - ⟨y, hw, hq⟩
    exact ⟨[], vars, y, .nil vars, rfl, hq, hw⟩
  | cons d dims ih =>
    obtain ⟨hd, hdims⟩ := List.forall_mem_cons.1 hdims
    simp only [buildSequential, rangeOf_eq hd, bind_assoc]
    have hinner : ∀ s' k' (op : OpId) vs, vs.length = (OpKind.forLoop nest.ranges[d]).loopRanges.length →
        Cursor s' k' .nil .nil → s.function.Grows s'.function →
        Yields p ((buildSequential nest dims (assign vars [d] vs) >>= body).run s') fun r =>
          ∃ y, Writes s' { r.2 with point := s'.point } k' .nil y .nil ∧ ∃ loops vars' y',
            LoopsOf nest (dims.map fun d => [d]) (assign vars [d] vs) loops vars' ∧
              loops.map (·.kind) = (dims.filterMap fun d => (nest.ranges[d]?).map .forLoop) ∧
                q vars' y' ∧ y = .within loops y' := by
      intro s' k' op vs _ hc hg
      refine (ih hc hdims fun vars' => (hbody vars').grows hg).mono ?_
      rintro ⟨a, s''⟩ - ⟨loops, vars', y, hloops, hkinds, hq, hw⟩
      exact ⟨_, hw, loops, vars', y, hloops, hkinds, hq, rfl⟩
    refine (yields_loop_around (.forLoop nest.ranges[d])
      (fun x => buildSequential nest dims (assign vars [d] x.2) >>= body) h hinner).mono ?_
    rintro ⟨a, s'⟩ - ⟨op, vs, _, hlen, ⟨loops, vars', y, hloops, hkinds, hq, rfl⟩, hw⟩
    refine ⟨_, vars', y, .cons op rfl ?_ hlen hloops, ?_, hq, hw⟩
    · simp [OpKind.loopRanges, List.getElem?_eq_getElem hd]
    · simp [hkinds, Node.loop, List.getElem?_eq_getElem hd]

theorem run_mapM_rangeOf {dims : List Nat} (hdims : ∀ d ∈ dims, d < nest.ranges.length) :
    ∃ ranges, ranges.map some = dims.map (fun d => nest.ranges[d]?) ∧
      ranges = dims.filterMap (fun d => nest.ranges[d]?) ∧
      (dims.mapM fun d => rangeOf nest d : Build (List LoopRange)).run s = .ok (ranges, s) := by
  induction dims with
  | nil => exact ⟨[], rfl, rfl, rfl⟩
  | cons d dims ih =>
    obtain ⟨hd, hdims⟩ := List.forall_mem_cons.1 hdims
    obtain ⟨ranges, hranges, hfilter, hrun⟩ := ih hdims
    refine ⟨nest.ranges[d] :: ranges, ?_, ?_, ?_⟩
    · rw [List.map_cons, List.map_cons, hranges, List.getElem?_eq_getElem hd]
    · rw [List.filterMap_cons, List.getElem?_eq_getElem hd, hfilter]
    · simp only [List.mapM_cons, StateT.run_bind, rangeOf_eq hd]
      show (StateT.run (dims.mapM fun d => rangeOf nest d : Build _) s >>= _) = _
      rw [hrun]
      rfl

theorem yields_buildParallel {dims : List Nat} {body : LoopVars → Build α}
    {q : LoopVars → Code → Prop} (h : Cursor s k b z) (hdims : ∀ d ∈ dims, d < nest.ranges.length)
    (hbody : ∀ vars', BodyOf p s body vars' (q vars')) :
    Yields p ((buildParallel nest dims vars >>= body).run s) fun r => ∃ loops vars' y,
      LoopsOf nest (if dims.isEmpty then [] else [dims]) vars loops vars' ∧
        loops.map (·.kind) = (if dims.isEmpty then []
          else [.parallelLoop (dims.filterMap fun d => nest.ranges[d]?)]) ∧ q vars' y ∧
          Writes s { r.2 with point := s.point } k b (.within loops y) z := by
  by_cases hempty : dims.isEmpty
  · simp only [buildParallel, hempty, if_true, pure_bind]
    refine (hbody vars s k b z h (.refl _)).mono ?_
    rintro ⟨a, s'⟩ - ⟨y, hw, hq⟩
    exact ⟨[], vars, y, .nil vars, rfl, hq, hw⟩
  · obtain ⟨ranges, hranges, hfilter, hrun⟩ := run_mapM_rangeOf (s := s) hdims
    simp only [buildParallel, hempty, Bool.false_eq_true, if_false, bind_assoc]
    rw [StateT.run_bind, hrun]
    refine (yields_loop_around (.parallelLoop ranges)
      (fun x => body (assign vars dims x.2)) h
      (q := fun _ vs y => q (assign vars dims vs) y) ?_).mono ?_
    · exact fun s' k' op vs _ hc hg => hbody _ s' k' .nil .nil hc hg
    · rintro ⟨a, s'⟩ - ⟨op, vs, y, hlen, hq, hw⟩
      have hlen' : vs.length = dims.length := by
        simpa [OpKind.loopRanges, hlen] using congrArg List.length hranges
      have hloops : LoopsOf nest [dims] vars [.loop op (.parallelLoop ranges) vs]
        (assign vars dims vs) := .cons op rfl hranges hlen' (.nil _)
      exact ⟨_, _, y, hloops, by simp [hfilter, Node.loop], hq, hw⟩

theorem LoopsOf.append {gs gs' : List (List Nat)} {vars' vars'' : LoopVars} {loops loops' : List Node}
    (h : LoopsOf nest gs vars loops vars') (h' : LoopsOf nest gs' vars' loops' vars'') :
    LoopsOf nest (gs ++ gs') vars (loops ++ loops') vars'' := by
  induction h with
  | nil => exact h'
  | cons op hloop hranges hvars _ ih => exact .cons op hloop hranges hvars (ih h')

theorem within_append (loops loops' : List Node) (y : Code) :
    Code.within (loops ++ loops') y = Code.within loops (Code.within loops' y) :=
  List.foldr_append

variable {t : Tiling} {plan : TilePlan}

theorem yields_buildLoops {body : LoopVars → Build α} {q : LoopVars → Code → Prop}
    (h : Cursor s k b z) (hdims : ∀ d ∈ plan.order, d < nest.ranges.length)
    (hbody : ∀ vars', BodyOf p s body vars' (q vars')) :
    Yields p ((t.buildLoops plan nest >>= body).run s) fun r => ∃ loops vars' y,
      LoopsOf nest (t.groups plan) (plan.extents.map fun _ => none) loops vars' ∧
        loops.map (·.kind) = t.loopKinds plan nest ∧ q vars' y ∧
          Writes s { r.2 with point := s.point } k b (.within loops y) z := by
  unfold buildLoops groups loopKinds
  cases t.options.style with
  | sequential => exact yields_buildSequential h hdims hbody
  | parallel =>
    simp only [bind_assoc, List.partition_eq_filter_filter]
    have hinner : ∀ vars', BodyOf p s (fun vars => buildSequential nest
        (plan.order.filter (not ∘ t.isParallel)) vars >>= body) vars' fun y =>
        ∃ loops vars'' y', LoopsOf nest ((plan.order.filter (not ∘ t.isParallel)).map fun d => [d])
          vars' loops vars'' ∧ loops.map (·.kind) = ((plan.order.filter (not ∘ t.isParallel)).filterMap
            fun d => (nest.ranges[d]?).map .forLoop) ∧ q vars'' y' ∧ y = .within loops y' := by
      intro vars' s' k' b' z' hc hg
      refine (yields_buildSequential hc (fun d hd => hdims d (List.mem_of_mem_filter hd))
        fun vars'' => (hbody vars'').grows hg).mono ?_
      rintro ⟨a, s''⟩ - ⟨loops, vars'', y, hloops, hkinds, hq, hw⟩
      exact ⟨_, hw, loops, vars'', y, hloops, hkinds, hq, rfl⟩
    refine (yields_buildParallel h (fun d hd => hdims d (List.mem_of_mem_filter hd)) hinner).mono ?_
    rintro ⟨a, s'⟩ - ⟨loops, vars', _, hloops, hkinds, ⟨loops', vars'', y, hloops', hkinds', hq, rfl⟩, hw⟩
    exact ⟨_, vars'', y, hloops.append hloops', by rw [List.map_append, hkinds, hkinds'], hq,
      within_append loops loops' y ▸ hw⟩

end Loops

section Nests

variable {s : Builder} {k : Spine} {b z : Code} {p : Prop} {nest : Nest} {t : Tiling}
  {plan : TilePlan} {operands : List ValueId}

theorem sizesFit {split : List Nat} {map : OperandMap} (h : nest.Fits plan.extents split)
    (hlen : plan.extents.length = t.kind.loopRank) (hmap : map ∈ t.kind.operandMaps)
    (hp : ¬ t.kind.SumsFit plan.extents → p) : SizesFit p nest map := by
  intro terms hterms
  have hlt : ∀ d ∈ terms, d < nest.sizes.length := fun d hd => by
    rw [h.sizes, hlen]
    exact KernelKind.lt_loopRank_of_mem_operandMaps hmap hterms hd
  obtain ⟨hpos, hle⟩ := (List.forall₂_and_left _ _).1 h.sizes_le
  refine (yields_windowSize hlt hpos).weaken fun hover => hp fun hfit => ?_
  have := hfit.mono hle map hmap terms hterms
  omega

structure Operands (p : Prop) (f : Function) (t : Tiling) (plan : TilePlan)
    (operands : List ValueId) : Prop where
  types : List.Forall₂ (fun v type => f.bufferType? v = .ok (some type)) operands plan.operandTypes
  rank : plan.extents.length = t.kind.loopRank
  sums : ¬ t.kind.SumsFit plan.extents → p
  addressable : ∀ type ∈ plan.operandTypes, ¬ type.Addressable → p

theorem Operands.grows {f g : Function} (h : Operands p f t plan operands) (hg : f.Grows g) :
    Operands p g t plan operands :=
  ⟨h.types.imp fun _ _ hv => hg.bufferType? hv, h.rank, h.sums, h.addressable⟩

theorem Operands.of_mem_zip {f : Function} (h : Operands p f t plan operands)
    {x : ValueId × BufferType × OperandMap}
    (hx : x ∈ operands.zip (plan.operandTypes.zip t.kind.operandMaps)) :
    f.bufferType? x.1 = .ok (some x.2.1) ∧ x.2.1 ∈ plan.operandTypes ∧
      x.2.2 ∈ t.kind.operandMaps := by
  obtain ⟨htypes, -, -, -⟩ := h
  generalize plan.operandTypes = types at htypes hx ⊢
  generalize t.kind.operandMaps = maps at hx ⊢
  induction htypes generalizing maps with
  | nil => simp at hx
  | cons hv _ ih =>
    cases maps with
    | nil => simp at hx
    | cons map maps =>
      rw [List.zip_cons_cons, List.zip_cons_cons, List.mem_cons] at hx
      rcases hx with rfl | hx
      · exact ⟨hv, List.mem_cons_self, List.mem_cons_self⟩
      · obtain ⟨hb, ht, hm⟩ := ih maps hx
        exact ⟨hb, List.mem_cons_of_mem _ ht, List.mem_cons_of_mem _ hm⟩

theorem yields_buildNest {split : List Nat} (h : Cursor s k b z)
    (hops : Operands p s.function t plan operands) (hfits : nest.Fits plan.extents split)
    (horder : ∀ d ∈ plan.order, d < plan.extents.length) :
    Yields p ((t.buildNest plan operands nest).run s) fun r => ∃ y,
      Writes s { r.2 with point := s.point } k b y z ∧ NestOf t plan operands nest y := by
  unfold buildNest
  refine (yields_buildLoops h (fun d hd => hfits.ranges ▸ horder d hd) (q := fun vars y =>
    ∃ op y' tiled, OperandsOf nest vars (operands.zip (plan.operandTypes.zip t.kind.operandMaps))
      y' tiled ∧ y = y' ++ .node (.effect op (.kernel t.kind) tiled (some t.guard.next)) .nil .nil)
    fun vars s' k' b' z' hc hg => ?_).mono ?_
  · simp only [StateT.run_bind, Yields.bind_iff]
    refine (yields_operands hc fun x hx => ?_).mono ?_
    · obtain ⟨htype, hmem, hmap⟩ := (hops.grows hg).of_mem_zip hx
      exact ⟨sizesFit hfits hops.rank hmap hops.sums, htype, hops.addressable _ hmem⟩
    · rintro ⟨tiled, s''⟩ - ⟨y, hw, htiled⟩
      refine Build.yields_discard.2
        ((hw.cursor.yields_effect (.kernel t.kind) tiled (some t.guard.next) rfl).mono ?_)
      rintro ⟨op, s₃⟩ - hw'
      exact ⟨_, (hw.trans hw').repoint, op, y, tiled, htiled, rfl⟩
  · rintro ⟨a, s'⟩ - ⟨loops, vars, _, hloops, hkinds, ⟨op, y, tiled, htiled, rfl⟩, hw⟩
    exact ⟨_, hw, .intro op hloops htiled hkinds⟩

theorem yields_nests {ns : List Nest} {split : List Nat} {anchor : InsertionPoint}
    (h : Cursor { s with point := anchor } k b z)
    (hops : Operands p s.function t plan operands) (hfits : ∀ nest ∈ ns, nest.Fits plan.extents split)
    (horder : ∀ d ∈ plan.order, d < plan.extents.length) :
    Yields p ((ns.forM fun nest => do
      Build.setPoint anchor
      t.buildNest plan operands nest).run s) fun r => ∃ y,
      Writes { s with point := anchor } { r.2 with point := anchor } k b y z ∧
        NestsOf t plan operands ns y := by
  induction ns generalizing s b with
  | nil => exact ⟨.nil, .nil h, .nil⟩
  | cons nest ns ih =>
    obtain ⟨hfit, hfits⟩ := List.forall_mem_cons.1 hfits
    rw [List.forM, StateT.run_bind, StateT.run_bind, Yields.bind_iff, Yields.bind_iff,
      Build.yields_setPoint]
    refine (yields_buildNest h hops hfit horder).mono ?_
    rintro ⟨a, s'⟩ - ⟨y, hw, hnest⟩
    refine (ih hw.cursor (hops.grows hw.grows) hfits).mono ?_
    rintro ⟨a', s''⟩ - ⟨y', hw', hnests⟩
    exact ⟨_, hw.trans hw', .cons hnest hnests⟩

theorem bufferTypes?_eq_some {f : Function} {vs : List ValueId} {types : List BufferType} :
    f.bufferTypes? vs = .ok (some types) ↔
      List.Forall₂ (fun v type => f.bufferType? v = .ok (some type)) vs types := by
  induction vs generalizing types with
  | nil => cases types <;> simp [Function.bufferTypes?]
  | cons v vs ih =>
    rw [Function.bufferTypes?, Fault.bind_eq_ok]
    constructor
    · rintro ⟨first, hv, h⟩
      cases first with
      | none => cases h
      | some type =>
        obtain ⟨rest, hrest, h⟩ := Fault.map_eq_ok.1 h
        obtain ⟨types, rfl, rfl⟩ := Option.map_eq_some_iff.1 h
        exact .cons hv (ih.1 hrest)
    · rintro (_ | ⟨hv, hrest⟩)
      exact ⟨_, hv, Fault.map_eq_ok.2 ⟨_, ih.2 hrest, rfl⟩⟩

variable {f : Function} {hd : Node} {x : Code}

theorem plan_answers (hop : ∃ parent region, f.op? hd.op = some (hd.record parent region)) :
    (t.plan f hd.op).Answers plan ↔
      List.Forall₂ (fun v type => f.bufferType? v = .ok (some type)) hd.operands
        plan.operandTypes ∧ (TilePlan.make t.kind t.options plan.operandTypes).Answers plan := by
  obtain ⟨parent, region, hop⟩ := hop
  simp only [Tiling.plan, Inspect.answers_bind, Inspect.answers_lift, Inspect.answers_orDecline,
    Function.op_eq_ok.2 hop, Except.ok.injEq, exists_eq_left']
  constructor
  · rintro ⟨_, htypes, types, rfl, hmake⟩
    obtain rfl := (TilePlan.make_answers.1 hmake).1
    exact ⟨bufferTypes?_eq_some.1 htypes, hmake⟩
  · rintro ⟨htypes, hmake⟩
    exact ⟨_, bufferTypes?_eq_some.2 htypes, _, rfl, hmake⟩

theorem operands_of_plan (htypes : List.Forall₂ (fun v type => f.bufferType? v = .ok (some type))
      operands plan.operandTypes)
    (hmake : (TilePlan.make t.kind t.options plan.operandTypes).Answers plan) :
    Operands (∃ type ∈ plan.operandTypes, ¬ type.Addressable) f t plan operands := by
  obtain ⟨-, hextents, -⟩ := TilePlan.make_answers.1 hmake
  obtain ⟨hshaped, hfit⟩ := KernelKind.extentsOf_eq_ok.1 hextents
  refine ⟨htypes, hshaped.length_extents, fun hsums => ?_, fun type ht ha => ⟨type, ht, ha⟩⟩
  by_contra hnone
  refine hsums (.of_shaped hshaped hfit fun shape hs extent he => ?_)
  obtain ⟨type, ht, rfl⟩ := List.mem_map.1 hs
  have ha : type.Addressable := by
    by_contra ha
    exact hnone ⟨type, ht, ha⟩
  exact (ha.shape extent he).2

theorem order_lt (hmake : (TilePlan.make t.kind t.options plan.operandTypes).Answers plan) :
    ∀ d ∈ plan.order, d < plan.extents.length := by
  intro d hd
  obtain ⟨extent, tile, he, -⟩ := (TilePlan.sound_of_make hmake).tiled hd
  exact (List.getElem?_eq_some_iff.1 he).1

theorem yields_perform (hrep : f.Represents (k.plug (b ++ .node hd x z)))
    (hplan : (t.plan f hd.op).Answers plan) :
    Yields (∃ type ∈ plan.operandTypes, ¬ type.Addressable)
      ((t.perform hd.op).runOn f (.before hd.op)) fun r => ∃ ns y,
        plan.nests = .ok ns ∧ NestsOf t plan hd.operands ns y ∧ Splice f r.2 k b y z := by
  have hop : f.op? hd.op = some (hd.record k.parent x.roots) :=
    (Function.places_append.1 hrep.holds.2).2.1
  obtain ⟨htypes, hmake⟩ := (plan_answers ⟨_, _, hop⟩).1 hplan
  obtain ⟨ns, hns, hcovers⟩ := (TilePlan.sound_of_make hmake).exists_nests
  have hcursor : Cursor ⟨f, .before hd.op⟩ k b (.node hd x z) := ⟨hrep, rfl⟩
  have hnests := yields_nests (s := ⟨f, .before hd.op⟩) hcursor
    (operands_of_plan htypes hmake) hcovers.fits (order_lt hmake)
  simp only [perform, Build.yields_runOn, Build.yields_bind, Build.yields_function,
    Build.yields_point, Build.yields_lift, Inspect.relyOn_eq_ok.2 hplan, Function.op_eq_ok.2 hop,
    hns, Yields.ok_iff]
  refine hnests.mono ?_
  rintro ⟨a, s'⟩ - ⟨y, hw, hnests⟩
  have herase := hw.yields_erase (p := ∃ type ∈ plan.operandTypes, ¬ type.Addressable)
  rw [Build.erase, Build.yields_edit] at herase ⊢
  exact herase.mono fun g _ hsplice => ⟨ns, y, rfl, hnests, hsplice⟩

end Nests

end KernelLowering.Tiling
