import KernelLowering.Buffer.Type

namespace KernelLowering

inductive KernelKind where
  | matmul
  | conv2d
  deriving DecidableEq, Repr

inductive IteratorKind where
  | parallel
  | reduction
  deriving DecidableEq, Repr

abbrev OperandMap := List (List Nat)

def windowExtent (extents : List Int) : Except Fault Int := do
  Checked.sub (← Checked.sum extents) (extents.length - 1)

namespace KernelKind

def text : KernelKind → String
  | matmul => "matmul"
  | conv2d => "conv2d"

def procedureName : KernelKind → String
  | matmul => "call_mmult"
  | conv2d => "call_conv_2d_nchw"

def iterators : KernelKind → List IteratorKind
  | matmul => [.parallel, .parallel, .reduction]
  | conv2d =>
      [.parallel, .parallel, .parallel, .parallel, .reduction, .reduction, .reduction]

def loopRank (kind : KernelKind) : Nat := kind.iterators.length

def operandMaps : KernelKind → List OperandMap
  | matmul => [[[0], [2]], [[2], [1]], [[0], [1]]]
  | conv2d =>
      [[[0], [6], [2, 4], [3, 5]], [[1], [6], [4], [5]], [[0], [1], [2], [3]]]

def outputOperand (_ : KernelKind) : Nat := 2

def matmulExtents : List Shape → Option (List Int)
  | [[m, k], [k', n], [m', n']] =>
      if k' = k ∧ m' = m ∧ n' = n then some [m, n, k] else none
  | _ => none

def conv2dExtents : List Shape → Except Fault (Option (List Int))
  | [[batch, channels, height, width], [filters, channels', kh, kw], [n, f, oh, ow]] => do
      if batch ≠ n ∨ filters ≠ f ∨ channels' ≠ channels then
        return none
      if height < (← windowExtent [oh, kh]) then
        return none
      if width < (← windowExtent [ow, kw]) then
        return none
      return some [n, f, oh, ow, kh, kw, channels]
  | _ => .ok none

def extentsOf (kind : KernelKind) (shapes : List Shape) : Except Fault (Option (List Int)) := do
  let extents ← match kind with
    | matmul => pure (matmulExtents shapes)
    | conv2d => conv2dExtents shapes
  return extents.filter fun es => es.all (0 < ·)

def iterationExtents (kind : KernelKind) (operands : List BufferType) :
    Except Fault (Option (List Int)) :=
  kind.extentsOf (operands.map (·.shape))

theorem pos_of_extentsOf {kind : KernelKind} {shapes : List Shape} {extents : List Int}
    (h : kind.extentsOf shapes = .ok (some extents)) : ∀ extent ∈ extents, 0 < extent := by
  have hpos : extents.all (0 < ·) := by
    cases kind with
    | matmul => exact (Option.filter_eq_some_iff.1 (Except.ok.inj h)).2
    | conv2d =>
      obtain ⟨found, -, hfound⟩ := Fault.bind_eq_ok.1 h
      exact (Option.filter_eq_some_iff.1 (Except.ok.inj hfound)).2
  simpa using hpos

theorem length_operandMaps (kind : KernelKind) : kind.operandMaps.length = 3 := by
  cases kind <;> rfl

theorem lt_loopRank_of_mem_operandMaps {kind : KernelKind} {map : OperandMap} {terms : List Nat}
    {d : Nat} (hm : map ∈ kind.operandMaps) (ht : terms ∈ map) (hd : d ∈ terms) :
    d < kind.loopRank := by
  cases kind <;> simp_all [operandMaps, loopRank, iterators] <;> grind

end KernelKind

end KernelLowering
