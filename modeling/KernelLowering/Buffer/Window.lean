import KernelLowering.Buffer.Type

namespace KernelLowering

inductive Offset where
  | static (value : Int)
  | dynamic
  deriving DecidableEq, Repr

inductive SuppliedOffset (α : Type) where
  | static (value : Int)
  | supplied (source : α)
  | missing
  deriving DecidableEq, Repr

def Offset.supply {α : Type} : List Offset → List α → List (SuppliedOffset α)
  | [], _ => []
  | .static value :: offsets, sources => .static value :: supply offsets sources
  | .dynamic :: offsets, source :: sources => .supplied source :: supply offsets sources
  | .dynamic :: offsets, [] => .missing :: supply offsets []

@[simp] theorem Offset.length_supply {α : Type} (offsets : List Offset) (sources : List α) :
    (Offset.supply offsets sources).length = offsets.length := by
  fun_induction Offset.supply offsets sources <;> simp_all

theorem Offset.missing_not_mem_supply {α : Type} {offsets : List Offset} {sources : List α} :
    SuppliedOffset.missing ∉ Offset.supply offsets sources ↔
      offsets.count .dynamic ≤ sources.length := by
  fun_induction Offset.supply offsets sources <;> simp_all

namespace SuppliedOffset

variable {α : Type}

def offset : SuppliedOffset α → Offset
  | static value => .static value
  | supplied _ | missing => .dynamic

theorem map_offset_supply (offsets : List Offset) (sources : List α) :
    (Offset.supply offsets sources).map offset = offsets := by
  fun_induction Offset.supply offsets sources <;> simp_all [offset]

end SuppliedOffset

structure Window where
  offsets : List Offset
  sizes : Shape
  strides : List Int
  deriving DecidableEq, Repr

namespace Window

def origin (sizes : Shape) : Window where
  offsets := sizes.map fun _ => .static 0
  sizes := sizes
  strides := sizes.map fun _ => 1

def dynamicCount (w : Window) : Nat := w.offsets.count .dynamic

def linearOffset (base : Int) : List Offset → List Int → Except Fault (Option Int)
  | .static v :: offsets, stride :: strides => do
    linearOffset (← Checked.add base (← Checked.mul v stride)) offsets strides
  | .dynamic :: _, _ :: _ => .ok none
  | [], _ => .ok (some base)
  | _, [] => .ok (some base)

def resultType (w : Window) (source : BufferType) : Except Fault BufferType := do
  let sourceStrides ← source.strides
  let strides ← (sourceStrides.zip w.strides).mapM fun (a, b) => Checked.mul a b
  let offset ← match source.offset with
    | some base => linearOffset base w.offsets sourceStrides
    | none => pure none
  return { shape := w.sizes, element := source.element,
           layout := .strided offset strides, space := source.space }

@[simp] theorem origin_sizes (sizes : Shape) : (origin sizes).sizes = sizes := rfl

theorem dynamicCount_origin (sizes : Shape) : (origin sizes).dynamicCount = 0 := by
  simp [dynamicCount, origin, List.count_eq_zero]

end Window

end KernelLowering
