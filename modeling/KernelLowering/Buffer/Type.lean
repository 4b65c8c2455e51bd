import KernelLowering.Checked
import KernelLowering.Text.Join

namespace KernelLowering

inductive ElementType where
  | uint8
  | sint8
  | uint16
  | sint16
  | uint32
  | sint32
  | float32
  | bfloat16
  deriving DecidableEq, Repr

namespace ElementType

def all : List ElementType :=
  [uint8, sint8, uint16, sint16, uint32, sint32, float32, bfloat16]

def size : ElementType → Nat
  | uint8 | sint8 => 1
  | uint16 | sint16 | bfloat16 => 2
  | uint32 | sint32 | float32 => 4

def text : ElementType → String
  | uint8 => "u8"
  | sint8 => "i8"
  | uint16 => "u16"
  | sint16 => "i16"
  | uint32 => "u32"
  | sint32 => "i32"
  | float32 => "f32"
  | bfloat16 => "bf16"

theorem mem_all (t : ElementType) : t ∈ all := by
  cases t <;> simp [all]

end ElementType

inductive MemorySpace where
  | global
  | l2
  | l1
  deriving DecidableEq, Repr

namespace MemorySpace

def id : MemorySpace → Nat
  | global => 0
  | l2 => 1
  | l1 => 2

def text (space : MemorySpace) : String := toString space.id

end MemorySpace

abbrev Shape := List Int

namespace Shape

def volume (shape : Shape) : Except Fault Int := Checked.product shape

def rowMajorStrides : Shape → Except Fault (List Int)
  | [] => .ok []
  | _ :: rest => do
    let inner ← rowMajorStrides rest
    match rest, inner with
    | extent :: _, stride :: _ => return (← Checked.mul stride extent) :: inner
    | _, _ => return 1 :: inner

end Shape

inductive Layout where
  | identity
  | strided (offset : Option Int) (strides : List Int)
  deriving DecidableEq, Repr

structure BufferType where
  shape : Shape
  element : ElementType
  layout : Layout
  space : MemorySpace
  deriving DecidableEq, Repr

namespace BufferType

def rowMajor (shape : Shape) (element : ElementType) (space : MemorySpace) : BufferType :=
  ⟨shape, element, .identity, space⟩

def rank (type : BufferType) : Nat := type.shape.length

def strides (type : BufferType) : Except Fault (List Int) :=
  match type.layout with
  | .identity => type.shape.rowMajorStrides
  | .strided _ strides => .ok strides

def offset (type : BufferType) : Option Int :=
  match type.layout with
  | .identity => some 0
  | .strided offset _ => offset

def bytes (type : BufferType) : Except Fault Int := do
  Checked.mul (← type.shape.volume) type.element.size

end BufferType

def Layout.text : Layout → String
  | identity => ""
  | strided offset strides =>
      ", strided<[" ++ Text.ints strides ++ "], offset: " ++ (offset.map Text.int).getD "?" ++ ">"

def BufferType.text (type : BufferType) : String :=
  "memref<" ++ String.join (type.shape.map fun extent => Text.int extent ++ "x") ++
    type.element.text ++ type.layout.text ++
    (if type.space = .global then "" else ", " ++ type.space.text) ++ ">"

end KernelLowering
