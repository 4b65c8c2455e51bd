import KernelLowering.Buffer.Type
import KernelLowering.Buffer.Window
import KernelLowering.Handle
import KernelLowering.LoopRange
import KernelLowering.Stage

namespace KernelLowering

inductive ValueType where
  | index
  | buffer (type : BufferType)
  deriving DecidableEq, Repr

def ValueType.buffer? : ValueType → Option BufferType
  | index => none
  | buffer type => some type

def ValueType.text : ValueType → String
  | index => "index"
  | buffer type => type.text

inductive Definition where
  | argument (position : Nat)
  | result (op : OpId)
  | inductionVar (op : OpId) (position : Nat)
  deriving DecidableEq, Repr

structure Value where
  type : ValueType
  definition : Definition
  deriving DecidableEq, Repr

inductive OpKind where
  | constant (value : Int)
  | addIndex
  | alloc
  | dealloc
  | view
  | subView (window : Window)
  | copy
  | kernel (kind : KernelKind)
  | forLoop (range : LoopRange)
  | parallelLoop (ranges : List LoopRange)
  | call (callee : String)
  | ret
  deriving DecidableEq, Repr

namespace OpKind

def isLinalg : OpKind → Bool
  | copy | kernel _ => true
  | _ => false

def isLoop : OpKind → Bool
  | forLoop _ | parallelLoop _ => true
  | _ => false

def isParallel : OpKind → Bool
  | parallelLoop _ => true
  | _ => false

def isPure : OpKind → Bool
  | constant _ | addIndex | alloc | view | subView _ => true
  | _ => false

def loopRanges : OpKind → List LoopRange
  | forLoop range => [range]
  | parallelLoop ranges => ranges
  | _ => []

def kernel? : OpKind → Option KernelKind
  | kernel kind => some kind
  | _ => none

def window? : OpKind → Option Window
  | subView window => some window
  | _ => none

def constant? : OpKind → Option Int
  | constant value => some value
  | _ => none

@[simp] theorem kernel?_eq_some {o : OpKind} {kind : KernelKind} :
    o.kernel? = some kind ↔ o = kernel kind := by
  cases o <;> simp [kernel?]

@[simp] theorem window?_eq_some {o : OpKind} {window : Window} :
    o.window? = some window ↔ o = subView window := by
  cases o <;> simp [window?]

@[simp] theorem constant?_eq_some {o : OpKind} {value : Int} :
    o.constant? = some value ↔ o = constant value := by
  cases o <;> simp [constant?]

end OpKind

structure Operation where
  kind : OpKind
  operands : List ValueId
  result : Option ValueId
  marker : Option Stage
  region : List OpId
  inductionVars : List ValueId
  parent : Option OpId
  live : Bool
  deriving DecidableEq, Repr

namespace Operation

def operand (o : Operation) (position : Nat) : Except Fault ValueId :=
  Fault.indexOutOfBounds.require o.operands[position]?

def offsetOperands (o : Operation) : Except Fault (List ValueId) :=
  match o.operands with
  | [] => .error .indexOutOfBounds
  | _ :: rest => .ok rest

def positionsOf (o : Operation) (v : ValueId) : List Nat :=
  (o.operands.zipIdx.filter (·.1 = v)).map (·.2)

def retarget (old new : ValueId) (o : Operation) : Operation :=
  { o with operands := o.operands.map fun v => if v = old then new else v }

end Operation

end KernelLowering
