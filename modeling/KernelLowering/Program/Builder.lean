import KernelLowering.Program.Edit

namespace KernelLowering

inductive InsertionPoint where
  | before (anchor : OpId)
  | atEnd (parent : Option OpId)
  deriving DecidableEq, Repr

structure Builder where
  function : Function
  point : InsertionPoint

abbrev Build := StateT Builder (Except Fault)

namespace Build

def runOn {α : Type} (build : Build α) (f : Function) (point : InsertionPoint) :
    Except Fault (α × Function) := do
  let (a, builder) ← build.run ⟨f, point⟩
  return (a, builder.function)

def function : Build Function := return (← get).function

def point : Build InsertionPoint := return (← get).point

def setPoint (point : InsertionPoint) : Build Unit :=
  modify fun b => { b with point := point }

def edit (change : Function → Except Fault Function) : Build Unit := do
  let b ← get
  set { b with function := ← change b.function }

def place (op : OpId) : Build Unit := do
  match ← point with
  | .before anchor => edit (·.placeBefore op anchor)
  | .atEnd parent => edit (·.placeAtEnd op parent)

def insert (kind : OpKind) (operands : List ValueId) (resultType : Option ValueType)
    (marker : Option Stage) : Build OpId := do
  let b ← get
  let (f, op) := b.function.addOp kind operands resultType marker
  set { b with function := f }
  place op
  return op

def insertValue (kind : OpKind) (operands : List ValueId) (type : ValueType) : Build ValueId := do
  let op ← insert kind operands (some type) none
  (← function).result op

def constant (value : Int) : Build ValueId := insertValue (.constant value) [] .index

def addIndex (lhs rhs : ValueId) : Build ValueId := insertValue .addIndex [lhs, rhs] .index

def alloc (type : BufferType) : Build ValueId := insertValue .alloc [] (.buffer type)

def dealloc (buffer : ValueId) : Build OpId := insert .dealloc [buffer] none none

def view (source : ValueId) (type : BufferType) : Build ValueId :=
  insertValue .view [source] (.buffer type)

def subView (source : ValueId) (window : Window) (offsets : List ValueId) : Build ValueId := do
  if window.dynamicCount ≠ offsets.length then
    throw .failedAssertion
  let type ← Fault.sourceNotBuffer.require (← (← function).bufferType? source)
  insertValue (.subView window) (source :: offsets) (.buffer (← window.resultType type))

def copy (source destination : ValueId) : Build OpId :=
  insert .copy [source, destination] none none

def kernel (kind : KernelKind) (operands : List ValueId) (marker : Option Stage) : Build OpId :=
  insert (.kernel kind) operands none marker

def loop (kind : OpKind) : Build (OpId × List ValueId) := do
  let op ← insert kind [] none none
  return (op, (← (← function).op op).inductionVars)

def forLoop (range : LoopRange) : Build (OpId × List ValueId) := loop (.forLoop range)

def parallelLoop (ranges : List LoopRange) : Build (OpId × List ValueId) :=
  loop (.parallelLoop ranges)

def call (callee : String) (arguments : List ValueId) : Build OpId :=
  insert (.call callee) arguments none none

def ret : Build OpId := insert .ret [] none none

def replaceUses (old new : ValueId) : Build Unit := edit fun f => .ok (f.replaceUses old new)

def replaceOp (op : OpId) (new : Option ValueId) : Build Unit := edit (·.replaceOp op new)

def erase (op : OpId) : Build Unit := edit (·.erase op)

end Build

end KernelLowering
