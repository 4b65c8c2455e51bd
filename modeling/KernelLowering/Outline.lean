import KernelLowering.Log
import KernelLowering.Program.Basic
import KernelLowering.Program.Builder

namespace KernelLowering

inductive OutlineError where
  | unknownFunction (name : String)
  | erasedOp (op : OpId)
  | producesValue (op : OpId)
  deriving DecidableEq, Repr

def unknownFunctionText (name : String) : String := "No function named `" ++ name ++ "`"

def OutlineError.message : OutlineError → String
  | unknownFunction name => unknownFunctionText name
  | erasedOp op => s!"{op.text} has been erased"
  | producesValue op => s!"{op.text} produces a value and cannot be replaced by a call"

structure Outlined where
  call : OpId
  callee : String
  op : OpId
  deriving DecidableEq, Repr

namespace Outline

def callee (f : Function) (o : Operation) (name : String) (marker : Option Stage) :
    Except Fault (OpId × Function) := do
  let empty := Function.empty name (← o.operands.mapM f.typeOf)
  let build : Build OpId := do
    let op ← Build.insert o.kind empty.arguments none (marker <|> o.marker)
    discard Build.ret
    return op
  build.runOn empty (.atEnd none)

def replaceByCall (f : Function) (op : OpId) (o : Operation) (name : String) :
    Except Fault (OpId × Function) := do
  let build : Build OpId := do
    let call ← Build.call name o.operands
    Build.erase op
    return call
  build.runOn f (.before op)

end Outline

def Program.outline (p : Program) (caller : String) (op : OpId) (hint : String)
    (marker : Option Stage) : Logged (Except OutlineError (Program × Outlined)) := do
  let name := p.uniqueName hint
  let some f := p.find? caller
    | return .error (.unknownFunction caller)
  if !(← f.isLive op) then
    return .error (.erasedOp op)
  let o ← f.op op
  if o.result.isSome then
    return .error (.producesValue op)
  let (inner, callee) ← Outline.callee f o name marker
  let (call, f) ← Outline.replaceByCall f op o name
  Logged.report (.outlined op caller name)
  return .ok ((p.insert f).insert callee, ⟨call, name, inner⟩)

end KernelLowering
