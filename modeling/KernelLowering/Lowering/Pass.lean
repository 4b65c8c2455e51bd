import KernelLowering.Lowering.Pipeline
import KernelLowering.Lowering.Report
import KernelLowering.Outline

namespace KernelLowering

inductive LoweringError where
  | unknownFunction (name : String)
  | outline (error : OutlineError)
  deriving DecidableEq, Repr

def LoweringError.message : LoweringError → String
  | unknownFunction name => unknownFunctionText name
  | outline error => "Outlining failed: " ++ error.message

namespace Lowering

abbrev Pass := ExceptT LoweringError (StateT Program Logged)

def functionNamed (name : String) : Pass Function := do
  match (← get).find? name with
  | some f => return f
  | none => throw (.unknownFunction name)

def logged {α : Type} (x : Logged α) : Pass α := liftM (m := StateT Program Logged) (liftM x)

def lowerInstance (options : LoweringOptions) (caller : String) (k : KernelInstance) :
    Pass InstanceReport := do
  let plan ← logged (KernelPlan.forInstance k options)
  let hint := k.kind.procedureName
  let outlined ← match ← logged ((← get).outline caller k.op hint (some .selected)) with
    | .ok (program, outlined) => do
      set program
      pure outlined
    | .error error => throw (.outline error)
  let callee := outlined.callee
  let (f, outcome) ← logged (Pipeline.run plan options.maxSweeps (← functionNamed callee))
  modify (·.insert f)
  let stalled := outcome.reached ≠ some plan.terminal
  if stalled then
    logged (Logged.report (.stopped k.kind callee outcome.reached))
  return {
    caller, callee
    kind := k.kind
    tileSizes := plan.tileSizes
    reached := outcome.reached
    stalled
    changes := outcome.changes }

def lowerKernels (options : LoweringOptions) (name : String) (kind : KernelKind) :
    Pass (List InstanceReport) := do
  let f ← functionNamed name
  let kernels ← logged (f.kernels kind)
  kernels.mapM (lowerInstance options name)

def cleanUpViews (options : LoweringOptions) (name : String) : Pass Nat := do
  let f ← functionNamed name
  let (f, outcome) ← logged (Greedy.run Rule.viewCleanup options.maxSweeps f)
  modify (·.insert f)
  return outcome.changes

def lowerFunction (options : LoweringOptions) (name : String) : Pass (List InstanceReport) := do
  let matmuls ← lowerKernels options name .matmul
  return matmuls ++ (← lowerKernels options name .conv2d)

def pass (options : LoweringOptions) : Pass LoweringReport := do
  logged (Logged.report (.l1Size options.l1Size))
  let names := (← get).names
  if options.viewsOnly then
    return ⟨[], (← names.mapM (cleanUpViews options)).foldl (· + ·) 0⟩
  else
    return ⟨(← names.mapM (lowerFunction options)).flatten, 0⟩

def run (options : LoweringOptions) (p : Program) :
    Logged (Except LoweringError LoweringReport × Program) :=
  (pass options).run.run p

end Lowering

end KernelLowering
