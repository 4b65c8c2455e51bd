import KernelLowering.CommandLine.Request
import KernelLowering.Lowering.Pass
import KernelLowering.Lowering.Report
import KernelLowering.Program.KernelFunction
import KernelLowering.Program.Printer

namespace KernelLowering

namespace CommandLine

inductive Exit where
  | done
  | failed
  | usage
  | fault
  deriving DecidableEq, Repr

def Exit.code : Exit → Nat
  | done => 0
  | failed => 1
  | usage => 2
  | fault => 101

structure Outcome where
  exit : Exit
  stdout : String
  stderr : String
  deriving DecidableEq, Repr

def versionText : String := "air-codegen 0.1.0\n"

def failure (stdout message : String) : Outcome := ⟨.failed, stdout, "Error: " ++ message ++ "\n"⟩

def orFault {α : Type} (shown : String) (x : Except Fault α) (next : α → Outcome) : Outcome :=
  match x with
  | .ok a => next a
  | .error _ => ⟨.fault, shown, ""⟩

def functionName : String := "forward"

def lower (i : Invocation) (f : Function) : Outcome :=
  let p := Program.empty.insert f
  let input : Except Fault String :=
    if i.printInput then do return (← p.text) ++ "\n" else pure ""
  orFault "" input fun shown =>
    orFault shown (Lowering.run i.options p).outcome fun (result, p) =>
      match result with
      | .error e => failure shown e.message
      | .ok report =>
        orFault shown p.text fun text =>
          let shown := shown ++ text ++ "\n"
          orFault shown report.summary fun summary => ⟨.done, shown ++ summary, ""⟩

def runInvocation (i : Invocation) : Outcome :=
  match i.query with
  | .matmul m n k =>
    orFault "" (kernelFunction functionName .matmul (matmulShapes m n k) i.element) (lower i)
  | .conv batch channels filters filterSize size =>
    if size < filterSize then
      failure "" s!"filters ({filterSize}) larger than the image ({size})"
    else
      let f : Except Fault Function := do
        let out ← Checked.add (← Checked.sub size filterSize) 1
        kernelFunction functionName .conv2d
          [[batch, channels, size, size], [filters, channels, filterSize, filterSize],
           [batch, filters, out, out]] i.element
      orFault "" f (lower i)

def run (args : List String) : Outcome :=
  match read args with
  | .error _ => ⟨.usage, "", ""⟩
  | .ok .help => ⟨.done, "", ""⟩
  | .ok .version => ⟨.done, versionText, ""⟩
  | .ok (.lower invocation) => runInvocation invocation

end CommandLine

end KernelLowering
