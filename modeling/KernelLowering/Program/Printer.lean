import KernelLowering.Program.Basic
import KernelLowering.Program.Listing
import KernelLowering.Text.Indent

namespace KernelLowering

def Name.text : Name → String
  | argument position => s!"%arg{position}"
  | numbered number => s!"%{number}"
  | undefined v => s!"%<undef{v.index}>"

def SuppliedOffset.text : SuppliedOffset Name → String
  | static value => Text.int value
  | supplied source => source.text
  | missing => "<missing>"

namespace Typed

def names (operands : List Typed) : String := Text.commas (operands.map (·.name.text))

def types (operands : List Typed) : String := Text.commas (operands.map (·.type.text))

end Typed

def KernelKind.mnemonic : KernelKind → String
  | matmul => "linalg.matmul"
  | conv2d => "linalg.conv_2d_nchw"

namespace Statement

def assignment : Option Name → String
  | some result => result.text ++ " = "
  | none => ""

def markerText : Option Stage → String
  | some stage => " \x7bmarker = \"" ++ stage.text ++ "\"\x7d"
  | none => ""

def boundsText (ranges : List LoopRange) (bound : LoopRange → Int) : String :=
  "(" ++ Text.ints (ranges.map bound) ++ ")"

def text : Statement → String
  | constant result value => assignment result ++ "arith.constant " ++ Text.int value ++ " : index"
  | addIndex result lhs rhs =>
      assignment result ++ "arith.addi " ++ lhs.text ++ ", " ++ rhs.text ++ " : index"
  | alloc result => result.name.text ++ " = memref.alloc() : " ++ result.type.text
  | dealloc buffer => "memref.dealloc " ++ buffer.name.text ++ " : " ++ buffer.type.text
  | view result source =>
      result.name.text ++ " = memref.view " ++ source.name.text ++ "[][] : " ++
        source.type.text ++ " to " ++ result.type.text
  | subView result source offsets sizes strides =>
      result.name.text ++ " = memref.subview " ++ source.name.text ++
        "[" ++ Text.commas (offsets.map (·.text)) ++ "] [" ++ Text.ints sizes ++ "] [" ++
        Text.ints strides ++ "] : " ++ source.type.text ++ " to " ++ result.type.text
  | copy source destination =>
      "linalg.copy(" ++ source.name.text ++ ", " ++ destination.name.text ++ ") : " ++
        source.type.text ++ ", " ++ destination.type.text
  | kernel kind marker inputs output =>
      kind.mnemonic ++ markerText marker ++
        " ins(" ++ Typed.names inputs ++ " : " ++ Typed.types inputs ++
        ") outs(" ++ output.name.text ++ " : " ++ output.type.text ++ ")"
  | forLoop var range =>
      "scf.for " ++ var.text ++ " = " ++ Text.int range.lower ++ " to " ++
        Text.int range.upper ++ " step " ++ Text.int range.step ++ " \x7b"
  | parallelLoop vars ranges =>
      "scf.parallel (" ++ Text.commas (vars.map (·.text)) ++ ") = " ++
        boundsText ranges (·.lower) ++ " to " ++ boundsText ranges (·.upper) ++ " step " ++
        boundsText ranges (·.step) ++ " \x7b"
  | call callee arguments =>
      "call @" ++ callee ++ "(" ++ Typed.names arguments ++ ") : (" ++ Typed.types arguments ++
        ") -> ()"
  | ret => "return"

def opensBlock : Statement → Bool
  | forLoop _ _ | parallelLoop _ _ => true
  | _ => false

end Statement

def Listing.text (depth : Nat) : Listing → String
  | nil => ""
  | line statement body rest =>
      let block :=
        if statement.opensBlock then
          body.text (depth + 1) ++ Text.margin depth ++ "\x7d\n"
        else ""
      Text.margin depth ++ statement.text ++ "\n" ++ block ++ rest.text depth

namespace Function

def parameterText (f : Function) (v : ValueId) : Except Fault String :=
  return (Name.argument v.index).text ++ ": " ++ (← f.typeOf v).text

def text (f : Function) : Except Fault String := do
  let parameters ← f.arguments.mapM f.parameterText
  let listing ← f.listing
  return "func @" ++ f.name ++ "(" ++ Text.commas parameters ++ ") \x7b\n" ++
    listing.text 1 ++ "\x7d\n"

end Function

def Program.text (p : Program) : Except Fault String := do
  return Text.join "\n" (← p.functions.mapM (·.text))

end KernelLowering
