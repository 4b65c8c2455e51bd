import KernelLowering.Program.Builder

namespace KernelLowering

def kernelFunction (name : String) (kind : KernelKind) (shapes : List Shape)
    (element : ElementType) : Except Fault Function := do
  let f := Function.empty name
    (shapes.map fun shape => .buffer (.rowMajor shape element .global))
  let build : Build Unit := do
    discard (Build.kernel kind f.arguments none)
    discard Build.ret
  return (← build.runOn f (.atEnd none)).2

def matmulShapes (m n k : Int) : List Shape := [[m, k], [k, n], [m, n]]

end KernelLowering
