import KernelLowering.Kernel.Kind
import KernelLowering.Stage
import KernelLowering.Table.Basic

namespace KernelLowering

structure InstanceReport where
  caller : String
  callee : String
  kind : KernelKind
  tileSizes : List (List Int)
  reached : Option Stage
  stalled : Bool
  changes : Nat
  deriving DecidableEq, Repr

structure LoweringReport where
  instances : List InstanceReport
  viewChanges : Nat
  deriving DecidableEq, Repr

def tileSizesText (tiers : List (List Int)) : String :=
  Text.join " / " (tiers.map fun sizes => Text.join "x" (sizes.map Text.int))

def InstanceReport.row (r : InstanceReport) : List String :=
  ["@" ++ r.caller, r.callee, r.kind.text, tileSizesText r.tileSizes,
   (r.reached.map (·.text)).getD "-", if r.stalled then "yes" else "no"]

namespace LoweringReport

def titles : List String := ["Caller", "Callee", "Kernel", "Tile sizes", "Reached", "Stalled"]

def table (r : LoweringReport) : Except Fault Table :=
  Table.ofTexts titles (r.instances.map (·.row))

def tableText (r : LoweringReport) : Except Fault String := Table.text <$> r.table

def summary (r : LoweringReport) : Except Fault String :=
  if r.instances.isEmpty then
    return s!"No kernels lowered; {r.viewChanges} view rewrites applied\n"
  else
    r.tableText

end LoweringReport

end KernelLowering
