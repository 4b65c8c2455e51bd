import KernelLowering.Table.Cell
import KernelLowering.Text.Join

namespace KernelLowering

structure Table where
  titles : List Table.Cell
  rows : List (List Table.Cell)
  deriving DecidableEq, Repr

namespace Table

def ofTexts (titles : List String) (rows : List (List String)) : Except Fault Table := do
  return ⟨← titles.mapM Cell.ofText, ← rows.mapM fun row => row.mapM Cell.ofText⟩

def widths (table : Table) : List Nat :=
  (table.titles :: table.rows).foldl
    (fun widths row => (widths.zip row).map fun (width, cell) => max width cell.width)
    (table.titles.map fun _ => 0)

def rowLine (widths : List Nat) (lines : List Line) : String :=
  match widths, lines with
  | width :: next :: widths, line :: lines =>
      line.padded width ++ " " ++ rowLine (next :: widths) lines
  | _, line :: _ => line.text
  | _, [] => ""

def rowText (widths : List Nat) (row : List Cell) : String :=
  let height := (row.map List.length).foldl max 1
  String.join ((List.range height).map fun i =>
    rowLine widths (row.map fun cell => cell.line i) ++ "\n")

def underline (widths : List Nat) : String :=
  Text.join " " (widths.map fun width => "".pushn '-' width) ++ "\n"

def text (table : Table) : String :=
  let widths := table.widths
  rowText widths table.titles ++ underline widths ++ String.join (table.rows.map (rowText widths))

end Table

end KernelLowering
