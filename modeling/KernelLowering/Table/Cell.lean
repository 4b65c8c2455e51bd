import KernelLowering.Fault
import KernelLowering.Table.Width

namespace KernelLowering.Table

inductive EscapeState where
  | outside
  | afterEscape
  | inside
  | closing
  deriving DecidableEq, Repr

namespace EscapeState

def next : EscapeState → Char → EscapeState
  | outside, '\x1b' => afterEscape
  | outside, _ => outside
  | afterEscape, '[' => inside
  | afterEscape, _ => outside
  | inside, 'm' => closing
  | inside, _ => inside
  | closing, '\x1b' => afterEscape
  | closing, _ => outside

def isHidden : EscapeState → Bool
  | inside | closing => true
  | outside | afterEscape => false

def countHidden : EscapeState → List Char → Nat
  | _, [] => 0
  | state, c :: cs =>
      let state := state.next c
      (if state.isHidden && 0 < charWidth c then 1 else 0) + state.countHidden cs

end EscapeState

structure Line where
  text : String
  columns : Nat
  deriving DecidableEq, Repr

def Line.ofText (text : String) : Except Fault Line :=
  let columns := columnsOf text.toList
  let hidden := EscapeState.outside.countHidden text.toList
  if columns < hidden then .error (.hiddenBeyondWidth columns hidden text)
  else .ok ⟨text, columns - hidden⟩

def Line.padded (width : Nat) (line : Line) : String :=
  line.text ++ "".pushn ' ' (width - line.columns)

def dropCarriageReturn (reversed : List Char) : List Char :=
  match reversed with
  | '\r' :: rest => rest
  | line => line

def splitLines : List Char → List Char → List (List Char)
  | [], [] => []
  | [], current => [current.reverse]
  | '\n' :: cs, current => (dropCarriageReturn current).reverse :: splitLines cs []
  | c :: cs, current => splitLines cs (c :: current)

abbrev Cell := List Line

namespace Cell

def ofText (text : String) : Except Fault Cell :=
  (splitLines text.toList []).mapM fun cs => Line.ofText (String.ofList cs)

def width (cell : Cell) : Nat := (cell.map (·.columns)).foldl max 0

def line (cell : Cell) (i : Nat) : Line := cell[i]?.getD ⟨"", 0⟩

end Cell

end KernelLowering.Table
