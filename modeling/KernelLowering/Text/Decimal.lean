namespace KernelLowering.Text

def digitsValue (digits : List Char) : Nat :=
  digits.foldl (fun value c => 10 * value + (c.toNat - '0'.toNat)) 0

def readDigits? (digits : List Char) : Option Nat :=
  if !digits.isEmpty && digits.all Char.isDigit then some (digitsValue digits) else none

def readSigned? : List Char → Option Int
  | '+' :: digits => (readDigits? digits).map Int.ofNat
  | '-' :: digits => (readDigits? digits).map fun value => -Int.ofNat value
  | digits => (readDigits? digits).map Int.ofNat

def readBetween? (least greatest : Int) (text : String) : Option Int :=
  (readSigned? text.toList).filter fun value => least ≤ value ∧ value ≤ greatest

def readUnsigned? (greatest : Nat) (text : String) : Option Nat :=
  let digits := match text.toList with
    | '+' :: digits => digits
    | digits => digits
  (readDigits? digits).filter (· ≤ greatest)

def splitAt (separator : Char) : List Char → List Char → List String
  | [], current => [String.ofList current.reverse]
  | c :: cs, current =>
      if c = separator then String.ofList current.reverse :: splitAt separator cs []
      else splitAt separator cs (c :: current)

def splitCommas (text : String) : List String := splitAt ',' text.toList []

theorem readBetween?_bounds {least greatest value : Int} {text : String}
    (h : readBetween? least greatest text = some value) : least ≤ value ∧ value ≤ greatest := by
  simp only [readBetween?, Option.filter_eq_some_iff] at h
  simpa using h.2

end KernelLowering.Text
