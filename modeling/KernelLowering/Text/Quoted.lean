import KernelLowering.Unicode.GraphemeExtend
import KernelLowering.Unicode.Unprintable

namespace KernelLowering.Text

def hex (n : Nat) : String := String.ofList (Nat.toDigits 16 n)

def codePointEscape (c : Char) : String := "\\u\x7b" ++ hex c.toNat ++ "\x7d"

def isPrintable (c : Char) : Bool := !Unicode.unprintable.has c

def escapeChar (c : Char) : String :=
  match c with
  | '\x00' => "\\0"
  | '\t' => "\\t"
  | '\n' => "\\n"
  | '\r' => "\\r"
  | '"' => "\\\""
  | '\\' => "\\\\"
  | c =>
      if isPrintable c && !Unicode.graphemeExtend.has c then c.toString else codePointEscape c

def quoted (text : String) : String :=
  "\"" ++ String.join (text.toList.map escapeChar) ++ "\""

end KernelLowering.Text
