namespace KernelLowering.CommandLine

inductive Argument where
  | terminator
  | long (name : String) (value : Option String)
  | short (name : Char) (rest : List Char)
  | plain (text : String)
  deriving DecidableEq, Repr

namespace Argument

def splitValue : List Char → List Char → String × Option String
  | [], name => (String.ofList name.reverse, none)
  | '=' :: value, name => (String.ofList name.reverse, some (String.ofList value))
  | c :: cs, name => splitValue cs (c :: name)

def classify (text : String) : Argument :=
  match text.toList with
  | ['-', '-'] => terminator
  | '-' :: '-' :: rest =>
      let (name, value) := splitValue rest []
      long name value
  | '-' :: c :: rest => short c rest
  | _ => plain text

def isPlain (text : String) : Bool :=
  match classify text with
  | plain _ => true
  | _ => false

def attached? : List Char → Option String
  | [] => none
  | '=' :: value => some (String.ofList value)
  | value => some (String.ofList value)

end Argument

inductive UsageError where
  | unknown (argument : String)
  | unexpectedValue (option : String)
  | missingValue (option : String)
  | invalidValue (option value : String)
  | repeated (option : String)
  | missingArgument
  deriving DecidableEq, Repr

def valueOf (option : String) (attached : Option String) (rest : List String) :
    Except UsageError (String × { args : List String // args.length ≤ rest.length }) :=
  match attached, rest with
  | some value, rest => .ok (value, ⟨rest, Nat.le_refl _⟩)
  | none, value :: rest =>
      if Argument.isPlain value then .ok (value, ⟨rest, by simp⟩)
      else .error (.missingValue option)
  | none, [] => .error (.missingValue option)

end KernelLowering.CommandLine
