import KernelLowering.Buffer.Type
import KernelLowering.CommandLine.Argument
import KernelLowering.Lowering.Options
import KernelLowering.Text.Decimal

namespace KernelLowering.CommandLine

inductive KernelQuery where
  | matmul (m n k : Int)
  | conv (batch channels filters filterSize size : Int)
  deriving DecidableEq, Repr

structure Invocation where
  options : LoweringOptions
  element : ElementType
  printInput : Bool
  query : KernelQuery
  deriving DecidableEq, Repr

inductive Request where
  | help
  | version
  | lower (invocation : Invocation)
  deriving DecidableEq, Repr

def readInt64? (text : String) : Option Int :=
  Text.readBetween? (-9223372036854775808) 9223372036854775807 text

def readInt64 (option text : String) : Except UsageError Int :=
  match readInt64? text with
  | some value => .ok value
  | none => .error (.invalidValue option text)

def readUInt64 (option text : String) : Except UsageError Nat :=
  match Text.readUnsigned? 18446744073709551615 text with
  | some value => .ok value
  | none => .error (.invalidValue option text)

def readUInt32 (option text : String) : Except UsageError Nat :=
  match Text.readBetween? 0 4294967295 text with
  | some value => .ok value.toNat
  | none => .error (.invalidValue option text)

def elementName : ElementType → String
  | .uint8 => "uint8"
  | .sint8 => "sint8"
  | .uint16 => "uint16"
  | .sint16 => "sint16"
  | .uint32 => "uint32"
  | .sint32 => "sint32"
  | .float32 => "float32"
  | .bfloat16 => "bfloat16"

def readElement (option text : String) : Except UsageError ElementType :=
  match ElementType.all.find? fun element => elementName element == text with
  | some element => .ok element
  | none => .error (.invalidValue option text)

def markGiven (given : List String) (option : String) : Except UsageError (List String) :=
  if option ∈ given then .error (.repeated option) else .ok (option :: given)

structure PassDraft where
  given : List String
  options : LoweringOptions
  element : ElementType
  printInput : Bool

namespace PassDraft

def initial : PassDraft := ⟨[], .default, .sint32, false⟩

def mark (draft : PassDraft) (option : String) : Except UsageError PassDraft := do
  return { draft with given := ← markGiven draft.given option }

def setFlag? (draft : PassDraft) : String → Option PassDraft
  | "test-patterns" => some { draft with options := { draft.options with viewsOnly := true } }
  | "promote-l2" => some { draft with options := { draft.options with promoteL2 := true } }
  | "print-input" => some { draft with printInput := true }
  | _ => none

def takesValue (option : String) : Bool :=
  option ∈ ["herd-size", "l1-tile-size", "l2-tile-size", "l1-size", "max-iterations", "dtype"]

def setValue (draft : PassDraft) (option value : String) : Except UsageError PassDraft := do
  let options := draft.options
  match option with
  | "herd-size" =>
    let sizes ← (Text.splitCommas value).mapM (readUInt32 option)
    return { draft with options := { options with herdSize := options.herdSize ++ sizes } }
  | "l1-tile-size" =>
    let sizes ← (Text.splitCommas value).mapM (readInt64 option)
    return { draft with options := { options with l1TileSize := options.l1TileSize ++ sizes } }
  | "l2-tile-size" =>
    let sizes ← (Text.splitCommas value).mapM (readInt64 option)
    return { draft with options := { options with l2TileSize := options.l2TileSize ++ sizes } }
  | "l1-size" =>
    let draft ← draft.mark option
    return { draft with options := { options with l1Size := ← readUInt64 option value } }
  | "max-iterations" =>
    let draft ← draft.mark option
    return { draft with options := { options with maxSweeps := ← readUInt64 option value } }
  | "dtype" =>
    let draft ← draft.mark option
    return { draft with element := ← readElement option value }
  | _ => throw (.unknown option)

end PassDraft

structure KernelDraft where
  given : List String
  values : List (String × Int)
  sizes : List Int

namespace KernelDraft

def initial : KernelDraft := ⟨[], [], []⟩

def setValue (draft : KernelDraft) (option text : String) : Except UsageError KernelDraft := do
  let given ← markGiven draft.given option
  return { draft with given, values := (option, ← readInt64 option text) :: draft.values }

def addSize (draft : KernelDraft) (limit : Nat) (text : String) :
    Except UsageError KernelDraft := do
  if limit ≤ draft.sizes.length then
    throw (.unknown text)
  return { draft with sizes := draft.sizes ++ [← readInt64 "size" text] }

def valueOr (draft : KernelDraft) (option : String) (standard : Int) : Int :=
  ((draft.values.find? (·.1 == option)).map (·.2)).getD standard

end KernelDraft

structure KernelCommand where
  options : List String
  letters : List (Char × String)
  sizeLimit : Nat
  query : KernelDraft → Except UsageError KernelQuery

def matmulCommand : KernelCommand where
  options := []
  letters := []
  sizeLimit := 3
  query draft :=
    match draft.sizes with
    | [] => .error .missingArgument
    | m :: rest => .ok (.matmul m (rest[0]?.getD m) (rest[1]?.getD m))

def convCommand : KernelCommand where
  options := ["batch", "channels", "filters", "filters-size"]
  letters := [('b', "batch")]
  sizeLimit := 1
  query draft :=
    match draft.sizes with
    | [] => .error .missingArgument
    | size :: _ =>
        .ok (.conv (draft.valueOr "batch" 1) (draft.valueOr "channels" 16)
          (draft.valueOr "filters" 32) (draft.valueOr "filters-size" 3) size)

namespace KernelCommand

def named? : String → Option KernelCommand
  | "matmul" => some matmulCommand
  | "conv" => some convCommand
  | _ => none

def readLiteral (command : KernelCommand) (draft : KernelDraft) (args : List String) :
    Except UsageError KernelDraft :=
  args.foldlM (fun draft text => draft.addSize command.sizeLimit text) draft

def read (command : KernelCommand) (draft : KernelDraft) :
    List String → Except UsageError (Option KernelDraft)
  | [] => .ok (some draft)
  | arg :: rest =>
    match Argument.classify arg with
    | .terminator => some <$> command.readLiteral draft rest
    | .plain text => do command.read (← draft.addSize command.sizeLimit text) rest
    | .long "help" none => .ok none
    | .long name attached =>
      if name ∈ command.options then
        do
          let (value, ⟨rest, _⟩) ← valueOf name attached rest
          command.read (← draft.setValue name value) rest
      else
        .error (.unknown arg)
    | .short 'h' _ => .ok none
    | .short letter attached =>
      match command.letters.lookup letter with
      | some name =>
        do
          let (value, ⟨rest, _⟩) ← valueOf name (Argument.attached? attached) rest
          command.read (← draft.setValue name value) rest
      | none => .error (.unknown arg)
  termination_by args => args.length
  decreasing_by all_goals simp <;> omega

end KernelCommand

def requestOf (draft : PassDraft) (command : KernelCommand) (args : List String) :
    Except UsageError Request := do
  match ← command.read .initial args with
  | none => return .help
  | some kernel =>
    return .lower ⟨draft.options, draft.element, draft.printInput, ← command.query kernel⟩

def helpOn : List String → Except UsageError Request
  | [] => .ok .help
  | "help" :: rest => helpOn rest
  | [topic] => if (KernelCommand.named? topic).isSome then .ok .help else .error (.unknown topic)
  | _ :: topic :: _ => .error (.unknown topic)

def readPass (draft : PassDraft) : List String → Except UsageError Request
  | [] => .error .missingArgument
  | arg :: rest =>
    match Argument.classify arg with
    | .terminator => .error .missingArgument
    | .plain "help" => helpOn rest
    | .plain text =>
      match KernelCommand.named? text with
      | some command => requestOf draft command rest
      | none => .error (.unknown text)
    | .long "help" none => .ok .help
    | .long "version" none => .ok .version
    | .short 'h' _ => .ok .help
    | .short 'V' _ => .ok .version
    | .short _ _ => .error (.unknown arg)
    | .long name attached =>
      match draft.setFlag? name with
      | some flagged => do
        if attached.isSome then
          throw (.unexpectedValue name)
        readPass { flagged with given := ← markGiven draft.given name } rest
      | none =>
        if PassDraft.takesValue name then
          do
            let (value, ⟨rest, _⟩) ← valueOf name attached rest
            readPass (← draft.setValue name value) rest
        else
          .error (.unknown arg)
  termination_by args => args.length
  decreasing_by all_goals simp <;> omega

def read (args : List String) : Except UsageError Request := readPass .initial args

end KernelLowering.CommandLine
