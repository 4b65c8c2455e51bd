import KernelLowering.Handle
import KernelLowering.Rule.Name
import KernelLowering.Text.Join
import KernelLowering.Text.Quoted

namespace KernelLowering

inductive Fault where
  | overflow
  | divideByZero
  | indexOutOfBounds
  | failedAssertion
  | noResult (op : OpId)
  | sourceNotBuffer
  | detachedAnchor
  | uncheckedUse (rule : RuleName)
  | missingOffsetOperand
  | resultNotBuffer
  | arrayTooLarge (extents : List Nat)
  | capacityOverflow
  | hiddenBeyondWidth (width hidden : Nat) (line : String)
  | cyclicDefinition
  deriving DecidableEq, Repr

namespace Fault

def unreachableText (reason : String) : String :=
  s!"internal error: entered unreachable code: {reason}"

def extentsText (extents : List Nat) : String :=
  let rank := extents.length
  let digits := (extents ++ List.replicate (4 - rank) 0).map toString
  if rank ≤ 4 then s!"Inline({rank}, [{Text.commas digits}])" else s!"Alloc([{Text.commas digits}])"

def message : Fault → String
  | overflow => "arithmetic overflow"
  | divideByZero => "division by zero"
  | indexOutOfBounds => "index out of bounds"
  | failedAssertion => "assertion failed"
  | noResult op => s!"{op.text} has no result"
  | sourceNotBuffer => "sub-view source must be a buffer"
  | detachedAnchor => "anchor must be attached to its parent"
  | uncheckedUse rule => unreachableText s!"checked by {rule.text}::check"
  | missingOffsetOperand => unreachableText "dynamic offset without an operand"
  | resultNotBuffer => unreachableText "sub-views produce buffers"
  | arrayTooLarge extents =>
      "ndarray: Shape too large, product of non-zero axis lengths overflows isize in shape " ++
        s!"IxDynImpl({extentsText extents})"
  | capacityOverflow => "capacity overflow"
  | hiddenBeyondWidth width hidden line =>
      s!"internal error: width {width} less than hidden {hidden} on string {Text.quoted line}"
  | cyclicDefinition => "cyclic definition"

def require {α : Type} (fault : Fault) : Option α → Except Fault α
  | some a => .ok a
  | none => .error fault

@[simp] theorem require_some {α : Type} (fault : Fault) (a : α) :
    fault.require (some a) = .ok a := rfl

@[simp] theorem require_none {α : Type} (fault : Fault) :
    fault.require (none : Option α) = .error fault := rfl

@[simp] theorem ok_bind {α β : Type} (a : α) (next : α → Except Fault β) :
    (Except.ok a >>= next) = next a := rfl

theorem require_eq_ok {α : Type} {fault : Fault} {o : Option α} {a : α} :
    fault.require o = .ok a ↔ o = some a := by
  cases o <;> simp [require]

theorem bind_eq_ok {α β : Type} {x : Except Fault α} {next : α → Except Fault β} {b : β} :
    (x >>= next) = .ok b ↔ ∃ a, x = .ok a ∧ next a = .ok b := by
  cases x <;> simp [bind, Except.bind]

theorem map_eq_ok {α β : Type} {x : Except Fault α} {g : α → β} {b : β} :
    g <$> x = .ok b ↔ ∃ a, x = .ok a ∧ g a = b := by
  cases x <;> simp [Functor.map, Except.map]

end Fault

end KernelLowering
