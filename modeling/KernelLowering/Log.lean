import KernelLowering.Rule.Declined

namespace KernelLowering

inductive LogLevel where
  | warn
  | debug
  | trace
  deriving DecidableEq, Repr

namespace LogLevel

def text : LogLevel → String
  | warn => "warn"
  | debug => "debug"
  | trace => "trace"

def verbosity : LogLevel → Nat
  | warn => 0
  | debug => 1
  | trace => 2

def visibleAt (level chosen : LogLevel) : Bool := level.verbosity ≤ chosen.verbosity

end LogLevel

inductive SizeOption where
  | herd
  | l1Tile
  | l2Tile
  deriving DecidableEq, Repr

def SizeOption.text : SizeOption → String
  | herd => "herd-size"
  | l1Tile => "l1-tile-size"
  | l2Tile => "l2-tile-size"

inductive Round where
  | tile
  | canonicalize
  | foldViews
  deriving DecidableEq, Repr

def Round.text : Round → String
  | tile => "tile"
  | canonicalize => "canonicalize"
  | foldViews => "fold-views"

inductive Event where
  | ignoredEntries (option : SizeOption) (rank : Nat) (entries : List Int)
  | applied (rule : RuleName) (op : OpId)
  | declined (rule : RuleName) (op : OpId) (reason : Declined)
  | converged (function : String) (sweeps changes : Nat)
  | notConverged (function : String) (maxSweeps : Nat)
  | roundDone (round : Round) (function : String) (changes sweeps : Nat)
  | outlined (op : OpId) (caller callee : String)
  | l1Size (bytes : Nat)
  | stopped (kind : KernelKind) (callee : String) (reached : Option Stage)
  deriving DecidableEq, Repr

namespace Event

def level : Event → LogLevel
  | ignoredEntries _ _ _ | notConverged _ _ => .warn
  | applied _ _ | declined _ _ _ => .trace
  | converged _ _ _ | roundDone _ _ _ _ | outlined _ _ _ | l1Size _ | stopped _ _ _ => .debug

def text : Event → String
  | ignoredEntries option rank entries =>
      s!"Ignoring {option.text} entries beyond rank {rank}: [{Text.ints entries}]"
  | applied rule op => s!"Applied {rule.text} to {op.text}"
  | declined rule op reason => s!"{rule.text} declined {op.text}: {reason.message}"
  | converged function sweeps changes =>
      s!"Converged on @{function} after {sweeps} sweeps and {changes} rewrites"
  | notConverged function maxSweeps =>
      s!"Rewriting @{function} did not converge within {maxSweeps} sweeps"
  | roundDone round function changes sweeps =>
      s!"Stage {round.text} on @{function}: {changes} rewrites in {sweeps} sweeps"
  | outlined op caller callee => s!"Outlined {op.text} from @{caller} into @{callee}"
  | l1Size bytes => s!"L1 size is {bytes} bytes"
  | stopped kind callee reached =>
      s!"{kind.text} kernel in @{callee} stopped at {Stage.optionLabel reached}"

end Event

structure Logged (α : Type) where
  events : List Event
  outcome : Except Fault α

namespace Logged

def ok {α : Type} (a : α) : Logged α := ⟨[], .ok a⟩

def bind {α β : Type} (x : Logged α) (next : α → Logged β) : Logged β :=
  match x.outcome with
  | .ok a =>
    let y := next a
    ⟨x.events ++ y.events, y.outcome⟩
  | .error fault => ⟨x.events, .error fault⟩

instance : Monad Logged where
  pure := ok
  bind := bind

instance : MonadLift (Except Fault) Logged := ⟨fun outcome => ⟨[], outcome⟩⟩

def report (event : Event) : Logged Unit := ⟨[event], .ok ()⟩

@[simp] theorem outcome_pure {α : Type} (a : α) : (pure a : Logged α).outcome = .ok a := rfl

@[simp] theorem outcome_bind {α β : Type} (x : Logged α) (next : α → Logged β) :
    (x >>= next).outcome = x.outcome >>= fun a => (next a).outcome := by
  show (bind x next).outcome = _
  unfold bind
  cases x.outcome <;> rfl

@[simp] theorem outcome_lift {α : Type} (x : Except Fault α) :
    (liftM x : Logged α).outcome = x := rfl

@[simp] theorem outcome_report (event : Event) : (report event).outcome = .ok () := rfl

end Logged

end KernelLowering
