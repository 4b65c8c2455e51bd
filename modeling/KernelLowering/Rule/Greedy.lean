import KernelLowering.Log
import KernelLowering.Program.Edit
import KernelLowering.Rule.Basic

namespace KernelLowering.Greedy

def applyFirst (f : Function) (op : OpId) : List Rule → Logged (Option Function)
  | [] => return none
  | rule :: rules => do
    match ← (rule.apply f op).run with
    | .ok f =>
      Logged.report (.applied rule.name op)
      return some f
    | .error reason =>
      Logged.report (.declined rule.name op reason)
      applyFirst f op rules

def visit (rules : List Rule) (f : Function) : List OpId → Logged (Function × Nat)
  | [] => return (f, 0)
  | op :: ops => do
    if ← f.isLive op then
      match ← applyFirst f op rules with
      | some f =>
        let (f, changes) ← visit rules f ops
        return (f, changes + 1)
      | none => visit rules f ops
    else
      visit rules f ops

structure Sweep where
  function : Function
  changes : Nat
  erased : Nat

def sweep (rules : List Rule) (f : Function) : Logged Sweep := do
  let (f, changes) ← visit rules f f.walk
  let (f, erased) ← f.eraseDead
  return ⟨f, changes, erased⟩

structure Outcome where
  sweeps : Nat
  changes : Nat
  converged : Bool
  deriving DecidableEq, Repr

def sweepUpTo (rules : List Rule) : Nat → Outcome → Function → Logged (Function × Outcome)
  | 0, outcome, f => return (f, outcome)
  | remaining + 1, outcome, f => do
    let s ← sweep rules f
    let outcome := ⟨outcome.sweeps + 1, outcome.changes + s.changes, false⟩
    if s.changes = 0 ∧ s.erased = 0 then
      return (s.function, { outcome with converged := true })
    else
      sweepUpTo rules remaining outcome s.function

def run (rules : List Rule) (maxSweeps : Nat) (f : Function) : Logged (Function × Outcome) := do
  let (f, outcome) ← sweepUpTo rules maxSweeps ⟨0, 0, false⟩ f
  if outcome.converged then
    Logged.report (.converged f.name outcome.sweeps outcome.changes)
  else
    Logged.report (.notConverged f.name maxSweeps)
  return (f, outcome)

end KernelLowering.Greedy
