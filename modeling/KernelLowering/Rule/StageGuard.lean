import KernelLowering.Rule.Declined

namespace KernelLowering

@[ext]
structure StageGuard where
  current : Stage
  next : Stage
  ascends : current < next := by decide
  deriving Repr

namespace StageGuard

instance : DecidableEq StageGuard := fun a b =>
  decidable_of_iff (a.current = b.current ∧ a.next = b.next) StageGuard.ext_iff.symm

def make (current next : Stage) : Except Fault StageGuard :=
  if h : current < next then .ok ⟨current, next, h⟩ else .error .failedAssertion

def ofStep (step : Step) : StageGuard := ⟨step.source, step.target, step.ascends⟩

def check (guard : StageGuard) (o : Operation) : Inspect Unit :=
  if o.marker = some guard.current then pure ()
  else throw (.markerMismatch (some guard.current) o.marker)

def checkKernel (guard : StageGuard) (kind : KernelKind) (o : Operation) : Inspect Unit := do
  if o.kind ≠ .kernel kind then
    throw .wrongKind
  guard.check o

end StageGuard

end KernelLowering
