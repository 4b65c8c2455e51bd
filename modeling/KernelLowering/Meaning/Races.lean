import KernelLowering.Meaning.Memory

namespace KernelLowering

namespace Action

def buffers : Action → List Ref
  | alloc _ => []
  | copy source destination => [source, { destination with shape := source.shape }]
  | kernel _ operands => operands

def outputs : Action → List Ref
  | alloc _ => []
  | copy source destination => [{ destination with shape := source.shape }]
  | kernel kind operands => operands[kind.outputOperand]?.toList

end Action

def Ref.Among (refs : List Ref) (c : Ref.Cell) : Prop := ∃ r ∈ refs, ∃ i ∈ box r.shape, r.cell i = c

def Accesses (as : List Action) (c : Ref.Cell) : Prop := ∃ a ∈ as, Ref.Among a.buffers c

def Changes (as : List Action) (c : Ref.Cell) : Prop := ∃ a ∈ as, Ref.Among a.outputs c

namespace Node

def allocated (h : Node) : List ValueId := if h.kind = .alloc then h.defined else []

end Node

namespace Code

def allocated (x : Code) : List ValueId := x.heads.flatMap Node.allocated

def Independent (body : Code) (runs : List (List Int)) (env : List Int → Env) : Prop :=
  ∀ i ∈ runs, ∀ j ∈ runs, i ≠ j → ∀ c, Changes (body.trace (env i)) c →
    Accesses (body.trace (env j)) c → c.1 ∈ body.allocated

/-- Whenever a parallel loop runs, its iterations are independent. -/
def RaceFree : Code → Env → Prop
  | nil, _ => True
  | node h body rest, env =>
    (h.kind.isParallel = true →
      body.Independent h.kind.iterations fun i => env.setAll h.inductionVars i) ∧
      (∀ i ∈ h.kind.iterations, body.RaceFree (env.setAll h.inductionVars i)) ∧
        rest.RaceFree (h.bind env)

end Code

end KernelLowering
