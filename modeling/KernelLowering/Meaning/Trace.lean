import KernelLowering.Kernel.Kind
import KernelLowering.Meaning.Environment

namespace KernelLowering

inductive Action where
  | alloc (root : ValueId)
  | copy (source destination : Ref)
  | kernel (kind : KernelKind) (operands : List Ref)

/-- The cells of the two factors and of the sum that one multiply-accumulate touches. -/
abbrev Update := List Ref.Cell

namespace KernelKind

def indexAt (map : OperandMap) (point : List Int) : List Int :=
  map.map fun terms => (terms.map fun d => point[d]?.getD 0).sum

def points (kind : KernelKind) (shapes : List Shape) : List (List Int) :=
  match kind.extentsOf shapes with
  | .ok (some extents) => box extents
  | _ => []

def updateAt (kind : KernelKind) (operands : List Ref) (point : List Int) : Update :=
  List.zipWith (fun r map => r.cell (indexAt map point)) operands kind.operandMaps

def updates (kind : KernelKind) (operands : List Ref) : List Update :=
  (kind.points (operands.map (·.shape))).map (kind.updateAt operands)

end KernelKind

theorem Env.mapM_ref?_eq_some {env : Env} {vs : List ValueId} {refs : List Ref} :
    vs.mapM env.ref? = some refs ↔ List.Forall₂ (fun v r => env.ref? v = some r) vs refs := by
  induction vs generalizing refs with
  | nil => cases refs <;> simp
  | cons v vs ih =>
    cases refs with
    | nil => simp [Option.bind_eq_some_iff]
    | cons r refs => simp [Option.bind_eq_some_iff, ih]

namespace Action

def updates : Action → List Update
  | kernel kind operands => kind.updates operands
  | _ => []

end Action

namespace Node

def actions (h : Node) (env : Env) : List Action :=
  match h.kind, h.operands, h.result with
  | .alloc, _, some (v, _) => [.alloc v]
  | .copy, [source, destination], _ =>
    match env.ref? source, env.ref? destination with
    | some source, some destination => [.copy source destination]
    | _, _ => []
  | .kernel kind, operands, _ =>
    match operands.mapM env.ref? with
    | some operands => [.kernel kind operands]
    | none => []
  | _, _, _ => []

theorem actions_of_isLoop {h : Node} (hloop : h.kind.isLoop = true) (env : Env) : h.actions env = [] := by
  unfold actions
  split <;> simp_all [OpKind.isLoop]

end Node

namespace Code

def trace : Code → Env → List Action
  | nil, _ => []
  | node h body rest, env =>
    h.actions env ++
      h.kind.iterations.flatMap (fun i => body.trace (env.setAll h.inductionVars i)) ++
        rest.trace (h.bind env)

def updates (x : Code) (env : Env) : List Update := (x.trace env).flatMap Action.updates

@[simp] theorem trace_append (x y : Code) (env : Env) :
    (x ++ y).trace env = x.trace env ++ y.trace (x.after env) := by
  induction x generalizing env with
  | nil => rfl
  | node h body rest _ ih => simp only [node_append, trace, ih, after, List.append_assoc]

@[simp] theorem updates_append (x y : Code) (env : Env) :
    (x ++ y).updates env = x.updates env ++ y.updates (x.after env) := by
  simp only [updates, trace_append, List.flatMap_append]

def envs : List Node → Env → List Env
  | [], env => [env]
  | h :: loops, env => h.kind.iterations.flatMap fun i => envs loops (env.setAll h.inductionVars i)

theorem trace_within {loops : List Node} (h : ∀ hd ∈ loops, hd.kind.isLoop) (y : Code) (env : Env) :
    (within loops y).trace env = (envs loops env).flatMap y.trace := by
  induction loops generalizing env with
  | nil => simp [within, envs]
  | cons hd loops ih =>
    obtain ⟨hhd, hloops⟩ := List.forall_mem_cons.1 h
    show hd.actions env ++ _ ++ _ = _
    rw [hd.actions_of_isLoop hhd, envs, List.flatMap_assoc]
    simp only [List.nil_append, trace, List.append_nil]
    exact List.flatMap_congr fun i _ => ih hloops _

end Code

end KernelLowering
