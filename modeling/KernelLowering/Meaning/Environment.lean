import KernelLowering.Meaning.Index
import KernelLowering.Program.Code
import Mathlib.Algebra.GroupWithZero.Nat
import Mathlib.Algebra.Ring.Int.Defs

namespace KernelLowering

structure Ref where
  root : ValueId
  place : List Int → List Int
  shape : Shape

namespace Ref

def whole (root : ValueId) (shape : Shape) : Ref := ⟨root, id, shape⟩

abbrev Cell := ValueId × List Int

def cell (r : Ref) (i : List Int) : Cell := (r.root, r.place i)

end Ref

inductive Item where
  | index (value : Int)
  | buffer (ref : Ref)

namespace Item

def index? : Item → Option Int
  | index value => some value
  | buffer _ => none

def ref? : Item → Option Ref
  | index _ => none
  | buffer ref => some ref

end Item

abbrev Env := ValueId → Option Item

namespace Env

def index? (env : Env) (v : ValueId) : Option Int := (env v).bind Item.index?

def ref? (env : Env) (v : ValueId) : Option Ref := (env v).bind Item.ref?

def set (env : Env) (v : ValueId) (item : Option Item) : Env :=
  fun u => if u = v then item else env u

def setAll (env : Env) : List ValueId → List Int → Env
  | v :: vs, i :: is => (env.set v (some (.index i))).setAll vs is
  | _, _ => env

@[simp] theorem set_self (env : Env) (v : ValueId) (item : Option Item) :
    env.set v item v = item := if_pos rfl

theorem set_of_ne (env : Env) {v u : ValueId} (item : Option Item) (h : u ≠ v) :
    env.set v item u = env u := if_neg h

theorem setAll_of_not_mem (env : Env) {vs : List ValueId} {is : List Int} {u : ValueId}
    (h : u ∉ vs) : env.setAll vs is u = env u := by
  induction vs generalizing env is with
  | nil => rfl
  | cons v vs ih =>
    cases is with
    | nil => rfl
    | cons i is =>
      rw [List.mem_cons, not_or] at h
      exact (ih _ h.2).trans (env.set_of_ne _ h.1)

theorem index?_congr {env env' : Env} {v : ValueId} (h : env v = env' v) :
    env.index? v = env'.index? v := by
  rw [index?, index?, h]

theorem ref?_congr {env env' : Env} {v : ValueId} (h : env v = env' v) :
    env.ref? v = env'.ref? v := by
  rw [ref?, ref?, h]

/-- The function is entered with its arguments in buffers of their own. -/
def entry (f : Function) : Env := fun v =>
  if v.index < f.arity then
    ((f.value? v).bind (·.type.buffer?)).map fun type => .buffer (.whole v type.shape)
  else
    none

end Env

def linearIndex : Shape → List Int → Int
  | _ :: shape, i :: is => i * shape.prod + linearIndex shape is
  | _, _ => 0

namespace Window

def shift (w : Window) (starts i : List Int) : List Int :=
  List.zipWith (· + ·) starts (List.zipWith (· * ·) i w.strides)

theorem shift_of_ones {w : Window} {starts i : List Int} (hones : ∀ stride ∈ w.strides, stride = 1)
    (hi : i.length ≤ w.strides.length) : w.shift starts i = List.zipWith (· + ·) starts i := by
  have hmul : List.zipWith (· * ·) i w.strides = i := by
    generalize w.strides = strides at hones hi
    induction i generalizing strides with
    | nil => rfl
    | cons x i ih =>
      obtain ⟨stride, strides, rfl⟩ :=
        List.exists_cons_of_length_pos (Nat.lt_of_lt_of_le (Nat.succ_pos _) hi)
      rw [List.forall_mem_cons] at hones
      rw [List.zipWith_cons_cons, hones.1, Int.mul_one, ih strides hones.2 (Nat.le_of_succ_le_succ hi)]
  rw [shift, hmul]

def startAt (env : Env) : SuppliedOffset ValueId → Option Int
  | .static value => some value
  | .supplied v => env.index? v
  | .missing => none

def starts (w : Window) (env : Env) (supplied : List ValueId) : Option (List Int) :=
  (Offset.supply w.offsets supplied).mapM (startAt env)

end Window

namespace Node

def item (h : Node) (env : Env) : Option Item :=
  match h.kind, h.operands, h.result with
  | .constant value, _, _ => some (.index value)
  | .addIndex, [x, y], _ => do return .index ((← env.index? x) + (← env.index? y))
  | .alloc, _, some (v, .buffer type) => some (.buffer (.whole v type.shape))
  | .view, [x], some (_, .buffer type) => do
    let r ← env.ref? x
    let byte (i : List Int) := type.element.size * linearIndex type.shape i
    return .buffer ⟨r.root, fun i => r.place [byte i], type.shape⟩
  | .subView w, x :: supplied, _ => do
    let r ← env.ref? x
    let starts ← w.starts env supplied
    return .buffer ⟨r.root, fun i => r.place (w.shift starts i), w.sizes⟩
  | _, _, _ => none

def bind (h : Node) (env : Env) : Env :=
  match h.result with
  | some (v, _) => env.set v (h.item env)
  | none => env

theorem bind_of_not_mem {h : Node} {u : ValueId} (env : Env) (hu : u ∉ h.defined) :
    h.bind env u = env u := by
  unfold bind
  cases hr : h.result with
  | none => rfl
  | some r =>
    refine env.set_of_ne _ ?_
    rintro rfl
    simp [defined, hr] at hu

@[simp] theorem bind_value (op : OpId) (kind : OpKind) (operands : List ValueId) (v : ValueId)
    (type : ValueType) (env : Env) : (value op kind operands v type).bind env =
      env.set v ((value op kind operands v type).item env) := rfl

theorem item_subView {w : Window} {x : ValueId} {supplied : List ValueId} {env : Env} {r : Ref}
    {starts : List Int} (op : OpId) (v : ValueId) (type : ValueType) (hr : env.ref? x = some r)
    (hs : w.starts env supplied = some starts) :
    (value op (.subView w) (x :: supplied) v type).item env =
      some (.buffer ⟨r.root, fun i => r.place (w.shift starts i), w.sizes⟩) := by
  simp [item, value, hr, hs]

@[simp] theorem bind_effect (op : OpId) (kind : OpKind) (operands : List ValueId)
    (marker : Option Stage) (env : Env) : (effect op kind operands marker).bind env = env := rfl

end Node

namespace OpKind

def iterations (kind : OpKind) : List (List Int) :=
  if kind.isLoop then tuples (kind.loopRanges.map LoopRange.values) else []

end OpKind

namespace Code

def after : Code → Env → Env
  | nil, env => env
  | node h _ rest, env => rest.after (h.bind env)

@[simp] theorem after_append (x y : Code) (env : Env) :
    (x ++ y).after env = y.after (x.after env) := by
  induction x generalizing env with
  | nil => rfl
  | node h body rest _ ih => exact ih (h.bind env)

theorem after_of_not_mem {x : Code} {u : ValueId} (env : Env) (hu : u ∉ x.defined) :
    x.after env u = env u := by
  induction x generalizing env with
  | nil => rfl
  | node h body rest _ ih =>
    simp only [defined_node, List.mem_append, not_or] at hu
    exact (ih _ hu.2.2).trans (h.bind_of_not_mem env hu.1)

/-- `p` holds of every operation where it runs. -/
def Throughout (p : Node → Env → Prop) : Code → Env → Prop
  | nil, _ => True
  | node h body rest, env =>
    p h env ∧ (∀ i ∈ h.kind.iterations, body.Throughout p (env.setAll h.inductionVars i)) ∧
      rest.Throughout p (h.bind env)

theorem throughout_append {p : Node → Env → Prop} {x y : Code} {env : Env} :
    (x ++ y).Throughout p env ↔ x.Throughout p env ∧ y.Throughout p (x.after env) := by
  induction x generalizing env with
  | nil => simp [Throughout, after]
  | node h body rest _ ih => simp [Throughout, after, ih, and_assoc]

end Code

end KernelLowering
