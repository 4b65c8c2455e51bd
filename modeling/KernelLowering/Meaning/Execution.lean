import KernelLowering.Meaning.Environment

namespace KernelLowering

structure Instance where
  value : ValueId
  turn : Nat
  deriving DecidableEq, Repr

inductive Datum where
  | index (value : Int)
  | buffer (root : Instance) (place : List Int → List Int) (shape : Shape)

abbrev Data := ValueId → Option Datum

abbrev Turns := ValueId → Nat

namespace Data

def index? (data : Data) (v : ValueId) : Option Int :=
  match data v with
  | some (.index i) => some i
  | _ => none

def set (data : Data) (v : ValueId) (d : Option Datum) : Data := fun u => if u = v then d else data u

def setAll (data : Data) : List ValueId → List Int → Data
  | v :: vs, i :: is => (data.set v (some (.index i))).setAll vs is
  | _, _ => data

def start (data : Data) : SuppliedOffset ValueId → Option Int
  | .static value => some value
  | .supplied v => data.index? v
  | .missing => none

def starts (data : Data) (w : Window) (supplied : List ValueId) : Option (List Int) :=
  (Offset.supply w.offsets supplied).mapM data.start

def entry (f : Function) (arguments : List Datum) : Data := fun v =>
  if v.index < f.arity then arguments[v.index]? else none

theorem index?_eq_some {data : Data} {v : ValueId} {i : Int} :
    data.index? v = some i ↔ data v = some (.index i) := by
  unfold index?
  split <;> simp_all

@[simp] theorem set_self (data : Data) (v : ValueId) (d : Option Datum) : data.set v d v = d :=
  if_pos rfl

theorem set_of_ne (data : Data) {v u : ValueId} (d : Option Datum) (h : u ≠ v) :
    data.set v d u = data u := if_neg h

theorem setAll_of_not_mem (data : Data) {vs : List ValueId} {is : List Int} {u : ValueId}
    (h : u ∉ vs) : data.setAll vs is u = data u := by
  induction vs generalizing data is with
  | nil => rfl
  | cons v vs ih =>
    cases is with
    | nil => rfl
    | cons i is =>
      rw [List.mem_cons, not_or] at h
      exact (ih _ h.2).trans (data.set_of_ne _ h.1)

theorem setAll_cases (data : Data) (vs : List ValueId) (is : List Int) (u : ValueId) :
    (∀ data' : Data, data'.setAll vs is u = data' u) ∨
      u ∈ vs ∧ ∃ i, ∀ data' : Data, data'.setAll vs is u = some (.index i) := by
  induction vs generalizing data is with
  | nil => exact .inl fun _ => rfl
  | cons v vs ih =>
    cases is with
    | nil => exact .inl fun _ => rfl
    | cons i is =>
      rcases ih data is with h | ⟨hu, j, h⟩
      · by_cases huv : u = v
        · subst u
          exact .inr ⟨List.mem_cons_self, i, fun data' => (h _).trans (data'.set_self v _)⟩
        · exact .inl fun data' => (h _).trans (data'.set_of_ne _ huv)
      · exact .inr ⟨List.mem_cons_of_mem v hu, j, fun _ => h _⟩

end Data

inductive Shown where
  | index (value : Int)
  | buffer (root : Instance) (elements : List (List Int))
  deriving DecidableEq, Repr

def Datum.shown : Datum → Shown
  | index value => .index value
  | buffer root place shape => .buffer root ((box shape).map place)

/-- An operation that has run. An operand shows nothing if it has no value. -/
structure Effect where
  kind : OpKind
  operands : List (Option Shown)
  deriving DecidableEq, Repr

namespace Effect

def Complete (e : Effect) : Prop := ∀ o ∈ e.operands, o.isSome

instance (e : Effect) : Decidable e.Complete :=
  inferInstanceAs (Decidable (∀ o ∈ e.operands, o.isSome))

end Effect

def OpKind.acts : OpKind → Bool
  | copy | dealloc | kernel _ | call _ | ret => true
  | _ => false

namespace Node

def datum (h : Node) (turns : Turns) (data : Data) : Option Datum :=
  match h.kind, h.operands, h.result with
  | .constant value, _, _ => some (.index value)
  | .addIndex, x :: y :: _, _ =>
    match data x, data y with
    | some (.index i), some (.index j) => some (.index (i + j))
    | _, _ => none
  | .alloc, _, some (v, .buffer type) => some (.buffer ⟨v, turns v⟩ id type.shape)
  | .view, x :: _, some (_, .buffer type) =>
    match data x with
    | some (.buffer root place _) =>
      let byte (i : List Int) := type.element.size * linearIndex type.shape i
      some (.buffer root (fun i => place [byte i]) type.shape)
    | _ => none
  | .subView w, x :: supplied, _ =>
    match data x, data.starts w supplied with
    | some (.buffer root place _), some starts =>
      some (.buffer root (fun i => place (w.shift starts i)) w.sizes)
    | _, _ => none
  | _, _, _ => none

def settle (h : Node) (turns : Turns) (data : Data) : Data :=
  match h.result with
  | some (v, _) => data.set v (h.datum turns data)
  | none => data

def allocations (h : Node) (v : ValueId) : Nat :=
  if h.kind = .alloc ∧ h.result.map (·.1) = some v then 1 else 0

def effects (h : Node) (data : Data) : List Effect :=
  if h.kind.acts then [⟨h.kind, h.operands.map fun v => (data v).map Datum.shown⟩] else []

theorem settle_of_not_mem {h : Node} {u : ValueId} (turns : Turns) (data : Data)
    (hu : u ∉ h.defined) : h.settle turns data u = data u := by
  unfold settle
  cases hr : h.result with
  | none => rfl
  | some r =>
    refine data.set_of_ne _ ?_
    rintro rfl
    simp [defined, hr] at hu

theorem settle_cases {h : Node} {turns : Turns} {data : Data} {u : ValueId} {d : Datum}
    (hu : h.settle turns data u = some d) :
    data u = some d ∨ ∃ t, h.result = some (u, t) ∧ h.datum turns data = some d := by
  unfold settle at hu
  cases hr : h.result with
  | none =>
    rw [hr] at hu
    exact .inl hu
  | some r =>
    obtain ⟨v, t⟩ := r
    rw [hr] at hu
    by_cases huv : u = v
    · subst u
      exact .inr ⟨t, rfl, (data.set_self v _).symm.trans hu⟩
    · exact .inl ((data.set_of_ne _ huv).symm.trans hu)

end Node

namespace Code

def allocations : Code → ValueId → Nat
  | nil, _ => 0
  | node h body rest, v =>
    h.allocations v + h.kind.iterations.length * body.allocations v + rest.allocations v

def settle : Code → Turns → Data → Data
  | nil, _, data => data
  | node h body rest, turns, data =>
    rest.settle (fun v => turns v + (h.allocations v + h.kind.iterations.length * body.allocations v))
      (h.settle turns data)

def effects : Code → Turns → Data → List Effect
  | nil, _, _ => []
  | node h body rest, turns, data =>
    h.effects data ++
      (h.kind.iterations.zipIdx.flatMap fun (i, n) =>
        body.effects (fun v => turns v + n * body.allocations v) (data.setAll h.inductionVars i)) ++
      rest.effects
        (fun v => turns v + (h.allocations v + h.kind.iterations.length * body.allocations v))
        (h.settle turns data)

@[simp] theorem allocations_append (x y : Code) (v : ValueId) :
    (x ++ y).allocations v = x.allocations v + y.allocations v := by
  induction x with
  | nil => exact (Nat.zero_add _).symm
  | node h body rest _ ih => simp only [node_append, allocations, ih, Nat.add_assoc]

theorem settle_append (x y : Code) (turns : Turns) (data : Data) :
    (x ++ y).settle turns data =
      y.settle (fun v => turns v + x.allocations v) (x.settle turns data) := by
  induction x generalizing turns data with
  | nil => rfl
  | node h body rest _ ih => simp only [node_append, settle, allocations, ih, Nat.add_assoc]

theorem effects_append (x y : Code) (turns : Turns) (data : Data) :
    (x ++ y).effects turns data =
      x.effects turns data ++ y.effects (fun v => turns v + x.allocations v) (x.settle turns data) := by
  induction x generalizing turns data with
  | nil => rfl
  | node h body rest _ ih =>
    simp only [node_append, effects, settle, allocations, ih, List.append_assoc, Nat.add_assoc]

theorem settle_of_not_mem {x : Code} {u : ValueId} (turns : Turns) (data : Data)
    (hu : u ∉ x.defined) : x.settle turns data u = data u := by
  induction x generalizing turns data with
  | nil => rfl
  | node h body rest _ ih =>
    simp only [defined_node, List.mem_append, not_or] at hu
    exact (ih _ _ hu.2.2).trans (h.settle_of_not_mem turns data hu.1)

end Code

namespace Function

/-- What the function does on these arguments. -/
def effects (f : Function) (arguments : List Datum) : List Effect :=
  f.code.effects (fun _ => 0) (Data.entry f arguments)

end Function

def Data.passed (data : Data) (callee : Function) (operands : List ValueId) : Data := fun v =>
  if v.index < callee.arity then operands[v.index]?.bind data else none

namespace Function

def calledEffects (callee : Function) (turns : Turns) (data : Data) : List Effect :=
  (callee.code.effects turns data).filter (·.kind ≠ .ret)

end Function

def Node.expansion (call : OpId) (callee : Function) (h : Node) (turns : Turns) (data : Data) :
    List Effect :=
  if h.op = call then callee.calledEffects turns (data.passed callee h.operands) else h.effects data

def Code.expansion (call : OpId) (callee : Function) : Code → Turns → Data → List Effect
  | nil, _, _ => []
  | node h body rest, turns, data =>
    h.expansion call callee turns data ++
      (h.kind.iterations.zipIdx.flatMap fun (i, n) =>
        body.expansion call callee (fun v => turns v + n * body.allocations v)
          (data.setAll h.inductionVars i)) ++
      rest.expansion call callee
        (fun v => turns v + (h.allocations v + h.kind.iterations.length * body.allocations v))
        (h.settle turns data)

/-- What the function does on these arguments if its operation `call` calls `callee`. -/
def Function.expansion (f : Function) (call : OpId) (callee : Function) (arguments : List Datum) :
    List Effect :=
  f.code.expansion call callee (fun _ => 0) (Data.entry f arguments)

end KernelLowering
