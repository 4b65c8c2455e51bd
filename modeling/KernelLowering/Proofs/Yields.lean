import KernelLowering.Fault
import Mathlib.Data.List.Forall2

namespace KernelLowering

/-- The computation gives a result with property `q`, or it overflows and `v` holds. -/
def Yields {α : Type} (v : Prop) (x : Except Fault α) (q : α → Prop) : Prop :=
  match x with
  | .ok a => q a
  | .error fault => fault = .overflow ∧ v

namespace Yields

variable {α β : Type} {v : Prop} {x : Except Fault α} {q q' : α → Prop}

@[simp] theorem ok_iff {a : α} : Yields v (.ok a) q ↔ q a := Iff.rfl

@[simp] theorem pure_iff {a : α} : Yields v (pure a) q ↔ q a := Iff.rfl

@[simp] theorem error_iff {fault : Fault} :
    Yields v (.error fault : Except Fault α) q ↔ fault = .overflow ∧ v := Iff.rfl

@[simp] theorem bind_iff {next : α → Except Fault β} {q : β → Prop} :
    Yields v (x >>= next) q ↔ Yields v x fun a => Yields v (next a) q := by
  cases x <;> rfl

@[simp] theorem map_iff {g : α → β} {q : β → Prop} :
    Yields v (g <$> x) q ↔ Yields v x fun a => q (g a) := by
  cases x <;> rfl

theorem mono (h : Yields v x q) (hq : ∀ a, x = .ok a → q a → q' a) : Yields v x q' := by
  cases x with
  | ok a => exact hq a rfl h
  | error fault => exact h

theorem of_ok {a : α} (h : Yields v x q) (hx : x = .ok a) : q a := by
  subst hx
  exact h

theorem exists_of_not (h : Yields False x q) : ∃ a, x = .ok a ∧ q a := by
  cases x with
  | ok a => exact ⟨a, rfl, h⟩
  | error fault => exact h.2.elim

theorem weaken {v' : Prop} (h : Yields v x q) (hv : v → v') : Yields v' x q := by
  cases x with
  | ok a => exact h
  | error fault => exact ⟨h.1, hv h.2⟩

theorem cases (h : Yields v x q) : (x = .error .overflow ∧ v) ∨ ∃ a, x = .ok a ∧ q a := by
  cases x with
  | ok a => exact .inr ⟨a, rfl, h⟩
  | error fault =>
    obtain ⟨rfl, hv⟩ := h
    exact .inl ⟨rfl, hv⟩

end Yields

/-- The computation gives a result with property `q`, or one of these faults. -/
def Ends {α : Type} (faults : Fault → Prop) (x : Except Fault α) (q : α → Prop) : Prop :=
  match x with
  | .ok a => q a
  | .error fault => faults fault

namespace Ends

variable {α β : Type} {faults : Fault → Prop} {x : Except Fault α} {q q' : α → Prop}

@[simp] theorem ok_iff {a : α} : Ends faults (.ok a) q ↔ q a := Iff.rfl

@[simp] theorem pure_iff {a : α} : Ends faults (pure a) q ↔ q a := Iff.rfl

@[simp] theorem bind_iff {next : α → Except Fault β} {q : β → Prop} :
    Ends faults (x >>= next) q ↔ Ends faults x fun a => Ends faults (next a) q := by
  cases x <;> rfl

@[simp] theorem map_iff {g : α → β} {q : β → Prop} :
    Ends faults (g <$> x) q ↔ Ends faults x fun a => q (g a) := by
  cases x <;> rfl

theorem mono (h : Ends faults x q) (hq : ∀ a, x = .ok a → q a → q' a) : Ends faults x q' := by
  cases x with
  | ok a => exact hq a rfl h
  | error fault => exact h

theorem of_ok {a : α} (h : Ends faults x q) (hx : x = .ok a) : q a := by
  subst hx
  exact h

theorem of_eq_ok (h : ∀ a, x = .ok a → q a) : Ends (fun _ => True) x q := by
  cases x with
  | ok a => exact h a rfl
  | error fault => trivial

theorem weaken {faults' : Fault → Prop} (h : Ends faults x q)
    (hfaults : ∀ fault, x = .error fault → faults fault → faults' fault) : Ends faults' x q := by
  cases x with
  | ok a => exact h
  | error fault => exact hfaults fault rfl h

theorem mapM {g : α → Except Fault β} {r : α → β → Prop} {xs : List α}
    (h : ∀ a ∈ xs, Ends faults (g a) (r a)) :
    Ends faults (xs.mapM g) fun ys => List.Forall₂ (fun a b => g a = .ok b ∧ r a b) xs ys := by
  induction xs with
  | nil => exact .nil
  | cons a xs ih =>
    rw [List.forall_mem_cons] at h
    simp only [List.mapM_cons, bind_iff]
    exact h.1.mono fun b hb hr => (ih h.2).mono fun bs _ hbs => .cons ⟨hb, hr⟩ hbs

end Ends

theorem ends_overflow {α : Type} {x : Except Fault α} {q : α → Prop} :
    Ends (· = .overflow) x q ↔ Yields True x q := by
  cases x with
  | ok a => rfl
  | error fault => simp [Ends]

def Found {ε α : Type} (x : ExceptT ε (Except Fault) α) (a : α) : Prop := x.run = .ok (.ok a)

namespace Found

variable {ε α β : Type} {a : α} {b : β}

@[simp] theorem pure_iff {a' : α} : Found (pure a : ExceptT ε (Except Fault) α) a' ↔ a = a' := by
  show (Except.ok (Except.ok a) : Except Fault (Except ε α)) = _ ↔ _
  simp

@[simp] theorem throw_iff {e : ε} : ¬ Found (throw e : ExceptT ε (Except Fault) α) a := by
  intro h
  cases h

@[simp] theorem bind_iff {x : ExceptT ε (Except Fault) α} {next : α → ExceptT ε (Except Fault) β} :
    Found (x >>= next) b ↔ ∃ a, Found x a ∧ Found (next a) b := by
  show (ExceptT.bind x next).run = _ ↔ ∃ a, x.run = _ ∧ _
  simp only [ExceptT.bind, ExceptT.run, ExceptT.mk, Fault.bind_eq_ok]
  constructor
  · rintro ⟨y, hx, hy⟩
    cases y with
    | ok a => exact ⟨a, hx, hy⟩
    | error reason => cases hy
  · rintro ⟨a, hx, hy⟩
    exact ⟨.ok a, hx, hy⟩

@[simp] theorem lift_iff {x : Except Fault α} :
    Found (liftM x : ExceptT ε (Except Fault) α) a ↔ x = .ok a := by
  show ((Except.ok <$> x : Except Fault (Except ε α)) = _) ↔ _
  cases x with
  | ok a' => simp [Functor.map, Except.map]
  | error fault => simp [Functor.map, Except.map]

theorem ite_iff {c : Prop} [Decidable c] {x y : ExceptT ε (Except Fault) α} (hx : ¬ Found x a) :
    Found (if c then x else y) a ↔ ¬ c ∧ Found y a := by
  split <;> simp_all

theorem forM_iff {xs : List α} {g : α → ExceptT ε (Except Fault) Unit} :
    Found (xs.forM g) () ↔ ∀ x ∈ xs, Found (g x) () := by
  induction xs with
  | nil => simp
  | cons x xs ih =>
    rw [List.forM_eq_forM] at ih ⊢
    rw [List.forM_cons, bind_iff, List.forall_mem_cons, ih]
    exact ⟨fun ⟨_, hx, hxs⟩ => ⟨hx, hxs⟩, fun ⟨hx, hxs⟩ => ⟨(), hx, hxs⟩⟩

theorem mapM_iff {xs : List α} {g : α → ExceptT ε (Except Fault) β} {ys : List β} :
    Found (xs.mapM g) ys ↔ List.Forall₂ (fun x y => Found (g x) y) xs ys := by
  induction xs generalizing ys with
  | nil => simp [eq_comm]
  | cons x xs ih =>
    simp only [List.mapM_cons, bind_iff, pure_iff, List.forall₂_cons_left_iff, ih]
    constructor
    · rintro ⟨y, hy, ys, hys, rfl⟩
      exact ⟨y, ys, hy, hys, rfl⟩
    · rintro ⟨y, ys, hy, hys, rfl⟩
      exact ⟨y, hy, ys, hys, rfl⟩

end Found

section Throws

variable {ε α β : Type}

theorem Found.run_bind {x : ExceptT ε (Except Fault) α} {a : α} {next : α → ExceptT ε (Except Fault) β}
    (h : Found x a) : (x >>= next).run = (next a).run := by
  show (ExceptT.bind x next).run = _
  rw [ExceptT.bind, ExceptT.run, ExceptT.mk, show x = Except.ok (Except.ok a) from h]
  rfl

theorem run_bind_of_error {x : ExceptT ε (Except Fault) α} {e : ε}
    {next : α → ExceptT ε (Except Fault) β} (h : x.run = .ok (.error e)) :
    (x >>= next).run = .ok (.error e) := by
  show (ExceptT.bind x next).run = _
  rw [ExceptT.bind, ExceptT.run, ExceptT.mk, show x = Except.ok (Except.error e) from h]
  rfl

theorem run_forM_cases {e : ε} {p : α → Prop} {xs : List α} {g : α → ExceptT ε (Except Fault) Unit}
    (h : ∀ x ∈ xs, p x ∧ (g x).run = .ok (.ok ()) ∨ ¬ p x ∧ (g x).run = .ok (.error e)) :
    (∀ x ∈ xs, p x) ∧ (xs.forM g).run = .ok (.ok ()) ∨
      (∃ x ∈ xs, ¬ p x) ∧ (xs.forM g).run = .ok (.error e) := by
  induction xs with
  | nil => exact .inl ⟨by simp, rfl⟩
  | cons x xs ih =>
    rw [List.forall_mem_cons] at h ⊢
    rw [List.exists_mem_cons_iff, List.forM_eq_forM, List.forM_cons]
    rcases h.1 with ⟨hp, hx⟩ | ⟨hp, hx⟩
    · rw [Found.run_bind hx]
      rcases ih h.2 with ⟨hall, hrun⟩ | ⟨hsome, hrun⟩
      · exact .inl ⟨⟨hp, hall⟩, hrun⟩
      · exact .inr ⟨.inr hsome, hrun⟩
    · exact .inr ⟨.inl hp, run_bind_of_error hx⟩

end Throws

theorem Fault.mapM_eq_ok {α β : Type} {xs : List α} {g : α → Except Fault β} {ys : List β} :
    xs.mapM g = .ok ys ↔ List.Forall₂ (fun x y => g x = .ok y) xs ys := by
  induction xs generalizing ys with
  | nil => simp [eq_comm, pure, Except.pure]
  | cons x xs ih =>
    simp only [List.mapM_cons, bind_eq_ok, pure, Except.pure, List.forall₂_cons_left_iff, ih]
    constructor
    · rintro ⟨y, hy, ys, hys, ⟨⟩⟩
      exact ⟨y, ys, hy, hys, rfl⟩
    · rintro ⟨y, ys, hy, hys, rfl⟩
      exact ⟨y, hy, ys, hys, rfl⟩

theorem Fault.toOption_map_eq_some {α β : Type} {x : Except Fault α} {g : α → β} {b : β} :
    x.toOption.map g = some b ↔ ∃ a, x = .ok a ∧ g a = b := by
  cases x <;> simp [Except.toOption]

end KernelLowering
