import KernelLowering.Lowering.Pass
import KernelLowering.Proofs.Convergence.Pipeline
import KernelLowering.Proofs.Safety.Rules

namespace KernelLowering

instance : LawfulMonad Logged :=
  .mk' _
    (fun x => by
      show Logged.bind x (fun a => Logged.ok a) = x
      obtain ⟨events, outcome⟩ := x
      cases outcome <;> simp [Logged.bind, Logged.ok])
    (fun a next => by
      show Logged.bind (Logged.ok a) next = next a
      simp [Logged.bind, Logged.ok])
    (fun x next next' => by
      show Logged.bind (Logged.bind x next) next' = Logged.bind x fun a => Logged.bind (next a) next'
      obtain ⟨events, outcome⟩ := x
      cases outcome with
      | error fault => simp [Logged.bind]
      | ok a =>
        simp only [Logged.bind]
        cases (next a).outcome <;> simp [List.append_assoc])

theorem Logged.yields_mapM {α β : Type} {v : Prop} {xs : List α} {g : α → Logged β}
    (h : ∀ x ∈ xs, Yields v (g x).outcome fun _ => True) :
    Yields v (xs.mapM g).outcome fun _ => True := by
  induction xs with
  | nil => trivial
  | cons x xs ih =>
    rw [List.forall_mem_cons] at h
    simp only [List.mapM_cons, Logged.outcome_bind, Yields.bind_iff]
    exact h.1.mono fun _ _ _ => (ih h.2).mono fun _ _ _ => trivial

namespace Lowering

def Gives {α : Type} (x : Pass α) (p : Program) (q : α → Program → Prop) : Prop :=
  Yields True (x.run.run p).outcome fun r => ∃ a, r.1 = .ok a ∧ q a r.2

namespace Gives

variable {α β : Type} {p : Program} {x : Pass α} {q q' : α → Program → Prop}

theorem iff_of_outcome {a : α} {p' : Program} (h : (x.run.run p).outcome = .ok (.ok a, p')) :
    Gives x p q ↔ q a p' := by
  rw [Gives, h]
  simp

@[simp] theorem pure_iff {a : α} : Gives (pure a) p q ↔ q a p := iff_of_outcome rfl

@[simp] theorem bind_iff {next : α → Pass β} {q : β → Program → Prop} :
    Gives (x >>= next) p q ↔ Gives x p fun a p' => Gives (next a) p' q := by
  rw [Gives, ExceptT.run_bind, StateT.run_bind, Logged.outcome_bind, Yields.bind_iff, Gives]
  refine iff_of_eq (congrArg (Yields True _) (funext fun ⟨r, p'⟩ => propext ?_))
  cases r with
  | ok a => simp [Gives]
  | error e =>
    refine iff_of_false ?_ (by simp)
    show ¬ ∃ a, (Except.error e : Except LoweringError β) = .ok a ∧ _
    simp

@[simp] theorem get_iff {q : Program → Program → Prop} : Gives get p q ↔ q p p := iff_of_outcome rfl

@[simp] theorem set_iff {p' : Program} {q : PUnit → Program → Prop} : Gives (set p') p q ↔ q ⟨⟩ p' :=
  iff_of_outcome rfl

@[simp] theorem modify_iff {change : Program → Program} {q : PUnit → Program → Prop} :
    Gives (modify change) p q ↔ q ⟨⟩ (change p) := iff_of_outcome rfl

@[simp] theorem logged_iff {x : Logged α} :
    Gives (logged x) p q ↔ Yields True x.outcome fun a => q a p := by
  obtain ⟨events, outcome⟩ := x
  cases outcome with
  | ok a => exact iff_of_outcome rfl
  | error fault => exact Iff.rfl

theorem mono (h : Gives x p q) (hq : ∀ a p', q a p' → q' a p') : Gives x p q' :=
  Yields.mono h fun _ _ ⟨a, ha, hqa⟩ => ⟨a, ha, hq a _ hqa⟩

end Gives

end Lowering

end KernelLowering
