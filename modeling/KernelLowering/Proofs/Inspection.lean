import KernelLowering.Proofs.Yields
import KernelLowering.Rule.Declined

namespace KernelLowering.Inspect

variable {α β : Type} {a : α} {b : β}

def Answers (x : Inspect α) (a : α) : Prop := x.run = .ok (.ok a)

@[simp] theorem answers_pure {a' : α} : Answers (pure a) a' ↔ a = a' := Found.pure_iff

@[simp] theorem answers_throw {reason : Declined} : ¬ Answers (throw reason : Inspect α) a :=
  Found.throw_iff

@[simp] theorem answers_bind {x : Inspect α} {next : α → Inspect β} :
    Answers (x >>= next) b ↔ ∃ a, Answers x a ∧ Answers (next a) b := Found.bind_iff

@[simp] theorem answers_lift {x : Except Fault α} :
    Answers (liftM x : Inspect α) a ↔ x = .ok a := Found.lift_iff

@[simp] theorem answers_orDecline {reason : Declined} {o : Option α} :
    Answers (orDecline reason o) a ↔ o = some a := by
  cases o <;> simp [orDecline]

@[simp] theorem answers_map {x : Inspect α} {g : α → β} :
    Answers (g <$> x) b ↔ ∃ a, Answers x a ∧ g a = b := by
  rw [← bind_pure_comp, answers_bind]
  simp

@[simp] theorem answers_discard {x : Inspect α} {u : Unit} :
    Answers (discard x) u ↔ ∃ a, Answers x a := by
  show Answers ((fun _ => ()) <$> x) u ↔ _
  simp

theorem relyOn_eq_ok {rule : RuleName} {x : Inspect α} : relyOn rule x = .ok a ↔ x.Answers a := by
  simp only [relyOn, Answers, Fault.bind_eq_ok]
  constructor
  · rintro ⟨y, hx, hy⟩
    cases y with
    | ok a' =>
      cases hy
      exact hx
    | error reason => cases hy
  · exact fun h => ⟨_, h, rfl⟩

theorem answers_anyM {xs : List α} {q : α → Inspect Bool} (h : (xs.anyM q).Answers true) :
    ∃ x ∈ xs, (q x).Answers true := by
  induction xs with
  | nil =>
    rw [List.anyM, answers_pure] at h
    cases h
  | cons x xs ih =>
    rw [List.anyM, answers_bind] at h
    obtain ⟨found, hx, h⟩ := h
    cases found with
    | true => exact ⟨x, List.mem_cons_self, hx⟩
    | false =>
      obtain ⟨x', hx', h'⟩ := ih h
      exact ⟨x', List.mem_cons_of_mem x hx', h'⟩

theorem answers_anyM_false {xs : List α} {q : α → Inspect Bool} (h : (xs.anyM q).Answers false) :
    ∀ x ∈ xs, (q x).Answers false := by
  induction xs with
  | nil => simp
  | cons x xs ih =>
    rw [List.anyM, answers_bind] at h
    obtain ⟨found, hx, h⟩ := h
    cases found with
    | true =>
      rw [answers_pure] at h
      cases h
    | false => exact List.forall_mem_cons.2 ⟨hx, ih h⟩

def Refuses (x : Inspect α) (reason : Declined) : Prop := x.run = .ok (.error reason)

variable {reason : Declined}

@[simp] theorem not_refuses_pure : ¬ Refuses (pure a : Inspect α) reason := by
  show ¬ (Except.ok (Except.ok a) : Except Fault (Except Declined α)) = .ok (.error reason)
  simp

@[simp] theorem not_refuses_lift {x : Except Fault α} : ¬ Refuses (liftM x : Inspect α) reason := by
  show ¬ (Except.ok <$> x : Except Fault (Except Declined α)) = .ok (.error reason)
  simp [Fault.map_eq_ok]

@[simp] theorem refuses_throw {reason' : Declined} :
    Refuses (throw reason' : Inspect α) reason ↔ reason' = reason := by
  show (Except.ok (Except.error reason') : Except Fault (Except Declined α)) = .ok (.error reason) ↔ _
  simp

theorem refuses_bind {x : Inspect α} {next : α → Inspect β} : Refuses (x >>= next) reason ↔
    Refuses x reason ∨ ∃ a, x.Answers a ∧ Refuses (next a) reason := by
  show (ExceptT.bind x next).run = _ ↔ x.run = _ ∨ ∃ a, x.run = _ ∧ (next a).run = _
  simp only [ExceptT.bind, ExceptT.run, ExceptT.mk, Fault.bind_eq_ok]
  constructor
  · rintro ⟨r, hx, h⟩
    cases r with
    | ok a => exact .inr ⟨a, hx, h⟩
    | error reason' =>
      cases h
      exact .inl hx
  · rintro (hx | ⟨a, hx, h⟩)
    · exact ⟨_, hx, rfl⟩
    · exact ⟨_, hx, h⟩

@[simp] theorem refuses_map {x : Inspect α} {g : α → β} :
    Refuses (g <$> x) reason ↔ Refuses x reason := by
  rw [← bind_pure_comp, refuses_bind]
  simp

@[simp] theorem refuses_discard {x : Inspect α} : Refuses (discard x) reason ↔ Refuses x reason :=
  refuses_map (g := fun _ => ())

theorem not_refuses_anyM {xs : List α} {q : α → Inspect Bool}
    (h : ∀ x ∈ xs, ¬ (q x).Refuses reason) : ¬ (xs.anyM q).Refuses reason := by
  induction xs with
  | nil => exact not_refuses_pure
  | cons x xs ih =>
    rw [List.forall_mem_cons] at h
    rw [List.anyM, refuses_bind]
    rintro (hx | ⟨found, -, hrest⟩)
    · exact h.1 hx
    · cases found with
      | true => exact not_refuses_pure hrest
      | false => exact ih h.2 hrest

/-- The inspection declines or its answer has property `q`, or it overflows and `p` holds. -/
def Gives (p : Prop) (x : Inspect α) (q : α → Prop) : Prop :=
  Yields p x.run fun r => ∀ a, r = .ok a → q a

variable {p : Prop} {q : α → Prop}

@[simp] theorem gives_pure : Gives p (pure a) q ↔ q a := by
  show (∀ a', Except.ok a = Except.ok a' → q a') ↔ q a
  simp

@[simp] theorem gives_throw {reason : Declined} : Gives p (throw reason : Inspect α) q := by
  show ∀ a, (Except.error reason : Except Declined α) = .ok a → q a
  simp

@[simp] theorem gives_bind {x : Inspect α} {next : α → Inspect β} {q : β → Prop} :
    Gives p (x >>= next) q ↔ Gives p x fun a => Gives p (next a) q := by
  show Yields p (ExceptT.bind x next).run _ ↔ Yields p x.run _
  simp only [ExceptT.bind, ExceptT.run, ExceptT.mk, Yields.bind_iff]
  have hcases : ∀ r : Except Declined α, Yields p (ExceptT.bindCont next r)
      (fun r => ∀ b, r = .ok b → q b) ↔ ∀ a, r = .ok a → Gives p (next a) q := by
    intro r
    cases r with
    | ok a =>
      show Gives p (next a) q ↔ _
      simp
    | error reason =>
      show (∀ b, (Except.error reason : Except Declined β) = .ok b → q b) ↔ _
      simp
  rw [show (fun r => Yields p (ExceptT.bindCont next r) fun r => ∀ b, r = .ok b → q b) =
    fun r => ∀ a, r = .ok a → Gives p (next a) q from funext fun r => propext (hcases r)]

@[simp] theorem gives_lift {x : Except Fault α} :
    Gives p (liftM x : Inspect α) q ↔ Yields p x q := by
  show Yields p (Except.ok <$> x : Except Fault (Except Declined α)) _ ↔ _
  simp

@[simp] theorem gives_orDecline {reason : Declined} {o : Option α} :
    Gives p (orDecline reason o) q ↔ ∀ a, o = some a → q a := by
  cases o <;> simp [orDecline]

@[simp] theorem gives_map {x : Inspect α} {g : α → β} {q : β → Prop} :
    Gives p (g <$> x) q ↔ Gives p x fun a => q (g a) := by
  rw [← bind_pure_comp, gives_bind]
  simp

@[simp] theorem gives_discard {x : Inspect α} {q : Unit → Prop} :
    Gives p (discard x) q ↔ Gives p x fun _ => q () :=
  gives_map (g := fun _ => ())

theorem gives_anyM {xs : List α} {g : α → Inspect Bool}
    (h : ∀ x ∈ xs, Gives p (g x) fun _ => True) : Gives p (xs.anyM g) fun _ => True := by
  induction xs with
  | nil => exact gives_pure.2 trivial
  | cons x xs ih =>
    rw [List.forall_mem_cons] at h
    rw [List.anyM, gives_bind]
    refine Yields.mono h.1 fun r _ _ found _ => ?_
    cases found with
    | true => exact gives_pure.2 trivial
    | false => exact ih h.2

theorem Gives.of_answers {x : Inspect α} (h : Gives p x q) (ha : x.Answers a) : q a := by
  rw [Gives, show x.run = _ from ha] at h
  exact h a rfl

theorem Gives.mono {x : Inspect α} {q' : α → Prop} (h : Gives p x q)
    (hq : ∀ a, x.Answers a → q a → q' a) : Gives p x q' :=
  Yields.mono h fun r hr h a ha => hq a (by rw [Answers, hr, ha]) (h a ha)

def EndsWith (faults : Fault → Prop) (x : Inspect α) (q : α → Prop) : Prop :=
  Ends faults x.run fun r => ∀ a, r = .ok a → q a

variable {faults : Fault → Prop}

theorem Gives.endsWith {x : Inspect α} (h : Gives True x q) : EndsWith (· = .overflow) x q :=
  ends_overflow.2 h

theorem EndsWith.mono {x : Inspect α} {q' : α → Prop} (h : EndsWith faults x q)
    (hq : ∀ a, x.Answers a → q a → q' a) : EndsWith faults x q' :=
  Ends.mono h fun r hr h a ha => hq a (by rw [Answers, hr, ha]) (h a ha)

theorem endsWith_of_gives {x : Inspect α} {claim : Prop} (hgives : claim → Gives True x fun _ => True)
    (hanswers : ∀ a, x.Answers a → q a) : EndsWith (fun fault => claim → fault = .overflow) x q := by
  by_cases h : claim
  · simp only [h, true_imp_iff]
    exact ((hgives h).mono fun a ha _ => hanswers a ha).endsWith
  · simp only [h, false_imp_iff]
    exact Ends.of_eq_ok fun _ hr a ha => hanswers a (by rw [Answers, hr, ha])

end KernelLowering.Inspect
