import KernelLowering.Meaning.Trace

namespace KernelLowering

abbrev Memory := Ref.Cell → Int

namespace Memory

def write (m : Memory) (c : Ref.Cell) (value : Int) : Memory := fun d => if d = c then value else m d

def accumulate (m : Memory) : Update → Memory
  | [x, y, z] => m.write z (m z + m x * m y)
  | _ => m

def copy (m : Memory) (source destination : Ref) : Memory :=
  (box source.shape).foldl (fun m i => m.write (destination.cell i) (m (source.cell i))) m

@[simp] theorem write_self (m : Memory) (c : Ref.Cell) (value : Int) : m.write c value c = value :=
  if_pos rfl

theorem write_of_ne (m : Memory) {c d : Ref.Cell} (value : Int) (h : d ≠ c) :
    m.write c value d = m d := if_neg h

end Memory

namespace Action

def Step : Action → Memory → Memory → Prop
  | alloc root, m, m' => ∀ c, c.1 ≠ root → m' c = m c
  | copy source destination, m, m' => m' = m.copy source destination
  | kernel kind operands, m, m' => m' = (kind.updates operands).foldl Memory.accumulate m

theorem exists_step (a : Action) (m : Memory) : ∃ m', a.Step m m' := by
  cases a with
  | alloc root => exact ⟨m, fun _ _ => rfl⟩
  | copy source destination => exact ⟨_, rfl⟩
  | kernel kind operands => exact ⟨_, rfl⟩

end Action

def Runs : List Action → Memory → Memory → Prop
  | [], m, m' => m' = m
  | a :: as, m, m' => ∃ between, a.Step m between ∧ Runs as between m'

theorem runs_append {as bs : List Action} {m m' : Memory} :
    Runs (as ++ bs) m m' ↔ ∃ between, Runs as m between ∧ Runs bs between m' := by
  induction as generalizing m with
  | nil => simp [Runs]
  | cons a as ih =>
    simp only [List.cons_append, Runs, ih]
    constructor
    · rintro ⟨m₁, ha, m₂, has, hbs⟩
      exact ⟨m₂, ⟨m₁, ha, has⟩, hbs⟩
    · rintro ⟨m₂, ⟨m₁, ha, has⟩, hbs⟩
      exact ⟨m₁, ha, m₂, has, hbs⟩

theorem exists_runs (as : List Action) (m : Memory) : ∃ m', Runs as m m' := by
  induction as generalizing m with
  | nil => exact ⟨m, rfl⟩
  | cons a as ih =>
    obtain ⟨m₁, ha⟩ := a.exists_step m
    obtain ⟨m₂, has⟩ := ih m₁
    exact ⟨m₂, m₁, ha, has⟩

end KernelLowering
