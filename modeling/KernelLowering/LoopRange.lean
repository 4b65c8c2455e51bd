import KernelLowering.Checked

namespace KernelLowering

def tripCount (lower upper step : Int) : Except Fault Int := do
  if upper ≤ lower then
    return 0
  let distance ← Checked.sub upper lower
  if 0 < step then
    Checked.add ((distance - 1) / step) 1
  else
    Checked.quot distance step

structure LoopRange where
  lower : Int
  upper : Int
  step : Int
  step_pos : 0 < step := by decide
  deriving DecidableEq, Repr

namespace LoopRange

def make (lower upper step : Int) : Except Fault LoopRange :=
  if h : 0 < step then .ok ⟨lower, upper, step, h⟩ else .error .failedAssertion

def tripCount (r : LoopRange) : Except Fault Int :=
  KernelLowering.tripCount r.lower r.upper r.step

theorem make_eq_ok {lower upper step : Int} {r : LoopRange} :
    make lower upper step = .ok r ↔
      r.lower = lower ∧ r.upper = upper ∧ r.step = step := by
  unfold make
  split
  · constructor
    · intro h
      cases h
      simp
    · rintro ⟨rfl, rfl, rfl⟩
      rfl
  · rename_i h
    constructor
    · intro h'
      cases h'
    · rintro ⟨_, _, rfl⟩
      exact absurd r.step_pos h

theorem tripCount_empty {r : LoopRange} (h : r.upper ≤ r.lower) : r.tripCount = .ok 0 := by
  simp [tripCount, KernelLowering.tripCount, h]
  rfl

end LoopRange

end KernelLowering
