import KernelLowering.Fault

namespace KernelLowering.Checked

def minValue : Int := -9223372036854775808

def maxValue : Int := 9223372036854775807

def Fits (x : Int) : Prop := minValue ≤ x ∧ x ≤ maxValue

instance (x : Int) : Decidable (Fits x) :=
  inferInstanceAs (Decidable (minValue ≤ x ∧ x ≤ maxValue))

def fit (x : Int) : Except Fault Int :=
  if Fits x then .ok x else .error .overflow

def add (a b : Int) : Except Fault Int := fit (a + b)

def sub (a b : Int) : Except Fault Int := fit (a - b)

def mul (a b : Int) : Except Fault Int := fit (a * b)

def quot (a b : Int) : Except Fault Int :=
  if b = 0 then .error .divideByZero else fit (a.tdiv b)

def sum (xs : List Int) : Except Fault Int := xs.foldlM add 0

def product (xs : List Int) : Except Fault Int := xs.foldlM mul 1

theorem fit_eq_ok {x y : Int} : fit x = .ok y ↔ Fits x ∧ x = y := by
  unfold fit
  split <;> simp_all

theorem fit_of_fits {x : Int} (h : Fits x) : fit x = .ok x := by
  simp [fit, h]

theorem add_eq_ok {a b c : Int} : add a b = .ok c ↔ Fits (a + b) ∧ a + b = c := fit_eq_ok

theorem sub_eq_ok {a b c : Int} : sub a b = .ok c ↔ Fits (a - b) ∧ a - b = c := fit_eq_ok

theorem mul_eq_ok {a b c : Int} : mul a b = .ok c ↔ Fits (a * b) ∧ a * b = c := fit_eq_ok

end KernelLowering.Checked
