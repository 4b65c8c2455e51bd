import KernelLowering.Fault

namespace KernelLowering.Text

def margin (depth : Nat) : String := "".pushn ' ' (2 * depth)

def indent (depth : Nat) : Except Fault String :=
  let width := 2 * depth
  if 18446744073709551615 < width then .error .overflow
  else if 9223372036854775807 < width then .error .capacityOverflow
  else .ok (margin depth)

theorem indent_eq_ok_iff {depth : Nat} {text : String} :
    indent depth = .ok text ↔ 2 * depth ≤ 9223372036854775807 ∧ text = margin depth := by
  unfold indent
  simp only
  split
  · simp; omega
  · split
    · simp; omega
    · simp [eq_comm]; omega

end KernelLowering.Text
