import KernelLowering.Lowering.Pipeline
import KernelLowering.Proofs.Execution.Outlining
import KernelLowering.Proofs.Tiling.Updates

namespace KernelLowering

variable {p q : Program} {f : Function} {caller hint : String} {op : OpId} {marker : Option Stage}
  {outlined : Outlined} {plan : KernelPlan} {maxSweeps : Nat}

theorem Program.exists_callee_of_outline {o : Operation} (hf : p.find? caller = some f)
    (ho : f.op op = .ok o) (houtline : (p.outline caller op hint marker).outcome = .ok (.ok (q, outlined))) :
    ∃ inner callee, Outline.callee f o outlined.callee marker = .ok (inner, callee) ∧
      q.find? outlined.callee = some callee := by
  obtain ⟨o', inner, g, callee, -, ho', -, -, hcallee, -, rfl⟩ := outline_eq_insert hf houtline
  obtain rfl : o = o' := Except.ok.inj (ho.symm.trans ho')
  refine ⟨inner, callee, hcallee, ?_⟩
  rw [← show callee.name = outlined.callee from (Outline.represents_callee hcallee).1, find?_insert_self]

theorem Fault.toOption_eq_some {α : Type} {x : Except Fault α} {a : α} :
    x.toOption = some a ↔ x = .ok a := by
  cases x <;> simp [Except.toOption]

namespace Pipeline

def runOutlined (p : Program) (caller : String) (op : OpId) (hint : String) (marker : Option Stage)
    (plan : KernelPlan) (maxSweeps : Nat) : Option (Function × Outcome) :=
  match (p.outline caller op hint marker).outcome with
  | .ok (.ok (q, outlined)) =>
    (q.find? outlined.callee).bind fun callee => (run plan maxSweeps callee).outcome.toOption
  | _ => none

theorem runOutlined_eq_some {r : Function × Outcome} :
    runOutlined p caller op hint marker plan maxSweeps = some r ↔ ∃ q outlined callee,
      (p.outline caller op hint marker).outcome = .ok (.ok (q, outlined)) ∧
        q.find? outlined.callee = some callee ∧ (run plan maxSweeps callee).outcome = .ok r := by
  constructor
  · intro h
    rw [runOutlined] at h
    split at h
    · rename_i q outlined houtline
      obtain ⟨callee, hcallee, hrun⟩ := Option.bind_eq_some_iff.1 h
      exact ⟨q, outlined, callee, houtline, hcallee, Fault.toOption_eq_some.1 hrun⟩
    · cases h
  · rintro ⟨q, outlined, callee, houtline, hcallee, hrun⟩
    rw [runOutlined, houtline]
    show (q.find? outlined.callee).bind _ = _
    rw [hcallee, Option.bind_some, hrun]
    rfl

def rowPlan : KernelPlan where
  kind := .matmul
  promoteMid := true
  tileMid := ⟨[3], [], .sequential⟩
  promotionMid := ⟨none, some .l2⟩
  tileLocal := ⟨[3], [], .parallel⟩
  promotionLocal := ⟨none, none⟩

theorem runOutlined_rowPlan :
    (runOutlined ⟨[Tiling.markedProduct]⟩ "product" ⟨0⟩ "kernel" (some .selected) rowPlan 5).map
      (fun r => (r.2.changes, (r.1.collect (·.kind = .alloc)).length)) = some (12, 4) := by
  decide +kernel

def columnPlan : KernelPlan where
  kind := .matmul
  promoteMid := true
  tileMid := ⟨[2], [], .parallel⟩
  promotionMid := ⟨none, some .l2⟩
  tileLocal := ⟨[0, 1], [], .parallel⟩
  promotionLocal := ⟨none, none⟩

theorem runOutlined_columnPlan :
    (runOutlined ⟨[Tiling.markedProduct]⟩ "product" ⟨0⟩ "kernel" (some .selected) columnPlan 5).map
      (fun r => (r.2.changes, (r.1.collect (·.kind.isParallel)).length)) = some (17, 2) := by
  decide +kernel

def eachRowPlan : KernelPlan where
  kind := .matmul
  promoteMid := true
  tileMid := ⟨[3, 2, 2], [2, 1, 0], .sequential⟩
  promotionMid := ⟨none, some .l2⟩
  tileLocal := ⟨[1, 2, 1], [], .parallel⟩
  promotionLocal := ⟨none, none⟩

theorem runOutlined_eachRowPlan :
    (runOutlined ⟨[Tiling.markedProduct]⟩ "product" ⟨0⟩ "kernel" (some .selected) eachRowPlan 4).map
      (·.2.changes) = some 16 := by
  decide +kernel

end Pipeline

end KernelLowering
