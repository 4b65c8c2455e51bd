import KernelLowering.Proofs.Convergence.Sweeps
import KernelLowering.Proofs.Scope.ViewCleanup

namespace KernelLowering

theorem anyM_congr {m : Type → Type} [Monad m] {α : Type} {xs : List α} {p q : α → m Bool}
    (h : ∀ x ∈ xs, p x = q x) : xs.anyM p = xs.anyM q := by
  induction xs with
  | nil => rfl
  | cons x xs ih =>
    rw [List.forall_mem_cons] at h
    rw [List.anyM, List.anyM, h.1, ih h.2]

theorem Inspect.lift_ok_bind {α β : Type} {a : α} {next : α → Inspect β} :
    ((liftM (Except.ok a : Except Fault α) : Inspect α) >>= next) = next a := rfl

theorem Inspect.lift_error_bind {α β : Type} {fault : Fault} {next : α → Inspect β} :
    ((liftM (Except.error fault : Except Fault α) : Inspect α) >>= next) =
      liftM (Except.error fault : Except Fault β) := rfl

variable {f g : Function} {op : OpId} {o o' : Operation}

theorem Function.constant?_congr {v : ValueId} (h : g.definingKind? v = f.definingKind? v) :
    g.constant? v = f.constant? v := by
  rw [constant?, constant?, h]

theorem Function.bufferTypes?_congr {vs : List ValueId}
    (h : ∀ v ∈ vs, g.bufferType? v = f.bufferType? v) : g.bufferTypes? vs = f.bufferTypes? vs := by
  induction vs with
  | nil => rfl
  | cons v vs ih =>
    rw [List.forall_mem_cons] at h
    rw [bufferTypes?, bufferTypes?, h.1, ih h.2]

namespace Function.Alike

variable (h : f.Alike g op o o')

include h

theorem checkKernel (guard : StageGuard) (kind : KernelKind) :
    guard.checkKernel kind o' = guard.checkKernel kind o := by
  rw [StageGuard.checkKernel, StageGuard.checkKernel, StageGuard.check, StageGuard.check, h.kind,
    h.marker]

theorem tiling (t : Tiling) : t.check g op = t.check f op := by
  simp only [Tiling.check, Tiling.plan, h.before, h.after, Inspect.lift_ok_bind, h.operands,
    h.checkKernel, Function.bufferTypes?_congr h.types]

theorem promotion (p : Promotion) : p.check g op = p.check f op := by
  have htile : ∀ i, Promotion.isTile g o.operands i = Promotion.isTile f o.operands i := by
    intro i
    unfold Promotion.isTile
    split
    · rename_i v hv
      rw [h.kinds v (List.mem_of_getElem? hv)]
    · rfl
  simp only [Promotion.check, Promotion.candidates, h.before, h.after, Inspect.lift_ok_bind,
    Fault.ok_bind, h.checkKernel, h.operands, funext htile]

theorem trivialLoops : TrivialLoops.check g op = TrivialLoops.check f op := by
  simp only [TrivialLoops.check, h.before, h.after, Inspect.lift_ok_bind, h.kind]

theorem additionFolding : AdditionFolding.check g op = AdditionFolding.check f op := by
  have hconstants : ∀ v ∈ o.operands, g.constant? v = f.constant? v := fun v hv =>
    Function.constant?_congr (h.kinds v hv)
  simp only [AdditionFolding.check, h.before, h.after, Inspect.lift_ok_bind, h.kind,
    Operation.operand, h.operands]
  rcases hops : o.operands with _ | ⟨lhs, _ | ⟨rhs, rest⟩⟩
  · rfl
  · simp only [List.getElem?_cons_zero, List.getElem?_cons_succ, List.getElem?_nil,
      Fault.require_some, Fault.require_none, Inspect.lift_ok_bind, Inspect.lift_error_bind,
      hconstants lhs (by simp [hops])]
  · simp only [List.getElem?_cons_zero, List.getElem?_cons_succ, Fault.require_some,
      Inspect.lift_ok_bind, hconstants lhs (by simp [hops]), hconstants rhs (by simp [hops])]

theorem offsetFolding : OffsetFolding.check g op = OffsetFolding.check f op := by
  simp only [OffsetFolding.check, h.before, h.after, Inspect.lift_ok_bind, Operation.window, h.kind,
    Operation.offsetOperands, h.operands]
  rcases hops : o.operands with _ | ⟨source, supplied⟩
  · rfl
  · simp only [Inspect.lift_ok_bind]
    rw [anyM_congr fun v hv => ?_]
    rw [Function.constant?_congr (h.kinds v (by simp [hops, hv]))]

theorem check {rule : Rule} (hrule : rule.cleansViews = false) : rule.check g op = rule.check f op := by
  cases rule with
  | tiling t => exact h.tiling t
  | promotion p => exact h.promotion p
  | trivialLoops => exact h.trivialLoops
  | additionFolding => exact h.additionFolding
  | offsetFolding => exact h.offsetFolding
  | _ => cases hrule

end Function.Alike

theorem Function.Replaces.declines {k : Spine} {b x z : Code} {hd h' : Node} {σ : ValueId → ValueId}
    {new : List Node} (h : f.Replaces g k b x z σ new)
    (hr : f.Represents (k.plug (b ++ .node hd x z))) (hh : h' ∈ k.before b ∨ h' ∈ k.behind z)
    (hops : ∀ v ∈ h'.operands, f.Has v ∧ σ v = v ∧ v ∉ hd.defined ∧ v ∉ x.defined) {rule : Rule}
    (hrule : rule.cleansViews = false) (hd' : rule.Declines f h'.op) : rule.Declines g h'.op := by
  obtain ⟨o, o', halike⟩ := h.alike hr hh hops
  rw [Rule.Declines, halike.check hrule]
  exact hd'

theorem Function.Sheds.declines {k : Spine} {b z : Code} {hd h' : Node}
    (hs : f.Sheds g k b .nil z hd) (hhas : ∀ h ∈ f.code.heads, ∀ v ∈ h.operands, f.Has v)
    (hh : h' ∈ g.code.heads) {rule : Rule} (hrule : rule.cleansViews = false)
    (hdeclines : ∀ h ∈ f.code.heads, rule.Declines f h.op) : rule.Declines g h'.op := by
  rcases hs.replaces.cases hh with hnew | ⟨h₁, hh₁, rfl⟩
  · cases hnew
  have hin : h₁ ∈ f.code.heads :=
    hs.before.code_eq ▸ Spine.mem_heads_iff.2 (hh₁.imp_right .inr)
  rw [Node.rename_id]
  refine hs.replaces.declines hs.before (by simpa [Code.heads] using hh₁) (fun v hv => ?_) hrule
    (hdeclines h₁ hin)
  exact ⟨hhas h₁ hin v hv, rfl,
    fun hdef => hs.unused v hdef h₁ (hs.before.code_eq ▸ hin) hv, by simp⟩

end KernelLowering
