import KernelLowering.Outline
import KernelLowering.Program.KernelFunction
import KernelLowering.Proofs.Arena.Cursor

namespace KernelLowering

theorem Function.empty_represents (name : String) (arguments : List ValueType) :
    (Function.empty name arguments).Represents .nil where
  body := rfl
  places := trivial
  nodup := List.nodup_nil
  live := by simp [Function.op?, Function.empty]
  result := by simp [Code.heads]
  vars := by simp [Code.heads]
  var := by simp [Code.heads]
  argument := by
    intro i hi
    have hi' : i < arguments.length := hi
    exact ⟨arguments[i], by simp [Function.value?, Function.empty, hi']⟩
  definer := by
    intro v t op hv
    simp [Function.value?, Function.empty] at hv

theorem Cursor.empty (name : String) (arguments : List ValueType) :
    Cursor ⟨Function.empty name arguments, .atEnd none⟩ .body .nil .nil :=
  ⟨Function.empty_represents name arguments, rfl⟩

theorem callee_wellFormed {f : Function} {o : Operation} {name : String} {marker : Option Stage}
    {r : OpId × Function} (h : Outline.callee f o name marker = .ok r) : r.2.WellFormed := by
  obtain ⟨types, -, h⟩ := Fault.bind_eq_ok.1 h
  dsimp only at h
  generalize hempty : Function.empty name types = empty at h
  refine Yields.of_ok (v := False) (q := fun r => r.2.WellFormed) ?_ h
  subst hempty
  rw [Build.yields_runOn]
  simp only [Build.yields_bind, Build.yields_discard, Build.yields_pure]
  refine ((Cursor.empty _ _).yields_insert _ _ _ _).mono fun r _ hw => ?_
  refine (hw.2.cursor.yields_effect _ _ _ rfl).mono fun r' _ hw' => ?_
  exact hw'.cursor.represents.wellFormed

end KernelLowering
