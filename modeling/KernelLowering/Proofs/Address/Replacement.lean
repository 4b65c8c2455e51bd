import KernelLowering.Proofs.Address.Evaluation
import KernelLowering.Proofs.Arena.Replacement
import KernelLowering.Proofs.Simulation.Renaming

namespace KernelLowering

variable {f g : Function} {c c' : Code} {bindings : Bindings} {limit limit' d d' : Nat}
  {σ : ValueId → ValueId} {keep : ValueId → Prop} {v root : ValueId} {a : IndexArray}

theorem Code.OffsetAt.mono {o : SuppliedOffset ValueId} {n : Int}
    (h : c.OffsetAt bindings limit o n) (hlimit : limit ≤ limit') :
    c.OffsetAt bindings limit' o n := by
  cases h with
  | static n => exact .static n
  | supplied h => exact .supplied (h.mono hlimit)

theorem Function.ViewAt.mono (h : f.ViewAt c bindings limit d v root a) (hlimit : limit ≤ limit')
    (hd : d ≤ d') : f.ViewAt c bindings limit' d' v root a := by
  induction h generalizing d' with
  | root htype hdef hshape =>
    cases d' with
    | zero => cases hd
    | succ d' => exact .root htype hdef hshape
  | window htype hdef hkind hops _ hstarts hshows ih =>
    cases d' with
    | zero => cases hd
    | succ d' =>
      exact .window htype hdef hkind hops (ih (Nat.le_of_succ_le_succ hd))
        (hstarts.imp fun _ _ h => h.mono hlimit) hshows

def OpKind.Opens (kind : OpKind) : Prop := kind = .addIndex ∨ kind.window? ≠ none

structure KeepsIndices (c c' : Code) (bindings : Bindings) (σ : ValueId → ValueId)
    (keep : ValueId → Prop) : Prop where
  bound : ∀ v, keep v → bindings.find? (σ v) = bindings.find? v
  definer : ∀ v h, keep v → c.definer? v = some h → h.kind.window? = none →
    c'.definer? (σ v) = some (h.rename σ)
  operands : ∀ h ∈ c.heads, h.kind.Opens → ∀ v ∈ h.operands, keep v

theorem Code.IndexAt.rename {n : Int} (hkeeps : KeepsIndices c c' bindings σ keep) (hv : keep v)
    (h : c.IndexAt bindings d v n) : c'.IndexAt bindings d (σ v) n := by
  induction h with
  | bound hbound => exact .bound ((hkeeps.bound _ hv).trans hbound)
  | constant hbound hdef hkind =>
    exact .constant ((hkeeps.bound _ hv).trans hbound)
      (hkeeps.definer _ _ hv hdef (by rw [hkind]; rfl)) hkind
  | sum hbound hdef hkind hops _ _ hfits ihx ihy =>
    have hkept := hkeeps.operands _ (Code.of_definer? hdef).1 (.inl hkind)
    rw [hops, List.forall_mem_cons, List.forall_mem_cons] at hkept
    have hops' := congrArg (List.map σ) hops
    exact .sum ((hkeeps.bound _ hv).trans hbound)
      (hkeeps.definer _ _ hv hdef (by rw [hkind]; rfl)) hkind hops' (ihx hkept.1) (ihy hkept.2.1)
      hfits

theorem Code.offsetsAt_rename {offsets : List Offset} {supplied : List ValueId} {starts : List Int}
    (hkeeps : KeepsIndices c c' bindings σ keep) (hsupplied : ∀ v ∈ supplied, keep v)
    (h : List.Forall₂ (c.OffsetAt bindings limit) (Offset.supply offsets supplied) starts) :
    List.Forall₂ (c'.OffsetAt bindings limit) (Offset.supply offsets (supplied.map σ)) starts := by
  have hmem : ∀ o ∈ Offset.supply offsets supplied, ∀ v, o = .supplied v → keep v := by
    rintro _ ho v rfl
    exact hsupplied v (Offset.mem_of_supplied ho)
  rw [Offset.supply_map, List.forall₂_map_left_iff]
  refine ((List.forall₂_and_left _ _).2 ⟨hmem, h⟩).imp ?_
  rintro o n ⟨hkept, hat⟩
  cases hat with
  | static n => exact .static n
  | supplied h => exact .supplied (h.rename hkeeps (hkept _ rfl))

structure Rewired (f g : Function) (c c' : Code) (bindings : Bindings) (σ : ValueId → ValueId)
    (keep : ValueId → Prop) (hd : Node) : Prop extends KeepsIndices c c' bindings σ keep where
  grows : f.Grows g
  same : ∀ v, keep v → c.definer? v ≠ some hd → σ v = v
  other : ∀ v h, keep v → c.definer? v = some h → h ≠ hd → c'.definer? v = some (h.rename σ)
  undefined : ∀ v, keep v → f.Has v → c.definer? v = none → c'.definer? v = none

namespace Rewired

variable {hd : Node}

theorem viewAt (h : Rewired f g c c' bindings σ keep hd) (hlimit : limit ≤ limit')
    (hfolded : ∀ d v root a, keep v → c.definer? v = some hd →
      f.ViewAt c bindings limit (d + 1) v root a →
        (∀ d' v root a, d' ≤ d → keep v → f.ViewAt c bindings limit d' v root a →
          g.ViewAt c' bindings limit' d' (σ v) root a) →
            g.ViewAt c' bindings limit' (d + 1) (σ v) root a)
    (hv : keep v) (hat : f.ViewAt c bindings limit d v root a) :
    g.ViewAt c' bindings limit' d (σ v) root a := by
  induction d using Nat.strong_induction_on generalizing v root a with
  | _ d ih =>
  by_cases hhd : c.definer? v = some hd
  · cases d with
    | zero => cases hat
    | succ d =>
      exact hfolded d v root a hv hhd hat fun d' v root a hd' hv =>
        ih d' (Nat.lt_succ_of_le hd') hv
  have hsame := h.same v hv hhd
  cases hat with
  | @root d v type shape htype hdef hshape =>
    rw [hsame]
    refine .root (h.grows.bufferType? htype) (fun h' hdef' => ?_) hshape
    cases hold : c.definer? v with
    | none =>
      rw [h.undefined v hv (Function.has_of_bufferType? htype) hold] at hdef'
      cases hdef'
    | some old =>
      rw [h.other v old hv hold fun e => hhd (e ▸ hold), Option.some.injEq] at hdef'
      rw [← hdef']
      exact hdef old hold
  | @window d v source root type h' w supplied starts a a' htype hdef hkind hops hsource hstarts hshows =>
    have hkept := h.operands h' (Code.of_definer? hdef).1 (.inr (by simp [hkind, OpKind.window?]))
    rw [hops, List.forall_mem_cons] at hkept
    have hops' := congrArg (List.map σ) hops
    rw [hsame]
    exact .window (h.grows.bufferType? htype) (h.other v h' hv hdef fun e => hhd (e ▸ hdef)) hkind
      hops' (ih d (Nat.lt_succ_self d) hkept.1 hsource)
      ((Code.offsetsAt_rename h.toKeepsIndices hkept.2 hstarts).imp fun _ _ h => h.mono hlimit)
      hshows

theorem of_represents {k : Spine} {b y z : Code}
    (hr : f.Represents (k.plug (b ++ .node hd .nil z)))
    (hg : g.Represents ((k.rename σ).plug (b.rename σ ++ (y ++ z.rename σ)))) (hgrows : f.Grows g)
    (hfresh : ∀ v ∈ y.defined, ¬ f.Has v) (hvars : hd.inductionVars = [])
    (hsame : ∀ v, keep v → v ∉ hd.defined → σ v = v)
    (hbound : ∀ v, keep v → bindings.find? (σ v) = bindings.find? v)
    (hops : ∀ h ∈ (k.plug (b ++ .node hd .nil z)).heads, h.kind.Opens → ∀ v ∈ h.operands, keep v)
    (hview : ∀ v ∈ hd.defined, keep v → hd.kind.window? ≠ none) :
    Rewired f g (k.plug (b ++ .node hd .nil z))
      ((k.rename σ).plug (b.rename σ ++ (y ++ z.rename σ))) bindings σ keep hd := by
  have hdefined : ∀ {v h}, (k.plug (b ++ .node hd .nil z)).definer? v = some h → v ∈ h.defined := by
    intro v h hdef
    obtain ⟨-, t, hres⟩ := Code.of_definer? hdef
    simp [Node.defined, hres]
  have hother : ∀ v h, keep v → (k.plug (b ++ .node hd .nil z)).definer? v = some h → h ≠ hd →
      v ∉ hd.defined ∧ ((k.rename σ).plug (b.rename σ ++ (y ++ z.rename σ))).definer? v =
        some (h.rename σ) := by
    intro v h hv hdef hne
    obtain ⟨hh, t, hres⟩ := Code.of_definer? hdef
    have haround : h ∈ (k.plug (b ++ z)).heads := by
      rcases Spine.mem_heads_node.1 hh with h' | h' | h'
      · exact (hne h').elim
      · cases h'
      · exact h'
    exact ⟨fun hm => hr.not_around hm (List.mem_flatMap.2 ⟨h, haround, hdefined hdef⟩),
      hg.definer?_eq (Spine.mem_heads_splice.2 (.inl ⟨h, haround, rfl⟩)) hres⟩
  refine ⟨⟨hbound, fun v h hv hdef hkind => ?_, hops⟩, hgrows, fun v hv hne => ?_,
    fun v h hv hdef hne => (hother v h hv hdef hne).2, fun v hv hhas hdef => ?_⟩
  · have hne : h ≠ hd := fun e => hview v (hdefined (e ▸ hdef)) hv (e ▸ hkind)
    obtain ⟨hv', hdef'⟩ := hother v h hv hdef hne
    rwa [hsame v hv hv']
  · refine hsame v hv fun hm => hne ?_
    rw [Node.defined, hvars, List.append_nil, Option.mem_toList, Option.map_eq_some_iff] at hm
    obtain ⟨⟨_, t⟩, hres, rfl⟩ := hm
    exact hr.definer?_eq (Spine.mem_heads_at k b .nil z hd) hres
  · rw [Code.definer?_eq_none] at hdef ⊢
    intro h hh t hres
    rcases Spine.mem_heads_splice.1 hh with ⟨h', hh', rfl⟩ | hh
    · exact hdef h' (Spine.mem_heads_node.2 (.inr (.inr hh'))) t hres
    · exact hfresh v (List.mem_flatMap.2 ⟨h, hh, by simp [Node.defined, hres]⟩) hhas

end Rewired

end KernelLowering
