import KernelLowering.Proofs.Arena.Spine
import KernelLowering.Proofs.Arena.DeadCode
import KernelLowering.Proofs.Scope.Tidy
import KernelLowering.Proofs.Simulation.Refinement

namespace KernelLowering

variable {f g : Function} {k : Spine} {b x y z : Code} {hd : Node} {σ : ValueId → ValueId}
  {new : List Node}

theorem Node.rename_of_fixed (h : ∀ v ∈ hd.operands, σ v = v) : hd.rename σ = hd := by
  rw [rename, (List.map_congr_left h).trans (List.map_id _)]

theorem Code.rename_of_fixed (h : ∀ n ∈ x.heads, ∀ v ∈ n.operands, σ v = v) : x.rename σ = x := by
  induction x with
  | nil => rfl
  | node hd body rest ihb ihr =>
    rw [heads, List.forall_mem_cons, List.forall_mem_append] at h
    rw [rename, Node.rename_of_fixed h.1, ihb h.2.1, ihr h.2.2]

structure Function.Replaces (f g : Function) (k : Spine) (b x z : Code) (σ : ValueId → ValueId)
    (new : List Node) : Prop where
  wellFormed : g.WellFormed
  grows : f.Grows g
  heads : ∃ kept, (kept = x.heads ∨ kept = []) ∧
    g.code.heads = (k.before b).map (·.rename σ) ++ new ++ (kept ++ k.behind z).map (·.rename σ)
  ops : ∀ h ∈ new, f.ops.size ≤ h.op.index
  values : ∀ h ∈ new, ∀ v ∈ h.defined, ¬ f.Has v

theorem Splice.replaces (h : Splice f g (k.rename σ) (b.rename σ) y (z.rename σ)) :
    f.Replaces g k b x z σ y.heads where
  wellFormed := h.represents.wellFormed
  grows := h.grows
  heads := ⟨[], .inr rfl, by
    rw [h.represents.code_eq, Spine.heads_splice, List.nil_append, List.append_assoc]⟩
  ops h' hh := h.ops _ (Code.ops_eq_map_heads y ▸ List.mem_map_of_mem hh)
  values _ hh _ hv := Nat.not_lt.2 (h.size_le (List.mem_flatMap.2 ⟨_, hh, hv⟩))

theorem Splice.replaces_id (h : Splice f g k b y z) : f.Replaces g k b x z id y.heads :=
  Splice.replaces (by simpa using h)

theorem Function.Sheds.replaces (h : f.Sheds g k b x z hd) : f.Replaces g k b x z id [] where
  wellFormed := h.after.wellFormed
  grows := h.same.grows
  heads := ⟨[], .inr rfl, by
    have hheads := Spine.heads_splice (k := k) (b := b) (y := .nil) (z := z) (σ := id)
    simp only [Spine.rename_id, Code.rename_id, Code.nil_append] at hheads
    rw [h.after.code_eq, hheads]
    simp [Code.heads]⟩
  ops := by simp
  values := by simp

namespace Spine

theorem mem_heads_iff {h : Node} : h ∈ (k.plug (b ++ .node hd x z)).heads ↔
    h ∈ k.before b ∨ h = hd ∨ h ∈ x.heads ∨ h ∈ k.behind z := by
  simp [heads_at]

end Spine

namespace Function.Replaces

variable (h : f.Replaces g k b x z σ new) (hr : f.Represents (k.plug (b ++ .node hd x z)))

include h

theorem cases {h' : Node} (hh : h' ∈ g.code.heads) : h' ∈ new ∨
    ∃ h₁, (h₁ ∈ k.before b ∨ h₁ ∈ x.heads ∨ h₁ ∈ k.behind z) ∧ h₁.rename σ = h' := by
  obtain ⟨kept, hkept, hheads⟩ := h.heads
  simp only [hheads, List.mem_append, List.mem_map] at hh
  rcases hh with (⟨h₁, hh, rfl⟩ | hh) | ⟨h₁, hh | hh, rfl⟩
  · exact .inr ⟨h₁, .inl hh, rfl⟩
  · exact .inl hh
  · rcases hkept with rfl | rfl
    · exact .inr ⟨h₁, .inr (.inl hh), rfl⟩
    · cases hh
  · exact .inr ⟨h₁, .inr (.inr hh), rfl⟩

theorem mem_around {h₁ : Node} (hh : h₁ ∈ k.before b ∨ h₁ ∈ k.behind z) :
    h₁.rename σ ∈ g.code.heads := by
  obtain ⟨kept, -, hheads⟩ := h.heads
  rw [hheads, List.mem_append, List.mem_append, List.map_append, List.mem_append]
  exact hh.elim (fun hh => .inl (.inl (List.mem_map_of_mem hh)))
    fun hh => .inr (.inr (List.mem_map_of_mem hh))

theorem mem_new {h' : Node} (hh : h' ∈ new) : h' ∈ g.code.heads := by
  obtain ⟨kept, -, hheads⟩ := h.heads
  rw [hheads]
  simp [hh]

theorem pairwise {R S : Node → Node → Prop} (hR : (k.plug (b ++ .node hd x z)).heads.Pairwise R)
    (hold : ∀ h ∈ (k.plug (b ++ .node hd x z)).heads, ∀ later ∈ (k.plug (b ++ .node hd x z)).heads,
      R h later → S (h.rename σ) (later.rename σ)) (hnew : new.Pairwise S)
    (hbefore : ∀ h ∈ k.before b, R h hd → ∀ n ∈ new, S (h.rename σ) n)
    (hbehind : ∀ n ∈ new, ∀ h, h ∈ x.heads ∨ h ∈ k.behind z → R hd h → S n (h.rename σ)) :
    g.code.heads.Pairwise S := by
  obtain ⟨kept, hkept, hheads⟩ := h.heads
  have hsub : (kept ++ k.behind z).Sublist (x.heads ++ k.behind z) := by
    rcases hkept with rfl | rfl
    · exact .refl _
    · exact (List.nil_sublist _).append_right _
  have hmem : (k.before b ++ (kept ++ k.behind z)).Sublist (k.plug (b ++ .node hd x z)).heads := by
    rw [Spine.heads_at]
    exact (List.Sublist.refl _).append (hsub.cons hd)
  have hpairs : ((k.before b ++ (kept ++ k.behind z)).map (·.rename σ)).Pairwise S :=
    List.pairwise_map.2 ((hR.sublist hmem).imp_of_mem fun hh hlater =>
      hold _ (hmem.mem hh) _ (hmem.mem hlater))
  rw [List.map_append, List.pairwise_append] at hpairs
  obtain ⟨hfirst, hlast, hacross⟩ := hpairs
  rw [Spine.heads_at, List.pairwise_append, List.pairwise_cons] at hR
  obtain ⟨-, ⟨hlater, -⟩, hearlier⟩ := hR
  rw [hheads]
  refine List.pairwise_append.2 ⟨List.pairwise_append.2 ⟨hfirst, hnew, ?_⟩, hlast, ?_⟩
  · rintro _ hmap n hn
    obtain ⟨h', hh', rfl⟩ := List.mem_map.1 hmap
    exact hbefore h' hh' (hearlier h' hh' hd List.mem_cons_self) n hn
  · rintro n hn _ hmap
    rcases List.mem_append.1 hn with hn | hn
    · exact hacross n hn _ hmap
    · obtain ⟨h', hh', rfl⟩ := List.mem_map.1 hmap
      exact hbehind n hn h' (List.mem_append.1 (hsub.mem hh')) (hlater h' (hsub.mem hh'))

include hr

theorem definer?_eq {v : ValueId} (hhas : f.Has v) (hv : v ∉ hd.defined) (hx : v ∉ x.defined) :
    g.code.definer? v = ((k.plug (b ++ .node hd x z)).definer? v).map (·.rename σ) := by
  cases hdef : (k.plug (b ++ .node hd x z)).definer? v with
  | some d =>
    obtain ⟨hd', t, hres⟩ := Code.of_definer? hdef
    have hmem : v ∈ d.defined := by simp [Node.defined, hres]
    have hin : d ∈ k.before b ∨ d ∈ k.behind z := by
      rcases Spine.mem_heads_iff.1 hd' with hd' | rfl | hd' | hd'
      · exact .inl hd'
      · exact (hv hmem).elim
      · exact (hx (List.mem_flatMap.2 ⟨d, hd', hmem⟩)).elim
      · exact .inr hd'
    exact h.wellFormed.definer?_eq (h.mem_around hin) hres
  | none =>
    refine Code.definer?_eq_none.2 fun d' hd' t hres => ?_
    rcases h.cases hd' with hnew | ⟨d, hd'', rfl⟩
    · exact h.values d' hnew v (by simp [Node.defined, hres]) hhas
    · exact Code.definer?_eq_none.1 hdef d (Spine.mem_heads_iff.2 (hd''.imp_right .inr)) t hres

end Function.Replaces

structure Function.Alike (f g : Function) (op : OpId) (o o' : Operation) : Prop where
  before : f.op op = .ok o
  after : g.op op = .ok o'
  kind : o'.kind = o.kind
  marker : o'.marker = o.marker
  operands : o'.operands = o.operands
  types : ∀ v ∈ o.operands, g.bufferType? v = f.bufferType? v
  kinds : ∀ v ∈ o.operands, g.definingKind? v = f.definingKind? v

theorem Function.Replaces.alike (h : f.Replaces g k b x z σ new)
    (hr : f.Represents (k.plug (b ++ .node hd x z))) {h' : Node}
    (hh : h' ∈ k.before b ∨ h' ∈ k.behind z)
    (hops : ∀ v ∈ h'.operands, f.Has v ∧ σ v = v ∧ v ∉ hd.defined ∧ v ∉ x.defined) :
    ∃ o o', f.Alike g h'.op o o' := by
  have hin : h' ∈ (k.plug (b ++ .node hd x z)).heads :=
    Spine.mem_heads_iff.2 (hh.imp_right fun hh => .inr (.inr hh))
  have hsame : h'.rename σ = h' := Node.rename_of_fixed fun v hv => (hops v hv).2.1
  have hin' : h' ∈ g.code.heads := hsame ▸ h.mem_around hh
  obtain ⟨parent, region, hop⟩ := hr.exists_record hin
  obtain ⟨parent', region', hop'⟩ := Function.Represents.exists_record h.wellFormed hin'
  refine ⟨_, _, Function.op_eq_ok.2 hop, Function.op_eq_ok.2 hop', rfl, rfl, rfl,
    fun v hv => h.grows.bufferType?_of_lt (hops v hv).1, fun v hv => ?_⟩
  obtain ⟨hhas, -, hv₁, hv₂⟩ := hops v hv
  rw [hr.definingKind?_eq hhas, h.wellFormed.definingKind?_eq (h.grows.has hhas),
    h.definer?_eq hr hhas hv₁ hv₂, Option.map_map]
  rfl

end KernelLowering
