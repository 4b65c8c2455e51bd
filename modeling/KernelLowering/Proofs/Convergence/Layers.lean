import KernelLowering.Proofs.Convergence.Replacements
import KernelLowering.Proofs.Scope.Windows

namespace KernelLowering

def Stage.depth : Stage → Nat
  | selected => 0
  | tiledMid | promotedMid => 1
  | tiledLocal | promotedLocal => 2

theorem Stage.depth_le (stage : Stage) : stage.depth ≤ 2 := by
  cases stage <;> decide

namespace Node

structure Ranked (rank : ValueId → Nat) (h : Node) : Prop where
  view : h.kind.window?.isSome = true → ∀ u ∈ h.operands.head?, ∀ r ∈ h.result,
    rank u < rank r.1 ∧ rank r.1 ≤ 2
  kernel : h.kind.kernel?.isSome = true → ∀ stage ∈ h.marker, ∀ v ∈ h.operands, rank v ≤ stage.depth

variable {rank rank' : ValueId → Nat} {σ : ValueId → ValueId} {h : Node}

theorem Ranked.of_other (hw : h.kind.window? = none) (hk : h.kind.kernel? = none) : h.Ranked rank :=
  ⟨fun hs => by simp [hw] at hs, fun hs => by simp [hk] at hs⟩

theorem Ranked.rename (hn : h.Ranked rank) (hops : ∀ v ∈ h.operands, rank' (σ v) ≤ rank v)
    (hdef : ∀ v ∈ h.defined, rank' v = rank v) : (h.rename σ).Ranked rank' where
  view hw v hv r hres := by
    rw [Node.rename, List.head?_map, Option.mem_def, Option.map_eq_some_iff] at hv
    obtain ⟨u, hu, rfl⟩ := hv
    have hr : rank' r.1 = rank r.1 := hdef r.1 (by simp [defined, show h.result = some r from hres])
    rw [hr]
    obtain ⟨hlt, hle⟩ := hn.view hw u hu r hres
    exact ⟨Nat.lt_of_le_of_lt (hops u (List.mem_of_mem_head? hu)) hlt, hle⟩
  kernel hk stage hstage v hv := by
    obtain ⟨u, hu, rfl⟩ := List.mem_map.1 hv
    exact (hops u hu).trans (hn.kernel hk stage hstage u hu)

end Node

structure Ranking (hs : List Node) (rank : ValueId → Nat) : Prop where
  ranked : ∀ h ∈ hs, h.Ranked rank
  flat : ∀ v, (∀ h ∈ hs, h.kind.window?.isSome = true → v ∉ h.defined) → rank v = 0

structure Layered (hs : List Node) : Prop where
  ranked : ∃ rank, ∀ h ∈ hs, h.Ranked rank
  shown : ∀ h ∈ hs, h.kind = .view → ∃ a ∈ hs, a.kind = .alloc ∧ h.On a

theorem Layered.exists_ranking {hs : List Node} (h : Layered hs) : ∃ rank, Ranking hs rank := by
  classical
  obtain ⟨rank, hrank⟩ := h.ranked
  have hle : ∀ v, (if ∃ h ∈ hs, h.kind.window?.isSome = true ∧ v ∈ h.defined then rank v else 0) ≤
      rank v := fun v => by split <;> omega
  refine ⟨fun v => if ∃ h ∈ hs, h.kind.window?.isSome = true ∧ v ∈ h.defined then rank v else 0,
    fun h hh => ⟨fun hw u hu r hr => ?_, fun hk stage hstage v hv => ?_⟩, fun v hv => if_neg ?_⟩
  · have hdef : r.1 ∈ h.defined := by simp [Node.defined, show h.result = some r from hr]
    rw [if_pos (show ∃ h ∈ hs, h.kind.window?.isSome = true ∧ r.1 ∈ h.defined from ⟨h, hh, hw, hdef⟩)]
    obtain ⟨hlt, hle'⟩ := (hrank h hh).view hw u hu r hr
    exact ⟨Nat.lt_of_le_of_lt (hle u) hlt, hle'⟩
  · exact (hle v).trans ((hrank h hh).kernel hk stage hstage v hv)
  · rintro ⟨h, hh, hw, hdef⟩
    exact hv h hh hw hdef

theorem Function.Represents.eq_of_defined {f : Function} {c : Code} {h h' : Node} {v : ValueId}
    (hr : f.Represents c) (hh : h ∈ c.heads) (hh' : h' ∈ c.heads) (hv : v ∈ h.defined)
    (hv' : v ∈ h'.defined) : h = h' := by
  refine hr.eq_of_op hh hh' ?_
  rcases hr.definition_of_mem hh hv with ⟨t, -, he⟩ | ⟨i, -, he⟩ <;>
    rcases hr.definition_of_mem hh' hv' with ⟨t', -, he'⟩ | ⟨j, -, he'⟩ <;>
      simp_all

namespace Function

variable {f g : Function} {k : Spine} {b x z : Code} {hd n : Node} {σ : ValueId → ValueId}
  {new : List Node} {rank : ValueId → Nat} {u v : ValueId} {t : ValueType}

def rankBelow (f : Function) (rank : ValueId → Nat) (v : ValueId) : Nat :=
  if v.index < f.values.size then rank v else 0

def rankIn (f g : Function) (rank : ValueId → Nat) (v : ValueId) : Nat :=
  if v.index < f.values.size then rank v
  else
    match (g.code.definer? v).filter (·.kind.window?.isSome) with
    | some h => (h.operands.head?.map (f.rankBelow rank)).getD 0 + 1
    | none => 0

theorem rankIn_of_has (hv : f.Has v) : f.rankIn g rank v = rank v := if_pos hv

theorem rankBelow_of_has (hv : f.Has v) : f.rankBelow rank v = rank v := if_pos hv

theorem rankBelow_of_not_has (hv : ¬ f.Has v) : f.rankBelow rank v = 0 := if_neg hv

theorem rankIn_of_window (hg : g.WellFormed) (hv : ¬ f.Has v) (hh : n ∈ g.code.heads)
    (hres : n.result = some (v, t)) (hw : n.kind.window?.isSome = true)
    (hu : n.operands.head? = some u) : f.rankIn g rank v = f.rankBelow rank u + 1 := by
  rw [rankIn, if_neg (show ¬ v.index < f.values.size from hv), hg.definer?_eq hh hres,
    Option.filter_some, if_pos hw]
  show (n.operands.head?.map (f.rankBelow rank)).getD 0 + 1 = _
  rw [hu]
  rfl

theorem rankIn_of_no_window (hv : ¬ f.Has v)
    (hno : ∀ n ∈ g.code.heads, n.kind.window?.isSome = true → v ∉ n.defined) :
    f.rankIn g rank v = 0 := by
  rw [rankIn, if_neg (show ¬ v.index < f.values.size from hv)]
  cases hdef : g.code.definer? v with
  | none => rfl
  | some d =>
    obtain ⟨hd', t, hres⟩ := Code.of_definer? hdef
    rw [Option.filter_some, if_neg fun hw => hno d hd' hw (by simp [Node.defined, hres])]

theorem rankIn_of_other (hg : g.WellFormed) (hv : ¬ f.Has v) (hh : n ∈ g.code.heads)
    (hdef : v ∈ n.defined) (hw : n.kind.window? = none) : f.rankIn g rank v = 0 :=
  rankIn_of_no_window hv fun n' hn' hw' hdef' => by
    rw [Represents.eq_of_defined hg hn' hh hdef' hdef, hw] at hw'
    cases hw'

namespace Replaces

variable (h : f.Replaces g k b x z σ new) (hr : f.Represents (k.plug (b ++ .node hd x z)))
  (hl : Layered (k.plug (b ++ .node hd x z)).heads)

include h hr hl

theorem layered (hhas : ∀ h' ∈ (k.plug (b ++ .node hd x z)).heads, ∀ v ∈ h'.operands, f.Has v)
    (hnew : ∀ rank, Ranking (k.plug (b ++ .node hd x z)).heads rank →
      ∀ h' ∈ new, h'.Ranked (f.rankIn g rank))
    (hσ : ∀ rank, Ranking (k.plug (b ++ .node hd x z)).heads rank →
      ∀ v, f.Has v → σ v ≠ v → f.rankIn g rank (σ v) ≤ rank v)
    (hshown : ∀ view : Node, view.rename σ ∈ g.code.heads → view.kind = .view →
      ∀ a ∈ (k.plug (b ++ .node hd x z)).heads, a.kind = .alloc → view.On a →
        ∃ a' ∈ g.code.heads, a'.kind = .alloc ∧ (view.rename σ).On a')
    (hviews : ∀ h' ∈ new, h'.kind = .view → ∃ a ∈ new, a.kind = .alloc ∧ h'.On a) :
    Layered g.code.heads := by
  obtain ⟨rank, hrank⟩ := hl.exists_ranking
  have hold : ∀ {h₁}, (h₁ ∈ k.before b ∨ h₁ ∈ x.heads ∨ h₁ ∈ k.behind z) →
      h₁ ∈ (k.plug (b ++ .node hd x z)).heads := fun hh =>
    Spine.mem_heads_iff.2 (hh.imp_right .inr)
  refine ⟨⟨f.rankIn g rank, fun h' hh => ?_⟩, fun h' hh hkind => ?_⟩
  · rcases h.cases hh with hh | ⟨h₁, hh₁, rfl⟩
    · exact hnew rank hrank h' hh
    · refine (hrank.ranked h₁ (hold hh₁)).rename (fun v hv => ?_) fun v hv => rankIn_of_has ?_
      · have hv' := hhas h₁ (hold hh₁) v hv
        by_cases hsame : σ v = v
        · rw [hsame, rankIn_of_has hv']
        · exact hσ rank hrank v hv' hsame
      · exact hr.has_of_mem (List.mem_flatMap.2 ⟨h₁, hold hh₁, hv⟩)
  · rcases h.cases hh with hh | ⟨h₁, hh₁, rfl⟩
    · obtain ⟨a, ha, halloc, hon⟩ := hviews h' hh hkind
      exact ⟨a, h.mem_new ha, halloc, hon⟩
    · obtain ⟨a, ha, halloc, hon⟩ := hl.shown h₁ (hold hh₁) hkind
      exact hshown h₁ hh hkind a ha halloc hon

theorem layered_of_fixed (hhas : ∀ h' ∈ (k.plug (b ++ .node hd x z)).heads, ∀ v ∈ h'.operands, f.Has v)
    (hnew : ∀ rank, Ranking (k.plug (b ++ .node hd x z)).heads rank →
      ∀ h' ∈ new, h'.Ranked (f.rankIn g rank))
    (hfix : ∀ v, v ∉ hd.defined → σ v = v)
    (hσ : ∀ rank, Ranking (k.plug (b ++ .node hd x z)).heads rank →
      ∀ v ∈ hd.defined, σ v ≠ v → f.rankIn g rank (σ v) ≤ rank v)
    (hhd : ∀ view : Node, view.rename σ ∈ g.code.heads → view.On hd → hd.kind ≠ .alloc)
    (hbody : ∀ v ∈ x.defined, ∀ h' ∈ g.code.heads, v ∈ h'.operands → v ∈ g.code.defined)
    (hviews : ∀ h' ∈ new, h'.kind = .view → ∃ a ∈ new, a.kind = .alloc ∧ h'.On a) :
    Layered g.code.heads := by
  refine h.layered hr hl hhas hnew (fun rank hrank v hv hne => hσ rank hrank v ?_ hne) ?_ hviews
  · exact not_not.1 fun hout => hne (hfix v hout)
  · intro view hview hkind a ha halloc ⟨u, hu, hres⟩
    have hmem : u ∈ a.defined := by simp [Node.defined, hres]
    have hout : u ∉ hd.defined := fun hdef =>
      hhd view hview (hr.eq_of_defined ha (Spine.mem_heads_at k b x z hd) hmem hdef ▸ ⟨u, hu, hres⟩)
        (hr.eq_of_defined ha (Spine.mem_heads_at k b x z hd) hmem hdef ▸ halloc)
    have hsame := hfix u hout
    have hon : (view.rename σ).On (a.rename σ) := by
      refine ⟨u, ?_, hres⟩
      rw [Node.rename, List.head?_map, Option.mem_def.1 hu, Option.map_some, hsame]
      rfl
    refine ⟨a.rename σ, ?_, halloc, hon⟩
    rcases Spine.mem_heads_iff.1 ha with ha' | rfl | ha' | ha'
    · exact h.mem_around (.inl ha')
    · exact (hout hmem).elim
    · obtain ⟨v, hv, hres'⟩ := hon
      obtain rfl : u = v := by simpa [Node.rename, hres] using hres'
      obtain ⟨d', hd', hdef⟩ := List.mem_flatMap.1
        (hbody u (List.mem_flatMap.2 ⟨a, ha', hmem⟩) _ hview (List.mem_of_mem_head? hv))
      rcases h.cases hd' with hd' | ⟨d, hd, rfl⟩
      · exact (h.values d' hd' u hdef (hr.has_of_mem (List.mem_flatMap.2 ⟨a, ha, hmem⟩))).elim
      · rwa [hr.eq_of_defined ha (Spine.mem_heads_iff.2 (hd.imp_right .inr)) hmem hdef]
    · exact h.mem_around (.inr ha')

end Replaces

theorem Sheds.layered (hs : f.Sheds g k b x z hd) (hnested : f.code.Nested)
    (hhas : ∀ h ∈ f.code.heads, ∀ v ∈ h.operands, f.Has v) (hl : Layered f.code.heads) :
    Layered g.code.heads := by
  have hr := hs.before
  obtain rfl : x = .nil := hs.body_eq_nil hnested
  rw [hr.code_eq] at hhas hl
  refine hs.replaces.layered_of_fixed hr hl hhas (fun _ _ _ hn => by cases hn) (fun _ _ => rfl)
    (fun _ _ v _ hne => (hne rfl).elim) (fun view hview ⟨v, hv, hres⟩ => ?_)
    (fun v hv => by cases hv) fun _ hn => by cases hn
  rw [Node.rename_id, hs.after.code_eq] at hview
  exact absurd (List.mem_of_mem_head? hv)
    (hs.unused v (by simp [Node.defined, hres]) view (Spine.mem_heads_around hview hd .nil))

structure Orderly (f : Function) : Prop where
  tidy : f.Tidy
  sorted : f.Sorted
  layered : Layered f.code.heads

namespace Orderly

variable (h : f.Orderly)

include h

theorem has (hr : f.Represents (k.plug (b ++ .node hd x z))) :
    ∀ h' ∈ (k.plug (b ++ .node hd x z)).heads, ∀ v ∈ h'.operands, f.Has v := h.tidy.has hr

theorem body_eq_nil (hs : f.Sheds g k b x z hd) : x = .nil :=
  hs.body_eq_nil h.tidy.code.nested

theorem has_operand : ∀ h' ∈ f.code.heads, ∀ v ∈ h'.operands, f.Has v := h.tidy.has h.tidy.wellFormed

theorem shed (hs : f.Sheds g k b x z hd) : g.Orderly where
  tidy := h.tidy.shed hs
  sorted := hs.sorted h.sorted
  layered := hs.layered h.tidy.code.nested h.has_operand h.layered

end Orderly

end Function

end KernelLowering
