import KernelLowering.Meaning.Races
import KernelLowering.Proofs.Kernel.Effect

namespace KernelLowering

abbrev Pairing := Ref.Cell → Ref.Cell → Prop

namespace Pairing

def OneToOne (ρ : Pairing) : Prop := ∀ c c' d d', ρ c c' → ρ d d' → (c = d ↔ c' = d')

def keep (hidden : ValueId → Prop) : Pairing := fun c c' => c = c' ∧ ¬ hidden c.1

theorem oneToOne_keep (hidden : ValueId → Prop) : (keep hidden).OneToOne := by
  rintro c c' d d' ⟨rfl, -⟩ ⟨rfl, -⟩
  rfl

end Pairing

def Mirrors (ρ : Pairing) (m m' : Memory) : Prop := ∀ c c', ρ c c' → m' c' = m c

def Follows (ρ : Pairing) (new old : List Action) : Prop :=
  ∀ m m' m₁', Mirrors ρ m m' → Runs new m' m₁' → ∃ m₁, Runs old m m₁ ∧ Mirrors ρ m₁ m₁'

variable {ρ : Pairing} {m m' : Memory}

namespace Mirrors

theorem write {c c' : Ref.Cell} (h : Mirrors ρ m m') (hρ : ρ.OneToOne) (hc : ρ c c') (value : Int) :
    Mirrors ρ (m.write c value) (m'.write c' value) := by
  intro d d' hd
  by_cases he : d = c
  · obtain rfl := (hρ _ _ _ _ hd hc).1 he
    rw [he, Memory.write_self, Memory.write_self]
  · have he' : d' ≠ c' := fun e => he ((hρ _ _ _ _ hd hc).2 e)
    rw [Memory.write_of_ne _ _ he, Memory.write_of_ne _ _ he', h _ _ hd]

theorem accumulate {u u' : Update} (h : Mirrors ρ m m') (hρ : ρ.OneToOne)
    (hu : List.Forall₂ ρ u u') : Mirrors ρ (m.accumulate u) (m'.accumulate u') := by
  match u, u', hu with
  | [], _, .nil => exact h
  | [_], _, .cons _ .nil => exact h
  | [_, _], _, .cons _ (.cons _ .nil) => exact h
  | [x, y, z], [x', y', z'], .cons hx (.cons hy (.cons hz .nil)) =>
    simp only [Memory.accumulate, h _ _ hx, h _ _ hy, h _ _ hz]
    exact h.write hρ hz _
  | _ :: _ :: _ :: _ :: _, _, .cons _ (.cons _ (.cons _ (.cons _ _))) => exact h

theorem foldl_accumulate {us us' : List Update} (h : Mirrors ρ m m') (hρ : ρ.OneToOne)
    (hus : List.Forall₂ (List.Forall₂ ρ) us us') :
    Mirrors ρ (us.foldl Memory.accumulate m) (us'.foldl Memory.accumulate m') := by
  induction hus generalizing m m' with
  | nil => exact h
  | cons hu _ ih => exact ih (h.accumulate hρ hu)

theorem copy {r s r' s' : Ref} (h : Mirrors ρ m m') (hρ : ρ.OneToOne) (hshape : r'.shape = r.shape)
    (hcells : ∀ i ∈ box r.shape, ρ (r.cell i) (r'.cell i) ∧ ρ (s.cell i) (s'.cell i)) :
    Mirrors ρ (m.copy r s) (m'.copy r' s') := by
  rw [Memory.copy, Memory.copy, hshape]
  generalize box r.shape = is at hcells
  induction is generalizing m m' with
  | nil => exact h
  | cons i is ih =>
    obtain ⟨⟨hr, hs⟩, hcells⟩ := List.forall_mem_cons.1 hcells
    refine ih ?_ hcells
    show Mirrors ρ (m.write (s.cell i) (m (r.cell i))) (m'.write (s'.cell i) (m' (r'.cell i)))
    rw [h _ _ hr]
    exact h.write hρ hs _

end Mirrors

namespace Follows

variable {as as' bs bs' : List Action}

theorem nil : Follows ρ [] [] := by
  rintro m m' m₁' hm rfl
  exact ⟨m, rfl, hm⟩

theorem append (h : Follows ρ as' as) (h' : Follows ρ bs' bs) :
    Follows ρ (as' ++ bs') (as ++ bs) := by
  intro m m' m₂' hm hrun
  obtain ⟨m₁', hleft, hright⟩ := runs_append.1 hrun
  obtain ⟨m₁, hrun₁, hm₁⟩ := h _ _ _ hm hleft
  obtain ⟨m₂, hrun₂, hm₂⟩ := h' _ _ _ hm₁ hright
  exact ⟨m₂, runs_append.2 ⟨m₁, hrun₁, hrun₂⟩, hm₂⟩

theorem kernel {kind : KernelKind} {refs refs' : List Ref} (hρ : ρ.OneToOne)
    (h : List.Forall₂ (List.Forall₂ ρ) (kind.updates refs) (kind.updates refs')) :
    Follows ρ [.kernel kind refs'] [.kernel kind refs] := by
  rintro m m' _ hm ⟨_, rfl, rfl⟩
  exact ⟨_, ⟨_, rfl, rfl⟩, hm.foldl_accumulate hρ h⟩

theorem copy {r s r' s' : Ref} (hρ : ρ.OneToOne) (hshape : r'.shape = r.shape)
    (hcells : ∀ i ∈ box r.shape, ρ (r.cell i) (r'.cell i) ∧ ρ (s.cell i) (s'.cell i)) :
    Follows ρ [.copy r' s'] [.copy r s] := by
  rintro m m' _ hm ⟨_, rfl, rfl⟩
  exact ⟨_, ⟨_, rfl, rfl⟩, hm.copy hρ hshape hcells⟩

end Follows

theorem runs_allocs {vs : List ValueId} :
    Runs (vs.map .alloc) m m' ↔ ∀ c : Ref.Cell, c.1 ∉ vs → m' c = m c := by
  induction vs generalizing m with
  | nil => simp [Runs, funext_iff]
  | cons v vs ih =>
    simp only [List.map_cons, Runs, ih, Action.Step, List.mem_cons, not_or]
    constructor
    · rintro ⟨m₁, hv, hvs⟩ c ⟨hc, hcs⟩
      rw [hvs c hcs, hv c hc]
    · intro h
      refine ⟨fun c => if c.1 = v then m' c else m c, fun c hc => if_neg hc, fun c hcs => ?_⟩
      by_cases hc : c.1 = v
      · exact (if_pos hc).symm
      · exact (h c ⟨hc, hcs⟩).trans (if_neg hc).symm

theorem Follows.allocs {vs vs' : List ValueId} (hρ : ρ.OneToOne)
    (h : ∀ {c c' : Ref.Cell}, ρ c c' → c'.1 ∈ vs' → c.1 ∈ vs) :
    Follows ρ (vs'.map .alloc) (vs.map .alloc) := by
  classical
  intro m m' m₁' hm hrun
  have hkeep := runs_allocs.1 hrun
  let m₁ : Memory := fun c =>
    if c.1 ∈ vs then if hc : ∃ c', ρ c c' then m₁' hc.choose else 0 else m c
  refine ⟨m₁, runs_allocs.2 fun c hc => if_neg hc, fun c c' hc => ?_⟩
  by_cases hv : c.1 ∈ vs
  · have hex : ∃ c', ρ c c' := ⟨c', hc⟩
    have hsame : hex.choose = c' := (hρ _ _ _ _ hex.choose_spec hc).1 rfl
    simp only [m₁, if_pos hv, dif_pos hex, hsame]
  · have hfree : c'.1 ∉ vs' := fun h' => hv (h hc h')
    simp only [m₁, if_neg hv]
    rw [hkeep c' hfree, hm c c' hc]

theorem runs_kernels {as : List Action} (h : ∀ a ∈ as, ∃ kind refs, a = .kernel kind refs) :
    Runs as m m' ↔ m' = (as.flatMap Action.updates).foldl Memory.accumulate m := by
  induction as generalizing m with
  | nil => rfl
  | cons a as ih =>
    obtain ⟨⟨kind, refs, rfl⟩, has⟩ := List.forall_mem_cons.1 h
    simp only [Runs, Action.Step, exists_eq_left, List.flatMap_cons, List.foldl_append]
    exact ih has

theorem Follows.of_perm {as : List Action} {kind : KernelKind} {refs : List Ref}
    (has : ∀ a ∈ as, ∃ kind refs, a = .kernel kind refs) (hρ : ρ.OneToOne)
    (hrefs : ∀ u ∈ kind.updates refs, ∀ c ∈ u, ρ c c) (hapart : Memory.Apart (kind.updates refs))
    (hperm : (as.flatMap Action.updates).Perm (kind.updates refs)) :
    Follows ρ as [.kernel kind refs] := by
  intro m m' m₁' hm hrun
  rw [(runs_kernels has).1 hrun, Memory.foldl_accumulate_perm hapart hperm]
  refine ⟨_, ⟨_, rfl, rfl⟩, hm.foldl_accumulate hρ ?_⟩
  exact List.forall₂_same.2 fun u hu => List.forall₂_same.2 fun c hc => hrefs u hu c hc

section Covers

variable {as as' bs bs' : List Action}

theorem accesses_append {c : Ref.Cell} : Accesses (as ++ bs) c ↔ Accesses as c ∨ Accesses bs c := by
  simp only [Accesses, List.mem_append, or_and_right, exists_or]

theorem changes_append {c : Ref.Cell} : Changes (as ++ bs) c ↔ Changes as c ∨ Changes bs c := by
  simp only [Changes, List.mem_append, or_and_right, exists_or]

structure Covers (ρ : Pairing) (new old : List Action) : Prop where
  accesses : ∀ c', Accesses new c' → Action.alloc c'.1 ∈ new ∨ ∃ c, ρ c c' ∧ Accesses old c
  changes : ∀ c', Changes new c' → Action.alloc c'.1 ∈ new ∨ ∃ c, ρ c c' ∧ Changes old c

theorem Covers.append (h : Covers ρ as' as) (h' : Covers ρ bs' bs) :
    Covers ρ (as' ++ bs') (as ++ bs) where
  accesses c' hc := by
    simp only [accesses_append, List.mem_append] at hc ⊢
    rcases hc with hc | hc
    · exact (h.accesses c' hc).imp .inl fun ⟨c, hρ, hc⟩ => ⟨c, hρ, .inl hc⟩
    · exact (h'.accesses c' hc).imp .inr fun ⟨c, hρ, hc⟩ => ⟨c, hρ, .inr hc⟩
  changes c' hc := by
    simp only [changes_append, List.mem_append] at hc ⊢
    rcases hc with hc | hc
    · exact (h.changes c' hc).imp .inl fun ⟨c, hρ, hc⟩ => ⟨c, hρ, .inl hc⟩
    · exact (h'.changes c' hc).imp .inr fun ⟨c, hρ, hc⟩ => ⟨c, hρ, .inr hc⟩

theorem Covers.mono {ρ' : Pairing} (h : Covers ρ as' as) (hρ : ∀ c c', ρ c c' → ρ' c c') :
    Covers ρ' as' as where
  accesses c' hc := (h.accesses c' hc).imp_right fun ⟨c, hc, hold⟩ => ⟨c, hρ c c' hc, hold⟩
  changes c' hc := (h.changes c' hc).imp_right fun ⟨c, hc, hold⟩ => ⟨c, hρ c c' hc, hold⟩

theorem Covers.allocs (vs : List ValueId) : Covers ρ (vs.map .alloc) as := by
  refine ⟨fun c' hc => ?_, fun c' hc => ?_⟩ <;>
  · obtain ⟨_, ha, r, hr, -⟩ := hc
    obtain ⟨v, -, rfl⟩ := List.mem_map.1 ha
    cases hr

structure Mimics (ρ : Pairing) (new old : List Action) : Prop where
  follows : Follows ρ new old
  covers : Covers ρ new old

namespace Mimics

theorem nil : Mimics ρ [] [] := ⟨.nil, by simp [Accesses], by simp [Changes]⟩

theorem append (h : Mimics ρ as' as) (h' : Mimics ρ bs' bs) : Mimics ρ (as' ++ bs') (as ++ bs) :=
  ⟨h.follows.append h'.follows, h.covers.append h'.covers⟩

theorem flatMap {α : Type} {is : List α} {g g' : α → List Action}
    (h : ∀ i ∈ is, Mimics ρ (g' i) (g i)) : Mimics ρ (is.flatMap g') (is.flatMap g) := by
  induction is with
  | nil => exact nil
  | cons i is ih =>
    obtain ⟨hi, his⟩ := List.forall_mem_cons.1 h
    exact hi.append (ih his)

theorem allocs {vs vs' : List ValueId} (hρ : ρ.OneToOne)
    (h : ∀ {c c' : Ref.Cell}, ρ c c' → c'.1 ∈ vs' → c.1 ∈ vs) :
    Mimics ρ (vs'.map .alloc) (vs.map .alloc) := ⟨.allocs hρ h, .allocs vs'⟩

end Mimics

end Covers

end KernelLowering
