import KernelLowering.Proofs.Arena.Spine

namespace KernelLowering

variable {P Q : Bool → Node → Prop} {σ : ValueId → ValueId} {x y b z : Code} {k : Spine} {hd : Node}
  {enclosed : Bool}

namespace Code

def InPlace (P : Bool → Node → Prop) : Code → Bool → Prop
  | nil, _ => True
  | node h body rest, enclosed =>
    P enclosed h ∧ body.InPlace P (enclosed || h.kind.isParallel) ∧ rest.InPlace P enclosed

@[simp] theorem inPlace_append :
    (x ++ y).InPlace P enclosed ↔ x.InPlace P enclosed ∧ y.InPlace P enclosed := by
  induction x with
  | nil => simp [InPlace]
  | node h body rest _ ih => simp only [node_append, InPlace, ih, and_assoc]

namespace InPlace

theorem of_heads (h : ∀ hd ∈ x.heads, ∀ i, P i hd) (enclosed : Bool) : x.InPlace P enclosed := by
  induction x generalizing enclosed with
  | nil => trivial
  | node hd body rest ihb ihr =>
    simp only [heads, List.forall_mem_cons, List.forall_mem_append] at h
    exact ⟨h.1 enclosed, ihb h.2.1 _, ihr h.2.2 _⟩

theorem of_sequential (h : ∀ hd ∈ x.heads, P enclosed hd ∧ hd.kind.isParallel = false) :
    x.InPlace P enclosed := by
  induction x with
  | nil => trivial
  | node hd body rest ihb ihr =>
    simp only [heads, List.forall_mem_cons, List.forall_mem_append] at h
    obtain ⟨⟨hP, hkind⟩, hbody, hrest⟩ := h
    refine ⟨hP, ?_, ihr hrest⟩
    rw [hkind, Bool.or_false]
    exact ihb hbody

theorem rename (hx : x.InPlace P enclosed) (hP : ∀ h ∈ x.heads, ∀ i, P i h → Q i (h.rename σ)) :
    (x.rename σ).InPlace Q enclosed := by
  induction x generalizing enclosed with
  | nil => trivial
  | node hd body rest ihb ihr =>
    simp only [heads, List.forall_mem_cons, List.forall_mem_append] at hP
    exact ⟨hP.1 enclosed hx.1, ihb hx.2.1 hP.2.1, ihr hx.2.2 hP.2.2⟩

theorem imp (hx : x.InPlace P enclosed) (hP : ∀ h ∈ x.heads, ∀ i, P i h → Q i h) :
    x.InPlace Q enclosed := by
  rw [← x.rename_id]
  exact hx.rename fun h hh i hi => by simpa using hP h hh i hi

theorem leave {outside : Bool} (hx : x.InPlace P enclosed) (hin : outside = true → enclosed = true)
    (hP : ∀ {i j h}, (i = true → j = true) → P j h → P i h) : x.InPlace P outside := by
  induction x generalizing enclosed outside with
  | nil => trivial
  | node hd body rest ihb ihr =>
    refine ⟨hP hin hx.1, ihb hx.2.1 ?_, ihr hx.2.2 hin⟩
    cases hd.kind.isParallel <;> simp_all

theorem within_sequential {loops : List Node} (hx : x.InPlace P enclosed)
    (hloops : ∀ h ∈ loops, P enclosed h ∧ h.kind.isParallel = false) :
    (within loops x).InPlace P enclosed := by
  induction loops with
  | nil => exact hx
  | cons hd loops ih =>
    obtain ⟨⟨hP, hkind⟩, hloops⟩ := List.forall_mem_cons.1 hloops
    refine ⟨hP, ?_, trivial⟩
    rw [hkind, Bool.or_false]
    exact ih hloops

end InPlace

end Code

namespace Spine

def inParallel : Spine → Bool
  | body => false
  | inside h _ _ k => k.inParallel || h.kind.isParallel

def InPlace (P : Bool → Node → Prop) : Spine → Prop
  | body => True
  | inside h b a k =>
    b.InPlace P k.inParallel ∧ P k.inParallel h ∧ a.InPlace P k.inParallel ∧ k.InPlace P

@[simp] theorem inParallel_rename : (k.rename σ).inParallel = k.inParallel := by
  induction k with
  | body => rfl
  | inside h b a k ih => simp only [rename, inParallel, ih, Node.rename]

theorem inPlace_plug :
    (k.plug x).InPlace P false ↔ k.InPlace P ∧ x.InPlace P k.inParallel := by
  induction k generalizing x with
  | body => simp [plug, InPlace, inParallel]
  | inside h b a k ih =>
    simp only [plug, ih, Code.inPlace_append, Code.InPlace, InPlace, inParallel]
    tauto

theorem inPlace_at : (k.plug (b ++ .node hd x z)).InPlace P false ↔ k.InPlace P ∧
    b.InPlace P k.inParallel ∧ P k.inParallel hd ∧
      x.InPlace P (k.inParallel || hd.kind.isParallel) ∧ z.InPlace P k.inParallel := by
  rw [inPlace_plug, Code.inPlace_append, Code.InPlace]

theorem InPlace.rename (hk : k.InPlace P) (hP : ∀ h ∈ k.heads, ∀ i, P i h → Q i (h.rename σ)) :
    (k.rename σ).InPlace Q := by
  induction k with
  | body => trivial
  | inside hd b a k ih =>
    obtain ⟨hb, hhd, ha, hk⟩ := hk
    simp only [heads, List.forall_mem_append, List.forall_mem_cons] at hP
    simp only [Spine.rename, InPlace, inParallel_rename]
    exact ⟨hb.rename hP.1.1, hP.1.2.1 _ hhd, ha.rename hP.1.2.2, ih hk hP.2⟩

theorem inPlace_splice (h : (k.plug (b ++ .node hd x z)).InPlace P false)
    (hP : ∀ h ∈ (k.plug (b ++ z)).heads, ∀ i, P i h → Q i (h.rename σ))
    (hy : y.InPlace Q k.inParallel) :
    ((k.rename σ).plug (b.rename σ ++ (y ++ z.rename σ))).InPlace Q false := by
  obtain ⟨hk, hb, -, -, hz⟩ := inPlace_at.1 h
  simp only [mem_heads_plug, Code.heads_append, List.mem_append] at hP
  rw [inPlace_plug, inParallel_rename, Code.inPlace_append, Code.inPlace_append]
  exact ⟨hk.rename fun h hh => hP h (.inr hh), hb.rename fun h hh => hP h (.inl (.inl hh)), hy,
    hz.rename fun h hh => hP h (.inl (.inr hh))⟩

end Spine

namespace Forest

variable {f g : Function} {t : Forest}
  (hkinds : ∀ op, (g.head? op).map (·.kind) = (f.head? op).map (·.kind))

include hkinds

theorem kinds_code : (t.code g).heads.map (·.kind) = (t.code f).heads.map (·.kind) := by
  induction t with
  | nil => rfl
  | node op body rest ihb ihr =>
    have hop := hkinds op
    rw [Forest.code, Forest.code]
    cases hf : f.head? op with
    | none =>
      rw [hf, Option.map_none, Option.map_eq_none_iff] at hop
      rw [hop]
      exact ihr
    | some hd =>
      rw [hf, Option.map_some, Option.map_eq_some_iff] at hop
      obtain ⟨hd', hg, hkind⟩ := hop
      rw [hg]
      simp only [Code.heads, List.map_cons, List.map_append, hkind, ihb, ihr]

theorem inPlace_code
    (hP : ∀ {i h h'}, h'.kind = h.kind → P i h → P i h') (h : (t.code f).InPlace P enclosed) :
    (t.code g).InPlace P enclosed := by
  induction t generalizing enclosed with
  | nil => trivial
  | node op body rest ihb ihr =>
    have hop := hkinds op
    rw [Forest.code] at h ⊢
    cases hf : f.head? op with
    | none =>
      rw [hf, Option.map_none, Option.map_eq_none_iff] at hop
      rw [hf] at h
      rw [hop]
      exact ihr h
    | some hd =>
      rw [hf, Option.map_some, Option.map_eq_some_iff] at hop
      obtain ⟨hd', hg, hkind⟩ := hop
      rw [hf] at h
      rw [hg]
      refine ⟨hP hkind h.1, ihb ?_, ihr h.2.2⟩
      rw [hkind]
      exact h.2.1

end Forest

end KernelLowering
