import KernelLowering.Proofs.Arena.DeadCode
import KernelLowering.Proofs.Execution.Scope

namespace KernelLowering

namespace Code

def exports : Code → List ValueId
  | nil => []
  | node h _ rest => rest.exports ++ (h.result.map (·.1)).toList

@[simp] theorem exports_append (x y : Code) : (x ++ y).exports = y.exports ++ x.exports := by
  induction x with
  | nil => rw [nil_append, exports, List.append_nil]
  | node h body rest _ ih => simp only [node_append, exports, ih, List.append_assoc]

@[simp] theorem exports_rename (σ : ValueId → ValueId) (x : Code) :
    (x.rename σ).exports = x.exports := by
  induction x with
  | nil => rfl
  | node h body rest _ ih => simp only [rename, exports, ih, Node.rename]

theorem exists_head_of_exports {x : Code} {v : ValueId} (hv : v ∈ x.exports) :
    ∃ h ∈ x.heads, ∃ t, h.result = some (v, t) := by
  induction x with
  | nil => cases hv
  | node h body rest _ ih =>
    rw [exports, List.mem_append, Option.mem_toList, Option.map_eq_some_iff] at hv
    rcases hv with hv | ⟨⟨u, t⟩, hres, rfl⟩
    · obtain ⟨h', hh', hres⟩ := ih hv
      exact ⟨h', List.mem_cons_of_mem h (List.mem_append_right _ hh'), hres⟩
    · exact ⟨h, List.mem_cons_self, t, hres⟩

theorem exports_subset_defined (x : Code) : x.exports ⊆ x.defined := by
  intro v hv
  obtain ⟨h, hh, t, hres⟩ := exists_head_of_exports hv
  exact List.mem_flatMap.2 ⟨h, hh, by simp [Node.defined, hres]⟩

def Everywhere (P : Node → List ValueId → Prop) : Code → List ValueId → Prop
  | nil, _ => True
  | node h body rest, known =>
    P h known ∧ body.Everywhere P (h.inductionVars ++ known) ∧
      rest.Everywhere P ((h.result.map (·.1)).toList ++ known)

instance Everywhere.decide {P : Node → List ValueId → Prop} [∀ h known, Decidable (P h known)] :
    ∀ (x : Code) (known : List ValueId), Decidable (x.Everywhere P known)
  | .nil, _ => isTrue trivial
  | .node h body rest, known =>
    have : Decidable (body.Everywhere P (h.inductionVars ++ known)) := Everywhere.decide body _
    have : Decidable (rest.Everywhere P ((h.result.map (·.1)).toList ++ known)) :=
      Everywhere.decide rest _
    inferInstanceAs (Decidable (P h known ∧ body.Everywhere P (h.inductionVars ++ known) ∧
      rest.Everywhere P ((h.result.map (·.1)).toList ++ known)))

theorem scoped_iff_everywhere {x : Code} {known : List ValueId} :
    x.Scoped known ↔ x.Everywhere (fun h known => ∀ v ∈ h.operands, v ∈ known) known := by
  induction x generalizing known with
  | nil => exact Iff.rfl
  | node h body rest ihb ihr => rw [Scoped, Everywhere, ihb, ihr]

theorem everywhere_append {P : Node → List ValueId → Prop} {x y : Code} {known : List ValueId} :
    (x ++ y).Everywhere P known ↔
      x.Everywhere P known ∧ y.Everywhere P (x.exports ++ known) := by
  induction x generalizing known with
  | nil => simp [Everywhere, exports]
  | node h body rest _ ih =>
    simp only [node_append, Everywhere, ih, exports, and_assoc, List.append_assoc]

namespace Everywhere

variable {P Q : Node → List ValueId → Prop} {D : ValueId → Prop} {σ : ValueId → ValueId}
  {x : Code} {known known' : List ValueId}

theorem rename (hx : x.Everywhere P known)
    (hstep : ∀ h ∈ x.heads, ∀ l l', (∀ v ∈ l, D v → σ v ∈ l') → P h l → Q (h.rename σ) l')
    (hknown : ∀ v ∈ known, D v → σ v ∈ known') (hdef : ∀ v ∈ x.defined, D v → σ v = v) :
    (x.rename σ).Everywhere Q known' := by
  induction x generalizing known known' with
  | nil => trivial
  | node hd body rest ihb ihr =>
    obtain ⟨hP, hbody, hrest⟩ := hx
    simp only [heads, List.forall_mem_cons, List.forall_mem_append] at hstep
    simp only [defined_node, Node.defined, List.forall_mem_append] at hdef
    have hmore : ∀ {new : List ValueId}, (∀ v ∈ new, D v → σ v = v) →
        ∀ v ∈ new ++ known, D v → σ v ∈ new ++ known' := by
      intro new hnew v hv hD
      rcases List.mem_append.1 hv with hv | hv
      · exact List.mem_append_left _ ((hnew v hv hD).symm ▸ hv)
      · exact List.mem_append_right _ (hknown v hv hD)
    exact ⟨hstep.1 known known' hknown hP, ihb hbody hstep.2.1 (hmore hdef.1.2) hdef.2.1,
      ihr hrest hstep.2.2 (hmore hdef.1.1) hdef.2.2⟩

theorem of_exports (hx : x.Everywhere P known) {v : ValueId} (hv : v ∈ x.exports) :
    ∃ h ∈ x.heads, (∃ t, h.result = some (v, t)) ∧ ∃ l, P h l ∧ l ⊆ x.exports ++ known := by
  induction x generalizing known with
  | nil => cases hv
  | node hd body rest _ ih =>
    obtain ⟨hP, -, hrest⟩ := hx
    rw [exports, List.mem_append, Option.mem_toList, Option.map_eq_some_iff] at hv
    rcases hv with hv | ⟨⟨u, t⟩, hres, rfl⟩
    · obtain ⟨h, hh, hres, l, hl, hsub⟩ := ih hrest hv
      refine ⟨h, List.mem_cons_of_mem hd (List.mem_append_right _ hh), hres, l, hl, ?_⟩
      rwa [exports, List.append_assoc]
    · exact ⟨hd, List.mem_cons_self, ⟨t, hres⟩, known, hP, List.subset_append_right _ _⟩

theorem imp (hx : x.Everywhere P known) (hPQ : ∀ h ∈ x.heads, ∀ l, P h l → Q h l) :
    x.Everywhere Q known := by
  induction x generalizing known with
  | nil => trivial
  | node hd body rest ihb ihr =>
    simp only [heads, List.forall_mem_cons, List.forall_mem_append] at hPQ
    exact ⟨hPQ.1 _ hx.1, ihb hx.2.1 hPQ.2.1, ihr hx.2.2 hPQ.2.2⟩

theorem and (hx : x.Everywhere P known) (hx' : x.Everywhere Q known) :
    x.Everywhere (fun h l => P h l ∧ Q h l) known := by
  induction x generalizing known with
  | nil => trivial
  | node hd body rest ihb ihr =>
    exact ⟨⟨hx.1, hx'.1⟩, ihb hx.2.1 hx'.2.1, ihr hx.2.2 hx'.2.2⟩

theorem of_mem (hx : x.Everywhere P known) {h : Node} (hh : h ∈ x.heads) :
    ∃ l, P h l ∧ l ⊆ x.defined ++ known := by
  induction x generalizing known with
  | nil => cases hh
  | node hd body rest ihb ihr =>
    obtain ⟨hP, hbody, hrest⟩ := hx
    rw [heads, List.mem_cons, List.mem_append] at hh
    simp only [defined_node, Node.defined]
    rcases hh with rfl | hh | hh
    · exact ⟨known, hP, List.subset_append_right _ _⟩
    · obtain ⟨l, hl, hsub⟩ := ihb hbody hh
      refine ⟨l, hl, fun v hv => ?_⟩
      have hin := hsub hv
      simp only [List.mem_append] at hin ⊢
      tauto
    · obtain ⟨l, hl, hsub⟩ := ihr hrest hh
      refine ⟨l, hl, fun v hv => ?_⟩
      have hin := hsub hv
      simp only [List.mem_append] at hin ⊢
      tauto

end Everywhere

namespace Scoped

variable {x y : Code} {known known' : List ValueId}

theorem rename {σ : ValueId → ValueId} (h : x.Scoped known) (hknown : ∀ v ∈ known, σ v ∈ known')
    (hdef : ∀ v ∈ x.defined, σ v = v) : (x.rename σ).Scoped known' := by
  refine scoped_iff_everywhere.2 ((scoped_iff_everywhere.1 h).rename (D := fun _ => True)
    (fun hd _ l l' hl hops v hv => ?_) (fun v hv _ => hknown v hv) fun v hv _ => hdef v hv)
  obtain ⟨u, hu, rfl⟩ := List.mem_map.1 hv
  exact hl u (hops u hu) trivial

theorem mono (h : x.Scoped known) (hsub : known ⊆ known') : x.Scoped known' := by
  rw [← x.rename_id]
  exact h.rename hsub fun _ _ => rfl

theorem mem_operands (hx : x.Scoped known) {h : Node} (hh : h ∈ x.heads) {v : ValueId}
    (hv : v ∈ h.operands) : v ∈ x.defined ++ known := by
  obtain ⟨l, hl, hsub⟩ := (scoped_iff_everywhere.1 hx).of_mem hh
  exact hsub (hl v hv)

end Scoped

theorem scoped_append {x y : Code} {known : List ValueId} :
    (x ++ y).Scoped known ↔ x.Scoped known ∧ y.Scoped (x.exports ++ known) := by
  simp only [scoped_iff_everywhere, everywhere_append]

end Code

namespace Spine

def known : Spine → List ValueId → List ValueId
  | body, base => base
  | inside h b _ k, base => h.inductionVars ++ (b.exports ++ k.known base)

def knownBehind (k : Spine) (b : Code) (base : List ValueId) : List ValueId :=
  b.exports ++ k.known base

def Everywhere (P : Node → List ValueId → Prop) : Spine → List ValueId → Prop
  | body, _ => True
  | inside h b a k, base =>
    b.Everywhere P (k.known base) ∧ P h (k.knownBehind b base) ∧
      a.Everywhere P ((h.result.map (·.1)).toList ++ k.knownBehind b base) ∧ k.Everywhere P base

variable {P Q : Node → List ValueId → Prop} {D : ValueId → Prop} {σ : ValueId → ValueId}
  {k : Spine} {b x y z : Code} {hd : Node} {base : List ValueId}

theorem everywhere_plug :
    (k.plug x).Everywhere P base ↔ k.Everywhere P base ∧ x.Everywhere P (k.known base) := by
  induction k generalizing x with
  | body => simp [plug, Everywhere, known]
  | inside h b a k ih =>
    simp only [plug, ih, Code.everywhere_append, Code.Everywhere, Everywhere, known, knownBehind]
    tauto

theorem everywhere_at : (k.plug (b ++ .node hd x z)).Everywhere P base ↔ k.Everywhere P base ∧
    b.Everywhere P (k.known base) ∧ P hd (k.knownBehind b base) ∧
      x.Everywhere P (hd.inductionVars ++ k.knownBehind b base) ∧
        z.Everywhere P ((hd.result.map (·.1)).toList ++ k.knownBehind b base) := by
  rw [everywhere_plug, Code.everywhere_append, Code.Everywhere, knownBehind]

@[simp] theorem known_rename : (k.rename σ).known base = k.known base := by
  induction k with
  | body => rfl
  | inside h b a k ih => simp only [rename, known, ih, Code.exports_rename, Node.rename]

theorem known_subset (k : Spine) (base : List ValueId) : k.known base ⊆ k.defined ++ base := by
  induction k with
  | body => exact List.Subset.refl _
  | inside h b a k ih =>
    intro v hv
    have hexports := b.exports_subset_defined (a := v)
    have hk := ih (a := v)
    simp only [known, List.mem_append] at hv hk
    simp only [defined, heads, List.flatMap_append, List.flatMap_cons, List.mem_append,
      Node.defined]
    simp only [defined, Code.defined] at hk hexports
    tauto

theorem knownBehind_subset (k : Spine) (b : Code) (base : List ValueId) :
    k.knownBehind b base ⊆ (k.plug b).defined ++ base := by
  intro v hv
  rw [List.mem_append, (k.defined_plug b).mem_iff, List.mem_append, or_assoc]
  rcases List.mem_append.1 hv with hv | hv
  · exact .inl (b.exports_subset_defined hv)
  · exact .inr (List.mem_append.1 (k.known_subset base hv))

namespace Everywhere

theorem rename (hk : k.Everywhere P base)
    (hstep : ∀ h ∈ k.heads, ∀ l l', (∀ v ∈ l, D v → σ v ∈ l') → P h l → Q (h.rename σ) l')
    (hfix : ∀ v, v ∈ k.defined ∨ v ∈ base → D v → σ v = v) :
    (k.rename σ).Everywhere Q base := by
  induction k with
  | body => trivial
  | inside hd b a k ih =>
    obtain ⟨hb, hP, ha, hk⟩ := hk
    simp only [heads, List.forall_mem_append, List.forall_mem_cons] at hstep
    simp only [defined, heads, List.flatMap_append, List.flatMap_cons, List.mem_append,
      Node.defined] at hfix
    have hknown : ∀ v ∈ k.known base, D v → σ v ∈ k.known base := fun v hv hD => by
      have hin := List.mem_append.1 (k.known_subset base hv)
      rwa [hfix v (hin.imp_left .inr) hD]
    have hbehind : ∀ v ∈ k.knownBehind b base, D v → σ v ∈ k.knownBehind b base := by
      intro v hv hD
      rcases List.mem_append.1 hv with hv | hv
      · rw [hfix v (.inl (.inl (.inl (b.exports_subset_defined hv)))) hD]
        exact List.mem_append_left _ hv
      · exact List.mem_append_right _ (hknown v hv hD)
    refine ⟨?_, ?_, ?_, ih hk hstep.2 fun v hv => hfix v (hv.imp_left .inr)⟩
    · rw [known_rename]
      exact hb.rename hstep.1.1 hknown fun v hv => hfix v (.inl (.inl (.inl hv)))
    · rw [knownBehind, Code.exports_rename, known_rename]
      exact hstep.1.2.1 _ _ hbehind hP
    · rw [knownBehind, Code.exports_rename, known_rename]
      refine ha.rename hstep.1.2.2 (fun v hv hD => ?_) fun v hv =>
        hfix v (.inl (.inl (.inr (.inr hv))))
      rcases List.mem_append.1 hv with hv | hv
      · rw [hfix v (.inl (.inl (.inr (.inl (.inl hv))))) hD]
        exact List.mem_append_left _ hv
      · exact List.mem_append_right _ (hbehind v hv hD)

theorem splice (h : (k.plug (b ++ .node hd x z)).Everywhere P base)
    (hstep : ∀ h ∈ (k.plug (b ++ z)).heads, ∀ l l', (∀ v ∈ l, D v → σ v ∈ l') → P h l →
      Q (h.rename σ) l')
    (hfix : ∀ v, v ∈ (k.plug (b ++ z)).defined ∨ v ∈ base → D v → σ v = v)
    (hy : y.Everywhere Q (k.knownBehind b base))
    (hres : ∀ v t, hd.result = some (v, t) → D v → σ v ∈ y.exports ++ k.knownBehind b base) :
    ((k.rename σ).plug (b.rename σ ++ (y ++ z.rename σ))).Everywhere Q base := by
  obtain ⟨hk, hb, -, -, hz⟩ := everywhere_at.1 h
  simp only [mem_heads_plug, Code.heads_append, List.mem_append] at hstep
  simp only [(k.defined_plug _).mem_iff, Code.defined_append, List.mem_append] at hfix
  have hknown : ∀ v ∈ k.known base, D v → σ v ∈ k.known base := fun v hv hD => by
    have hin := List.mem_append.1 (k.known_subset base hv)
    rwa [hfix v (hin.imp_left .inr) hD]
  rw [everywhere_plug, known_rename, Code.everywhere_append, Code.everywhere_append,
    Code.exports_rename]
  refine ⟨hk.rename (fun h hh => hstep h (.inr hh)) fun v hv => hfix v (hv.imp_left .inr),
    hb.rename (fun h hh => hstep h (.inl (.inl hh))) hknown fun v hv => hfix v (.inl (.inl (.inl hv))),
    hy, hz.rename (fun h hh => hstep h (.inl (.inr hh))) (fun v hv hD => ?_) fun v hv =>
      hfix v (.inl (.inl (.inr hv)))⟩
  rcases List.mem_append.1 hv with hv | hv
  · obtain ⟨⟨u, t⟩, hu, rfl⟩ := Option.map_eq_some_iff.1 (Option.mem_toList.1 hv)
    exact hres u t hu hD
  · refine List.mem_append_right _ ?_
    rcases List.mem_append.1 hv with hv | hv
    · rw [hfix v (.inl (.inl (.inl (b.exports_subset_defined hv)))) hD]
      exact List.mem_append_left _ hv
    · exact List.mem_append_right _ (hknown v hv hD)

theorem of_knownBehind {c : Code} {f : Function} (hr : f.Represents c) (hk : k.Everywhere P base)
    (hb : b.Everywhere P (k.known base)) (hsub : (k.plug b).heads ⊆ c.heads)
    (hbase : ∀ v ∈ base, v.index < f.arity) {h : Node} (hh : h ∈ c.heads) {v : ValueId}
    {t : ValueType} (hres : h.result = some (v, t)) (hv : v ∈ k.knownBehind b base) :
    ∃ l, P h l ∧ l ⊆ k.knownBehind b base := by
  have hdefined : v ∈ h.defined := by simp [Node.defined, hres]
  induction k generalizing b with
  | body =>
    rcases List.mem_append.1 hv with hv | hv
    · obtain ⟨h', hh', ⟨t', hres'⟩, hl⟩ := hb.of_exports hv
      rw [hr.eq_of_result hh (hsub hh') hres hres']
      exact hl
    · exact absurd (hbase v hv) (hr.not_argument (List.mem_flatMap.2 ⟨h, hh, hdefined⟩))
  | inside hd b' a k ih =>
    obtain ⟨hb', -, -, hk'⟩ := hk
    have hplug : ∀ h' ∈ b.heads ++ (hd :: (k.plug b').heads), h' ∈ c.heads := fun h' hh' => by
      refine hsub ?_
      simp only [List.mem_append, List.mem_cons, mem_heads_plug, plug, Code.heads_append,
        Code.heads] at hh' ⊢
      tauto
    rcases List.mem_append.1 hv with hv | hv
    · obtain ⟨h', hh', ⟨t', hres'⟩, hl⟩ := hb.of_exports hv
      rw [hr.eq_of_result hh (hplug _ (by simp [hh'])) hres hres']
      exact hl
    · rw [known, List.mem_append] at hv
      rcases hv with hv | hv
      · obtain ⟨i, hi⟩ := List.mem_iff_getElem?.1 hv
        have hvar := hr.var (hplug hd (by simp)) hi
        rw [hr.result hh hres] at hvar
        cases hvar
      · obtain ⟨l, hl, hsub'⟩ := ih hk' hb' (fun h' hh' => hplug h' (by simp [hh'])) hv
        refine ⟨l, hl, fun u hu => ?_⟩
        rw [knownBehind, known]
        exact List.mem_append_right _ (List.mem_append_right _ (hsub' hu))

end Everywhere

end Spine

namespace Function

variable {f g : Function} {k : Spine} {b x y z : Code} {hd : Node}

theorem mem_arguments {f : Function} {v : ValueId} : v ∈ f.arguments ↔ v.index < f.arity := by
  simp only [arguments, List.mem_map, List.mem_range]
  exact ⟨by rintro ⟨i, hi, rfl⟩; exact hi, fun h => ⟨v.index, h, rfl⟩⟩

theorem arguments_congr (h : g.arity = f.arity) : g.arguments = f.arguments := by
  rw [arguments, arguments, h]

theorem Represents.scoped_iff {c : Code} (hr : f.Represents c) :
    f.Scoped ↔ c.Scoped f.arguments := by
  rw [Function.Scoped, hr.code_eq]

theorem Represents.not_known (hr : f.Represents (k.plug (b ++ .node hd x z))) {v : ValueId}
    (hv : v ∈ hd.defined) : v ∉ k.knownBehind b f.arguments := by
  intro hknown
  rcases List.mem_append.1 (k.knownBehind_subset b f.arguments hknown) with hm | hm
  · refine hr.not_around hv ?_
    rw [(k.defined_plug _).mem_iff, Code.defined_append] at *
    simp only [List.mem_append] at hm ⊢
    tauto
  · exact hr.not_argument (List.mem_flatMap.2 ⟨hd, Spine.mem_heads_at k b x z hd, hv⟩)
      (mem_arguments.1 hm)

theorem Represents.fixes {σ : ValueId → ValueId} (hr : f.Represents (k.plug (b ++ .node hd x z)))
    (hσ : ∀ v, v ∉ hd.defined → f.Has v → σ v = v) {v : ValueId}
    (hv : v ∈ (k.plug (b ++ z)).defined ∨ v ∈ f.arguments) : σ v = v := by
  rcases hv with hv | hv
  · exact hσ v (fun hd' => hr.not_around hd' hv) (hr.has_around hv)
  · have hlt := mem_arguments.1 hv
    obtain ⟨t, ht⟩ := hr.argument hlt
    refine hσ v (fun hd' => ?_) (Array.getElem?_eq_some_iff.1 ht).1
    exact hr.not_argument (List.mem_flatMap.2 ⟨hd, Spine.mem_heads_at k b x z hd, hd'⟩) hlt

theorem Represents.of_known {P : Node → List ValueId → Prop}
    (hr : f.Represents (k.plug (b ++ .node hd x z)))
    (h : (k.plug (b ++ .node hd x z)).Everywhere P f.arguments) {hd' : Node} {v : ValueId}
    {t : ValueType} (hh : hd' ∈ (k.plug (b ++ .node hd x z)).heads) (hres : hd'.result = some (v, t))
    (hv : v ∈ k.knownBehind b f.arguments) : ∃ l, P hd' l ∧ l ⊆ k.knownBehind b f.arguments := by
  obtain ⟨hk, hb, -⟩ := Spine.everywhere_at.1 h
  refine hk.of_knownBehind hr hb (fun h' hh' => ?_) (fun u hu => mem_arguments.1 hu) hh hres hv
  rw [Spine.mem_heads_plug] at hh' ⊢
  exact hh'.imp_left fun hh' => by rw [Code.heads_append]; exact List.mem_append_left _ hh'

theorem Scoped.splice {σ : ValueId → ValueId} (hs : f.Scoped)
    (hr : f.Represents (k.plug (b ++ .node hd x z)))
    (hg : g.Represents ((k.rename σ).plug (b.rename σ ++ (y ++ z.rename σ))))
    (harity : g.arity = f.arity) (hσ : ∀ v, v ∉ hd.defined → f.Has v → σ v = v)
    (hy : y.Scoped (k.knownBehind b f.arguments))
    (hres : ∀ v t, hd.result = some (v, t) → (∃ h ∈ (k.plug (b ++ z)).heads, v ∈ h.operands) →
      σ v ∈ y.exports ++ k.knownBehind b f.arguments) :
    g.Scoped := by
  rw [hr.scoped_iff, Code.scoped_iff_everywhere] at hs
  rw [hg.scoped_iff, arguments_congr harity, Code.scoped_iff_everywhere]
  refine Spine.Everywhere.splice (D := fun v => ∃ h ∈ (k.plug (b ++ z)).heads, v ∈ h.operands) hs
    (fun h hh l l' hl hops v hv => ?_) (fun v hv _ => hr.fixes hσ hv)
    (Code.scoped_iff_everywhere.1 hy) hres
  obtain ⟨u, hu, rfl⟩ := List.mem_map.1 hv
  exact hl u (hops u hu) ⟨h, hh, hu⟩

end Function

end KernelLowering
