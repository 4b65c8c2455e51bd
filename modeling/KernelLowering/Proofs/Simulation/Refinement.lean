import KernelLowering.Proofs.Arena.Cursor
import KernelLowering.Proofs.Simulation.Definitions
import KernelLowering.Proofs.Simulation.Standing

namespace KernelLowering

def Refines (arity : Nat) (new old : List Action) : Prop :=
  ∀ m' m₁', Runs new m' m₁' → ∃ m m₁, (∀ c : Ref.Cell, c.1.index < arity → m' c = m c) ∧
    Runs old m m₁ ∧ ∀ c : Ref.Cell, c.1.index < arity → m₁' c = m₁ c

theorem Refines.refl (arity : Nat) (as : List Action) : Refines arity as as :=
  fun m' m₁' h => ⟨m', m₁', fun _ _ => rfl, h, fun _ _ => rfl⟩

theorem Refines.trans {arity : Nat} {as bs cs : List Action} (h : Refines arity as bs)
    (h' : Refines arity bs cs) : Refines arity as cs := by
  intro m m₁ hrun
  obtain ⟨m', m₁', hm, hrun', hm₁⟩ := h m m₁ hrun
  obtain ⟨m'', m₁'', hm', hrun'', hm₁'⟩ := h' m' m₁' hrun'
  exact ⟨m'', m₁'', fun c hc => (hm c hc).trans (hm' c hc), hrun'',
    fun c hc => (hm₁ c hc).trans (hm₁' c hc)⟩

theorem Refines.of_follows {ρ : Pairing} {arity : Nat} {new old : List Action}
    (h : Follows ρ new old) (hρ : ρ.OneToOne) (hargs : ∀ c : Ref.Cell, c.1.index < arity → ρ c c) :
    Refines arity new old := by
  intro m' m₁' hrun
  obtain ⟨m, hm⟩ : ∃ m, Mirrors ρ m m' := by
    classical
    refine ⟨fun c => if hc : ∃ c', ρ c c' then m' hc.choose else 0, fun c c' hc => ?_⟩
    have hex : ∃ c', ρ c c' := ⟨c', hc⟩
    have hsame : hex.choose = c' := (hρ _ _ _ _ hex.choose_spec hc).1 rfl
    simp only [dif_pos hex, hsame]
  obtain ⟨m₁, hrun₁, hm₁⟩ := h m m' m₁' hm hrun
  exact ⟨m, m₁, fun c hc => hm c c (hargs c hc), hrun₁, fun c hc => hm₁ c c (hargs c hc)⟩

structure Function.Sound (f : Function) (c : Code) : Prop where
  represents : f.Represents c
  typed : ∀ h ∈ c.heads, h.Typed f
  fit : c.Throughout Node.Fit (Env.entry f)
  raceFree : c.RaceFree (Env.entry f)

namespace Function

variable {f g : Function} {c c' : Code} {h : Node} {σ : ValueId → ValueId}

structure Improves (f g : Function) (c c' : Code) : Prop where
  sound : g.Sound c'
  grows : f.Grows g
  refines : Refines f.arity (c'.trace (Env.entry g)) (c.trace (Env.entry f))

theorem Sound.improves (hs : f.Sound c) : f.Improves f c c := ⟨hs, .refl f, .refl _ _⟩

theorem Improves.trans {g' : Function} {c'' : Code} (h : f.Improves g c c')
    (h' : g.Improves g' c' c'') : f.Improves g' c c'' :=
  ⟨h'.sound, h.grows.trans h'.grows, (h.grows.arity ▸ h'.refines).trans h.refines⟩

theorem Grows.has (hg : f.Grows g) {v : ValueId} (hv : f.Has v) : g.Has v :=
  Nat.lt_of_lt_of_le hv hg.values

theorem Grows.entry (hg : f.Grows g) (hr : f.Represents c) : Env.entry g = Env.entry f := by
  funext v
  rw [Env.entry, Env.entry, hg.arity]
  by_cases hlt : v.index < f.arity
  · obtain ⟨t, ht⟩ := hr.argument hlt
    have ht : f.value? v = some ⟨t, .argument v.index⟩ := ht
    rw [if_pos hlt, if_pos hlt, ht, hg.value ht]
  · rw [if_neg hlt, if_neg hlt]

theorem Represents.has_argument (hr : f.Represents c) {v : ValueId} (hv : v.index < f.arity) :
    f.Has v := by
  obtain ⟨t, ht⟩ := hr.argument hv
  exact (Array.getElem?_eq_some_iff.1 ht).1

theorem Represents.stays {k : Spine} {b x z : Code} {hd : Node}
    (hr : f.Represents (k.plug (b ++ .node hd x z))) {v : ValueId}
    (hv : v.index < f.arity ∨ v ∈ (k.plug (b ++ z)).defined) :
    f.Has v ∧ v ∉ hd.defined ∧ v ∉ x.defined := by
  rcases hv with hv | hv
  · have hin : ∀ {u}, u ∈ hd.defined ∨ u ∈ x.defined → u ∈ (k.plug (b ++ .node hd x z)).defined := by
      intro u hu
      rw [(k.defined_plug _).mem_iff, Code.defined_append, Code.defined_node]
      simp only [List.mem_append]
      tauto
    exact ⟨hr.has_argument hv, fun hm => hr.not_argument (hin (.inl hm)) hv,
      fun hm => hr.not_argument (hin (.inr hm)) hv⟩
  · exact ⟨hr.has_around hv, fun hm => hr.not_around hm hv, fun hm => hr.not_around_within (.inr hm) hv⟩

structure Respects (f g : Function) (σ : ValueId → ValueId) : Prop where
  has : ∀ {v}, f.Has v → g.Has (σ v)
  buffer : ∀ {v type}, f.bufferType? v = .ok (some type) →
    ∃ type', g.bufferType? (σ v) = .ok (some type')

theorem Grows.respects (hg : f.Grows g) : f.Respects g id :=
  ⟨fun hv => hg.has hv, fun hv => ⟨_, hg.bufferType? hv⟩⟩

theorem Respects.typed (hσ : f.Respects g σ) (ht : h.Typed f) : (h.rename σ).Typed g := by
  cases ht with
  | constant op value v => exact .constant op value v
  | addIndex op v hx hy => exact .addIndex op v (hσ.has hx) (hσ.has hy)
  | alloc op v type => exact .alloc op v type
  | view op v type hx => exact .view op v type (hσ.has hx)
  | subView op v hsource hsupplied hcount hoffsets hstrides hshape =>
    obtain ⟨source, hsource⟩ := hσ.buffer hsource
    refine .subView op v hsource ?_ (by simpa using hcount) hoffsets hstrides hshape
    intro u hu
    obtain ⟨u', hu', rfl⟩ := List.mem_map.1 hu
    exact hσ.has (hsupplied u' hu')
  | effect op marker hpure hloop hcopy hops =>
    refine .effect op marker hpure hloop (fun hk => ?_) fun u hu => ?_
    · exact (List.length_map σ).trans (hcopy hk)
    · obtain ⟨u', hu', rfl⟩ := List.mem_map.1 hu
      exact hσ.has (hops u' hu')
  | loop op vars hloop => exact .loop op vars hloop

theorem Grows.typed (hg : f.Grows g) (ht : h.Typed f) : h.Typed g := by
  exact h.rename_id ▸ hg.respects.typed ht

def KeepsArguments (f : Function) (s : Standing) (σ : ValueId → ValueId) : Prop :=
  ∀ v : ValueId, v.index < f.arity → σ v = v ∧
    (∀ shape, s.stands (.whole v shape) (.whole v shape)) ∧ ∀ i, s.pairing (v, i) (v, i)

theorem Sound.pass {s : Standing} {kept : ValueId → Prop} (hs : f.Sound c) (hg : g.Represents c')
    (ht : ∀ h ∈ c'.heads, h.Typed g) (hgrows : f.Grows g)
    (hp : (Passage.standing s σ kept (Env.Informed f c)).Passes c c')
    (hargs : f.KeepsArguments s σ) : f.Improves g c c' := by
  have hentry := hgrows.entry hs.represents
  have hlinks : (Passage.standing s σ kept (Env.Informed f c)).Links (Env.entry f)
      (Env.entry f) := by
    intro v item hv _
    by_cases hlt : v.index < f.arity
    · have hsame : Env.entry f (σ v) = some item := (congrArg _ (hargs v hlt).1).trans hv
      refine ⟨item, hsame, ?_⟩
      rw [Env.entry, if_pos hlt] at hv
      obtain ⟨type, -, rfl⟩ := Option.map_eq_some_iff.1 hv
      exact .buffer ((hargs v hlt).2.1 type.shape)
    · rw [Env.entry, if_neg hlt] at hv
      cases hv
  have hsteps := hp.steps (Env.entry f) (Env.entry f) hs.represents.unbound_entry
    (hentry ▸ hg.unbound_entry) hlinks (hs.fit.and (hs.represents.informed hs.typed hs.fit))
  refine ⟨⟨hg, ht, hentry ▸ hsteps.after, hentry ▸ hsteps.raceFree hs.raceFree⟩, hgrows, ?_⟩
  rw [hentry]
  exact .of_follows hsteps.mimics.follows s.oneToOne fun c hc => (hargs c.1 hc).2.2 c.2

theorem Sound.typed_at {k : Spine} {b x z : Code} {hd : Node}
    (hs : f.Sound (k.plug (b ++ .node hd x z))) : hd.Typed f :=
  hs.typed hd (k.mem_heads_at b x z hd)

theorem Sound.exchange {s : Standing} {kept : ValueId → Prop} {k : Spine} {b u y z : Code}
    (hs : f.Sound (k.plug (b ++ (u ++ z))))
    (hg : g.Represents ((k.rename σ).plug (b.rename σ ++ (y ++ z.rename σ))))
    (hgrows : f.Grows g) (hσ : f.Respects g σ) (hy : ∀ h ∈ y.heads, h.Typed g)
    (htakes : ∀ h ∈ (k.plug (b ++ z)).heads,
      (Passage.standing s σ kept (Env.Informed f (k.plug (b ++ (u ++ z))))).Takes h (h.rename σ))
    (hargs : f.KeepsArguments s σ)
    (hhole : (Passage.standing s σ kept (Env.Informed f (k.plug (b ++ (u ++ z))))).Passes u y) :
    f.Improves g (k.plug (b ++ (u ++ z)))
      ((k.rename σ).plug (b.rename σ ++ (y ++ z.rename σ))) := by
  have hheads : ∀ h, h ∈ (k.plug (b ++ z)).heads ↔ h ∈ b.heads ∨ h ∈ z.heads ∨ h ∈ k.heads := by
    intro h
    rw [Spine.mem_heads_plug, Code.heads_append, List.mem_append, or_assoc]
  have hnd := hs.represents.nodup_defined
  have hnd' := hg.nodup_defined
  have hinner := Spine.nodup_defined_plug hnd
  have hinner' := Spine.nodup_defined_plug hnd'
  have hpieces := hinner
  rw [Code.defined_append] at hpieces
  obtain ⟨hndb, hndh, -⟩ := List.nodup_append'.1 hpieces
  have hpieces' := hinner'
  rw [Code.defined_append] at hpieces'
  obtain ⟨-, hndh', -⟩ := List.nodup_append'.1 hpieces'
  have hndz := hndh
  rw [Code.defined_append] at hndz
  obtain ⟨-, hndz, -⟩ := List.nodup_append'.1 hndz
  have hregion : (Passage.standing s σ kept (Env.Informed f (k.plug (b ++ (u ++ z))))).Passes
      (b ++ (u ++ z)) (b.rename σ ++ (y ++ z.rename σ)) := by
    have hb := Passage.passes_rename (fun h hh => htakes h ((hheads h).2 (.inl hh))) hndb
    have hz := Passage.passes_rename
      (fun h hh => htakes h ((hheads h).2 (.inr (.inl hh)))) hndz
    exact hb.append (hhole.append hz hndh hndh') hinner hinner'
  have hall := hregion.plug (fun h hh => htakes h ((hheads h).2 (.inr (.inr hh)))) hnd hnd'
  refine hs.pass hg (fun h hh => ?_) hgrows hall hargs
  have hold : ∀ h, h ∈ b.heads ∨ h ∈ z.heads ∨ h ∈ k.heads → (h.rename σ).Typed g := by
    intro h hh
    refine hσ.typed (hs.typed h ?_)
    simp only [Spine.mem_heads_plug, Code.heads_append, List.mem_append]
    rcases hh with hh | hh | hh
    · exact .inl (.inl hh)
    · exact .inl (.inr (.inr hh))
    · exact .inr hh
  rw [Spine.mem_heads_plug, Code.heads_append, Code.heads_append] at hh
  simp only [List.mem_append, Code.heads_rename, Spine.heads_rename, List.mem_map] at hh
  rcases hh with (⟨h, hh, rfl⟩ | hh | ⟨h, hh, rfl⟩) | ⟨h, hh, rfl⟩
  · exact hold h (.inl hh)
  · exact hy h hh
  · exact hold h (.inr (.inl hh))
  · exact hold h (.inr (.inr hh))

theorem Sound.splice {k : Spine} {b x y z : Code} {hd : Node} {kept hidden : ValueId → Prop}
    (hs : f.Sound (k.plug (b ++ .node hd x z)))
    (hg : g.Represents ((k.rename σ).plug (b.rename σ ++ (y ++ z.rename σ))))
    (hgrows : f.Grows g) (hσ : f.Respects g σ) (hy : ∀ h ∈ y.heads, h.Typed g)
    (hkept : ∀ h ∈ (k.plug (b ++ z)).heads, ∀ v ∈ h.operands, kept v)
    (hfix : ∀ v, v.index < f.arity ∨ v ∈ (k.plug (b ++ z)).defined → σ v = v ∧ ¬ hidden v)
    (hhole : (Passage.plain σ kept hidden (Env.Informed f (k.plug (b ++ .node hd x z)))).Passes
      (.node hd x .nil) y) :
    f.Improves g (k.plug (b ++ .node hd x z))
      ((k.rename σ).plug (b.rename σ ++ (y ++ z.rename σ))) := by
  have hsame : k.plug (b ++ .node hd x z) = k.plug (b ++ (.node hd x .nil ++ z)) := rfl
  rw [hsame] at hs hhole ⊢
  refine hs.exchange hg hgrows hσ hy (fun h hh => Passage.plain_takes (hkept h hh) fun v hv =>
    hfix v (.inr (List.mem_flatMap.2 ⟨h, hh, hv⟩))) (fun v hv => ?_) hhole
  obtain ⟨hv, hshown⟩ := hfix v (.inl hv)
  exact ⟨hv, fun _ => ⟨rfl, hshown⟩, fun _ => ⟨rfl, hshown⟩⟩

end Function

end KernelLowering
