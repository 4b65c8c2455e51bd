import KernelLowering.Proofs.Arena.Cursor
import KernelLowering.Proofs.Execution.Simulation
import KernelLowering.Proofs.Simulation.Lookup

namespace KernelLowering

def Data.Honours (c : Code) (data : Data) : Prop :=
  ∀ v n d, c.constant? v = some n → data v = some d → d = .index n

namespace Function

variable {f g : Function} {c x y z b : Code} {k : Spine} {h hd : Node}

def Follows (f g : Function) : Prop :=
  ∀ arguments, Effect.AllRefine (f.effects arguments) (g.effects arguments)

theorem Follows.refl (f : Function) : f.Follows f := fun _ => .refl _

theorem Follows.trans {f₁ f₂ f₃ : Function} (h : f₁.Follows f₂) (h' : f₂.Follows f₃) :
    f₁.Follows f₃ := fun arguments => (h arguments).trans (h' arguments)

structure Realizes (f g : Function) : Prop where
  wellFormed : g.WellFormed
  grows : f.Grows g
  follows : f.Follows g

theorem Realizes.trans {f₁ f₂ f₃ : Function} (h : f₁.Realizes f₂) (h' : f₂.Realizes f₃) :
    f₁.Realizes f₃ := ⟨h'.wellFormed, h.grows.trans h'.grows, h.follows.trans h'.follows⟩

theorem Follows.eq_of_complete (h : f.Follows g) {arguments : List Datum}
    (hc : ∀ e ∈ f.effects arguments, e.Complete) : g.effects arguments = f.effects arguments :=
  (h arguments).eq_of_complete hc

namespace Represents

theorem effects_eq (hr : f.Represents c) (arguments : List Datum) :
    f.effects arguments = c.effects (fun _ => 0) (Data.entry f arguments) := by
  rw [effects, hr.code_eq]

theorem fresh_entry (hr : f.Represents c) (arguments : List Datum) :
    c.Fresh (Data.entry f arguments) := fun _ hv => if_neg (hr.not_argument hv)

theorem honours_settle (hr : f.Represents c) (hh : h ∈ c.heads) (turns : Turns) {data : Data}
    (hd : data.Honours c) : (h.settle turns data).Honours c := by
  intro v n d hn hv
  rcases Node.settle_cases hv with hv | ⟨t, hres, hdatum⟩
  · exact hd v n d hn hv
  · rw [Code.constant?, hr.definer?_eq hh hres, Option.bind_some, OpKind.constant?_eq_some] at hn
    rw [Node.datum, hn] at hdatum
    exact (Option.some.inj hdatum).symm

theorem honours_setAll (hr : f.Represents c) (hh : h ∈ c.heads) {data : Data}
    (hd : data.Honours c) (is : List Int) : (data.setAll h.inductionVars is).Honours c := by
  intro v n d hn hv
  rcases data.setAll_cases h.inductionVars is v with hset | ⟨hm, -, -⟩
  · exact hd v n d hn ((hset data).symm.trans hv)
  · obtain ⟨h', hdef, -⟩ := Option.bind_eq_some_iff.1 hn
    obtain ⟨hh', t, hres⟩ := Code.of_definer? hdef
    obtain ⟨i, hi⟩ := List.mem_iff_getElem?.1 hm
    have hvar := hr.var hh hi
    rw [hr.result hh' hres] at hvar
    simp at hvar

theorem honours_entry (hr : f.Represents c) (arguments : List Datum) :
    (Data.entry f arguments).Honours c := by
  intro v n d hn hv
  obtain ⟨h, hdef, -⟩ := Option.bind_eq_some_iff.1 hn
  obtain ⟨hh, t, hres⟩ := Code.of_definer? hdef
  rw [hr.fresh_entry arguments v (List.mem_flatMap.2 ⟨h, hh, by simp [Node.defined, hres]⟩)] at hv
  cases hv

end Represents

end Function

namespace Change

variable {p : Change} {k : Spine} {x y : Code}

theorem Simulates.plug (hx : p.Simulates x y) (hk : ∀ h ∈ k.heads, p.Leaves h)
    (hnd : (k.plug x).defined.Nodup) (hnd' : ((k.rename p.rename).plug y).defined.Nodup) :
    p.Simulates (k.plug x) ((k.rename p.rename).plug y) := by
  induction k generalizing x y with
  | body => exact hx
  | inside h b a k ih =>
    simp only [Spine.heads, List.append_assoc, List.cons_append, List.forall_mem_append,
      List.forall_mem_cons] at hk
    obtain ⟨hb, hh, ha, hk⟩ := hk
    rw [Spine.plug] at hnd
    rw [Spine.rename, Spine.plug] at hnd'
    have hinner := Spine.nodup_defined_plug hnd
    have hinner' := Spine.nodup_defined_plug hnd'
    have hpieces := hinner
    rw [Code.defined_append] at hpieces
    obtain ⟨hndb, hndh, -⟩ := List.nodup_append'.1 hpieces
    have hpieces' := hinner'
    rw [Code.defined_append] at hpieces'
    obtain ⟨-, hndh', -⟩ := List.nodup_append'.1 hpieces'
    have hnda := hndh
    rw [Code.defined_node] at hnda
    obtain ⟨-, hnda, -⟩ := List.nodup_append'.1 hnda
    obtain ⟨-, hnda, -⟩ := List.nodup_append'.1 hnda
    exact ih ((simulates_rename hb hndb).append (.node hh hx (simulates_rename ha hnda) hndh hndh')
      hinner hinner') hk hnd hnd'

end Change

namespace Function

variable {f g : Function} {x y z b : Code} {k : Spine} {hd : Node} {σ : ValueId → ValueId}

theorem Represents.leaves_around {kept gone : ValueId → Prop}
    (hf : f.Represents (k.plug (b ++ .node hd x z)))
    (hkept : ∀ h ∈ (k.plug (b ++ z)).heads, ∀ v ∈ h.operands, kept v)
    (hfix : ∀ v ∈ (k.plug (b ++ z)).defined, σ v = v ∧ ¬ gone v) {h : Node}
    (hh : h ∈ (k.plug (b ++ z)).heads) :
    Change.Leaves ⟨σ, kept, gone, Data.Honours (k.plug (b ++ .node hd x z))⟩ h := by
  have hmem := Spine.mem_heads_around hh hd x
  exact {
    operands := hkept h hh
    defined := fun v hv => hfix v (List.mem_flatMap.2 ⟨h, hh, hv⟩)
    settle := fun turns _ _ hdata => hf.honours_settle hmem turns hdata
    setAll := fun is _ _ hdata => hf.honours_setAll hmem hdata is }

theorem Represents.follows_splice (kept gone : ValueId → Prop)
    (hf : f.Represents (k.plug (b ++ .node hd x z)))
    (hg : g.Represents ((k.rename σ).plug (b.rename σ ++ (y ++ z.rename σ))))
    (harity : g.arity = f.arity)
    (hkept : ∀ h ∈ (k.plug (b ++ z)).heads, ∀ v ∈ h.operands, kept v)
    (hfix : ∀ v, v.index < f.arity ∨ v ∈ (k.plug (b ++ z)).defined → σ v = v ∧ ¬ gone v)
    (hhole : Change.Simulates ⟨σ, kept, gone, Data.Honours (k.plug (b ++ .node hd x z))⟩
      (.node hd x .nil) y) : f.Follows g := by
  intro arguments
  have hheads : ∀ h, h ∈ (k.plug (b ++ z)).heads ↔ h ∈ b.heads ∨ h ∈ z.heads ∨ h ∈ k.heads := by
    intro h
    rw [Spine.mem_heads_plug, Code.heads_append, List.mem_append, or_assoc]
  have hleaves : ∀ h ∈ (k.plug (b ++ z)).heads,
      Change.Leaves ⟨σ, kept, gone, Data.Honours (k.plug (b ++ .node hd x z))⟩ h := fun h hh =>
    hf.leaves_around hkept (fun v hv => hfix v (.inr hv)) hh
  have hnd := hf.nodup_defined
  have hnd' := hg.nodup_defined
  have hinner := Spine.nodup_defined_plug hnd
  have hinner' := Spine.nodup_defined_plug hnd'
  have hpieces := hinner
  rw [Code.defined_append] at hpieces
  obtain ⟨hndb, hndh, -⟩ := List.nodup_append'.1 hpieces
  have hpieces' := hinner'
  rw [Code.defined_append] at hpieces'
  obtain ⟨-, hndh', -⟩ := List.nodup_append'.1 hpieces'
  have hndz := hndh
  rw [Code.defined_node] at hndz
  obtain ⟨-, hndz, -⟩ := List.nodup_append'.1 hndz
  obtain ⟨-, hndz, -⟩ := List.nodup_append'.1 hndz
  have hb := Change.simulates_rename (fun h hh => hleaves h ((hheads h).2 (.inl hh))) hndb
  have hz := Change.simulates_rename (fun h hh => hleaves h ((hheads h).2 (.inr (.inl hh)))) hndz
  have hregion := hb.append (hhole.append hz hndh hndh') hinner hinner'
  have hall := hregion.plug (fun h hh => hleaves h ((hheads h).2 (.inr (.inr hh)))) hnd hnd'
  have hentry : Data.entry g arguments = Data.entry f arguments := by
    funext v
    rw [Data.entry, Data.entry, harity]
  rw [hf.effects_eq, hg.effects_eq, hentry]
  refine (hall.runs _ _ _ _ (hf.fresh_entry arguments) (hentry ▸ hg.fresh_entry arguments) ?_
    (fun _ _ => rfl) (hf.honours_entry arguments)).1
  intro v d _ hv
  by_cases hlt : v.index < f.arity
  · exact (congrArg _ (hfix v (.inl hlt)).1).trans hv
  · rw [Data.entry, if_neg hlt] at hv
    cases hv

end Function

end KernelLowering
