import KernelLowering.Proofs.Folding.Additions
import KernelLowering.Proofs.Folding.Chains
import KernelLowering.Proofs.Folding.Offsets
import KernelLowering.Proofs.Lifetime.Pipeline
import KernelLowering.Proofs.Lifetime.Relocation
import KernelLowering.Proofs.Promotion.Refinement
import KernelLowering.Proofs.Simulation.DeadCode
import KernelLowering.Proofs.Tiling.Refinement

namespace KernelLowering

variable {f g : Function} {k : Spine} {b x z c : Code} {hd h : Node} {rules : List Rule} {plan : KernelPlan}
  {faults : Fault → Prop} {P : Function → Prop} {op : OpId} {env : Env}

theorem Rule.improves (rule : Rule) (hs : f.Sound (k.plug (b ++ .node hd x z)))
    (hcareful : ∀ space, rule = .reallocation space → f.Careful) (hans : (rule.apply f hd.op).Answers g) :
    f.Improves g (k.plug (b ++ .node hd x z)) g.code := by
  have hgives : ∃ c, f.Improves g (k.plug (b ++ .node hd x z)) c := by
    cases rule with
    | tiling t =>
      rw [apply, Inspect.answers_bind] at hans
      obtain ⟨⟨⟩, hcheck, hperform⟩ := hans
      obtain ⟨_, _, _, -, -, -, -, himproves⟩ :=
        (Tiling.yields_refinement hs hcheck).of_ok (Inspect.answers_lift.1 hperform)
      exact ⟨_, himproves⟩
    | promotion p =>
      rw [apply, Inspect.answers_bind] at hans
      obtain ⟨⟨⟩, hcheck, hperform⟩ := hans
      exact (Promotion.yields_refinement hs hcheck).of_ok (Inspect.answers_lift.1 hperform)
    | viewFolding => exact (ViewFolding.gives_refinement hs).of_answers hans
    | reallocation space => exact (Reallocation.gives_refinement (hcareful space rfl) hs).of_answers hans
    | trivialLoops => exact (TrivialLoops.gives_refinement hs).of_answers hans
    | additionFolding =>
      obtain ⟨_, _, _, -, -, -, -, -, himproves⟩ := (AdditionFolding.gives_refinement hs).of_answers hans
      exact ⟨_, himproves⟩
    | offsetFolding => exact (OffsetFolding.gives_refinement hs).of_answers hans
  obtain ⟨c, hc⟩ := hgives
  exact hc.sound.represents.code_eq ▸ hc

namespace Greedy

theorem Keeps.improves (h : Keeps faults P rules) (hrules : ∀ space, .reallocation space ∉ rules)
    (f₀ : Function) (c₀ : Code) : Keeps faults (fun f => P f ∧ f₀.Improves f c₀ f.code) rules where
  wellFormed f hf := h.wellFormed f hf.1
  sheds f g k b x z hd hf hs := ⟨h.sheds f g k b x z hd hf.1 hs, hf.2.shed hs⟩
  rule rule hrule f k b hd x z hf hr := by
    have hold := hf.2
    rw [hr.code_eq] at hold
    refine Ends.mono (h.rule rule hrule hf.1 hr) fun r hrun hkeeps g hg => ?_
    obtain ⟨hP, hsize⟩ := hkeeps g hg
    have hans : (rule.apply f hd.op).Answers g := by rw [Inspect.Answers, hrun, hg]
    exact ⟨⟨hP, hold.trans (rule.improves hold.sound
      (fun space he => (hrules space (he ▸ hrule)).elim) hans)⟩, hsize⟩

theorem Settles.improves {Q : Function → List Node → Prop} (h : Settles faults rules Q)
    (hcareful : ∀ {f done}, Q f done → f.Careful) (f₀ : Function) (c₀ : Code) :
    Settles faults rules fun f done => Q f done ∧ f₀.Improves f c₀ f.code where
  wellFormed hf := h.wellFormed hf.1
  change := by
    rintro f k b hd x z hr ⟨hQ, hold⟩ rule hrule
    rw [hr.code_eq] at hold
    refine (h.change hr hQ rule hrule).mono fun g hans hchange => ?_
    obtain ⟨σ, new, hreplaces, hQ'⟩ := hchange
    exact ⟨σ, new, hreplaces, hQ', hold.trans (rule.improves hold.sound (fun _ _ => hcareful hQ) hans)⟩
  skip hr hQ hdeclines := ⟨h.skip hr hQ.1 hdeclines, hQ.2⟩

theorem run_improves (maxSweeps : Nat) {f₀ : Function} {c₀ : Code} (hf : f.Careful)
    (himproves : f₀.Improves f c₀ f.code) :
    Yields True (run Rule.viewCleanup maxSweeps f).outcome fun r => f₀.Improves r.1 c₀ r.1.code := by
  have hsettles := settles_careful.improves (fun h => h.1) f₀ c₀
  have hsweep : ∀ f, f.Careful ∧ f₀.Improves f c₀ f.code →
      Ends (· = .overflow) (sweep Rule.viewCleanup f).outcome fun s =>
        (s.function.Careful ∧ f₀.Improves s.function c₀ s.function.code) ∧ s.function.deadOps = [] := by
    intro f hf
    refine hsettles.sweep (P := fun f => f.Careful ∧ f₀.Improves f c₀ f.code) ⟨⟨hf.1, by simp⟩, hf.2⟩
      (fun _ h => ⟨h.1.1, h.2⟩) (fun _ h => h.1.cleanable.built.wellFormed)
      fun f g k b x z hd h hs => ⟨h.1.shed hs, ?_⟩
    exact h.2.shed hs
  exact ends_overflow.1 <| run_of_sweep hsweep (Q := fun g => f₀.Improves g c₀ g.code)
    (fun _ h _ => h.2) maxSweeps ⟨hf, himproves⟩ himproves

end Greedy

section Markers

theorem Node.of_unmarked (op : OpId) (h : Node) (env : Env) :
    (h.unmarked op).bind env = h.bind env ∧ (h.unmarked op).actions env = h.actions env ∧
      (h.unmarked op).allocated = h.allocated := by
  unfold unmarked
  split <;> exact ⟨rfl, rfl, rfl⟩

theorem Node.Fit.unmarked (hf : h.Fit env) (op : OpId) : (h.unmarked op).Fit env := by
  unfold Node.unmarked
  split
  · exact ⟨hf.acts, hf.shows⟩
  · exact hf

theorem Node.Typed.unmarked (ht : h.Typed f) (op : OpId) : (h.unmarked op).Typed f := by
  unfold Node.unmarked
  split
  · cases ht with
    | constant op value v => exact .constant op value v
    | addIndex op v hx hy => exact .addIndex op v hx hy
    | alloc op v type => exact .alloc op v type
    | view op v type hx => exact .view op v type hx
    | subView op v hsource hsupplied hcount hoffsets hstrides hshape =>
      exact .subView op v hsource hsupplied hcount hoffsets hstrides hshape
    | effect op marker hpure hloop hcopy hops => exact .effect op none hpure hloop hcopy hops
    | loop op vars hloop => exact .loop op vars hloop
  · exact ht

namespace Code

theorem Throughout.unmarked (hf : c.Throughout Node.Fit env) (op : OpId) :
    (c.unmarked op).Throughout Node.Fit env := by
  induction c generalizing env with
  | nil => trivial
  | node h body rest ihb ihr =>
    obtain ⟨hh, hbody, hrest⟩ := hf
    refine ⟨hh.unmarked op, fun i hi => ?_, ?_⟩
    · rw [Node.kind_unmarked] at hi
      rw [Node.inductionVars_unmarked]
      exact ihb (hbody i hi)
    · rw [(h.of_unmarked op env).1]
      exact ihr hrest

theorem trace_unmarked (op : OpId) (c : Code) (env : Env) : (c.unmarked op).trace env = c.trace env := by
  induction c generalizing env with
  | nil => rfl
  | node h body rest ihb ihr =>
    obtain ⟨hbind, hactions, -⟩ := h.of_unmarked op env
    simp only [unmarked, trace, hbind, hactions, ihb, ihr, Node.kind_unmarked, Node.inductionVars_unmarked]

theorem allocated_unmarked (op : OpId) (c : Code) : (c.unmarked op).allocated = c.allocated := by
  rw [allocated, allocated, heads_unmarked, List.flatMap_map]
  exact List.flatMap_congr fun h _ => (h.of_unmarked op fun _ => none).2.2

theorem RaceFree.unmarked (hf : c.RaceFree env) (op : OpId) : (c.unmarked op).RaceFree env := by
  induction c generalizing env with
  | nil => trivial
  | node h body rest ihb ihr =>
    obtain ⟨hh, hbody, hrest⟩ := hf
    simp only [Code.unmarked, RaceFree, Independent, trace_unmarked, allocated_unmarked,
      Node.kind_unmarked, Node.inductionVars_unmarked, (h.of_unmarked op env).1]
    exact ⟨hh, fun i hi => ihb (hbody i hi), ihr hrest⟩

end Code

theorem Function.Sound.stripMarker (hs : f.Sound c) (op : OpId) :
    f.Improves (f.stripMarker op) c (c.unmarked op) := by
  have hsame : f.SameValues (f.stripMarker op) := f.sameValues_modifyOp op fun _ => rfl
  have hgrows := hsame.grows
  have hentry := hgrows.entry hs.represents
  refine ⟨⟨hs.represents.stripMarker op, fun h hh => ?_, ?_, ?_⟩, hgrows, ?_⟩
  · rw [Code.heads_unmarked] at hh
    obtain ⟨h, hin, rfl⟩ := List.mem_map.1 hh
    exact (hgrows.typed (hs.typed h hin)).unmarked op
  · rw [hentry]
    exact hs.fit.unmarked op
  · rw [hentry]
    exact hs.raceFree.unmarked op
  · rw [hentry, Code.trace_unmarked]
    exact .refl _ _

theorem Function.Improves.stripMarkers (h : f.Improves g c g.code) :
    f.Improves (Pipeline.stripMarkers g) c (Pipeline.stripMarkers g).code := by
  refine Pipeline.stripMarkers_induction (P := fun g => f.Improves g c g.code) (fun g op hg => ?_) h
  have hstripped := hg.trans (hg.sound.stripMarker op)
  exact hstripped.sound.represents.code_eq ▸ hstripped

end Markers

end KernelLowering
