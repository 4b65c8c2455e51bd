import KernelLowering.Program.Code

namespace KernelLowering

namespace Function

instance Places.decide (f : Function) : ∀ (parent : Option OpId) (c : Code), Decidable (f.Places parent c)
  | _, .nil => isTrue trivial
  | parent, .node h body rest =>
    have := Places.decide f (some h.op) body
    have := Places.decide f parent rest
    inferInstanceAs (Decidable (f.op? h.op = some (h.record parent body.roots) ∧
      f.Places (some h.op) body ∧ f.Places parent rest))

def Matches (f : Function) (c : Code) : Prop :=
  (f.body = c.roots ∧ f.Places none c ∧ c.ops.Nodup) ∧
    (∀ i : Fin f.ops.size, f.ops[i].live = true → ⟨i⟩ ∈ c.ops) ∧
    (∀ h ∈ c.heads, (∀ r ∈ h.result.toList, f.value? r.1 = some ⟨r.2, .result h.op⟩) ∧
      h.inductionVars.length = h.kind.loopRanges.length ∧
        ∀ r ∈ h.inductionVars.zipIdx, f.value? r.1 = some ⟨.index, .inductionVar h.op r.2⟩) ∧
    (∀ i : Fin f.arity, (f.value? ⟨i⟩).map (·.definition) = some (.argument i)) ∧
    ∀ i : Fin f.values.size, ∀ op, f.values[i].definition = .result op →
      (f.op? op).bind (·.result) = some ⟨i⟩

instance (f : Function) (c : Code) : Decidable (f.Matches c) :=
  have : ∀ i : Fin f.values.size, Decidable (∀ op, f.values[i].definition = .result op →
      (f.op? op).bind (·.result) = some ⟨i⟩) := fun i =>
    match h : f.values[i].definition with
    | .result op => decidable_of_iff ((f.op? op).bind (·.result) = some ⟨i⟩) (by
        constructor
        · rintro hop op' hop'
          cases hop'
          exact hop
        · exact fun hop => hop op rfl)
    | .argument _ => isTrue fun _ hop => by cases hop
    | .inductionVar _ _ => isTrue fun _ hop => by cases hop
  inferInstanceAs (Decidable (_ ∧ _))

theorem represents_iff {f : Function} {c : Code} : f.Represents c ↔ f.Matches c := by
  constructor
  · intro h
    refine ⟨⟨h.body, h.places, h.nodup⟩, fun i hl => ?_, fun hd hh => ⟨?_, h.vars hh, ?_⟩,
      fun i => ?_, fun i op hdef => ?_⟩
    · have hop : f.op? ⟨i⟩ = some f.ops[i] := Array.getElem?_eq_getElem i.2
      exact h.live hop hl
    · exact fun r hr => h.result hh (Option.mem_toList.1 hr)
    · exact fun r hr => h.var hh (List.mem_zipIdx_iff_getElem?.1 hr)
    · obtain ⟨t, ht⟩ := h.argument i.2
      rw [ht]
      rfl
    · have hvalue : f.value? ⟨i⟩ = some ⟨f.values[i].type, .result op⟩ :=
        (Array.getElem?_eq_getElem i.2).trans (by rw [← hdef]; rfl)
      obtain ⟨o, ho, hres⟩ := h.definer hvalue
      exact Option.bind_eq_some_iff.2 ⟨o, ho, hres⟩
  · rintro ⟨⟨hbody, hplaces, hnodup⟩, hlive, hheads, hargument, hdefiner⟩
    refine ⟨hbody, hplaces, hnodup, ?_, ?_, fun hh => (hheads _ hh).2.1, ?_, ?_, ?_⟩
    · intro op o hop hl
      obtain ⟨hlt, rfl⟩ := Array.getElem?_eq_some_iff.1 hop
      exact hlive ⟨op.index, hlt⟩ hl
    · intro h v t hh hres
      exact (hheads h hh).1 (v, t) (by rw [hres]; exact List.mem_singleton_self _)
    · intro h i v hh hi
      exact (hheads h hh).2.2 (v, i) (List.mem_zipIdx_iff_getElem?.2 hi)
    · intro i hi
      obtain ⟨a, ha, hdef⟩ := Option.map_eq_some_iff.1 (hargument ⟨i, hi⟩)
      exact ⟨a.type, by rw [ha, ← hdef]⟩
    · intro v t op hv
      obtain ⟨hlt, hval⟩ := Array.getElem?_eq_some_iff.1 hv
      obtain ⟨o, ho, hres⟩ := Option.bind_eq_some_iff.1
        (hdefiner ⟨v.index, hlt⟩ op (congrArg Value.definition hval))
      exact ⟨o, ho, hres⟩

instance (f : Function) (c : Code) : Decidable (f.Represents c) :=
  decidable_of_iff _ represents_iff.symm

instance (f : Function) : Decidable f.WellFormed := inferInstanceAs (Decidable (f.Represents f.code))

end Function

end KernelLowering
