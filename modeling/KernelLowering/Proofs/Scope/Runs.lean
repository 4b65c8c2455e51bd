import KernelLowering.Proofs.Scope.Sorts

namespace KernelLowering

namespace Rule

variable {f g : Function} {k : Spine} {b x z : Code} {hd : Node} {rule : Rule}

theorem tidy (hrule : ∀ space, rule ≠ .reallocation space) (h : f.Tidy)
    (hr : f.Represents (k.plug (b ++ .node hd x z))) (hg : (rule.apply f hd.op).Answers g) :
    g.Tidy ∧ f.Grows g := by
  rw [apply, Inspect.answers_bind] at hg
  obtain ⟨⟨⟩, hcheck, hg⟩ := hg
  rw [Inspect.answers_lift] at hg
  cases rule with
  | tiling t => exact Tiling.tidy h hr hcheck hg
  | promotion p => exact Promotion.tidy h hr hcheck hg
  | viewFolding => exact ViewFolding.tidy h hr hg
  | reallocation space => exact (hrule space rfl).elim
  | trivialLoops => exact TrivialLoops.tidy h hr hcheck hg
  | additionFolding => exact AdditionFolding.tidy h hr hcheck hg
  | offsetFolding => exact OffsetFolding.tidy h hr hg

theorem gives_sorted_of_tidy (hrule : ∀ space, rule ≠ .reallocation space) (h : f.Tidy)
    (hs : f.Sorted) (hr : f.Represents (k.plug (b ++ .node hd x z))) :
    (rule.apply f hd.op).Gives True Function.Sorted := by
  cases rule with
  | tiling t => exact Tiling.gives_sorted h hr hs
  | promotion p => exact Promotion.gives_sorted h hr hs
  | viewFolding => exact ViewFolding.gives_sorted hr hs
  | reallocation space => exact (hrule space rfl).elim
  | trivialLoops => exact TrivialLoops.gives_sorted hr hs
  | additionFolding => exact AdditionFolding.gives_sorted hr hs
  | offsetFolding => exact OffsetFolding.gives_sorted hr hs

end Rule

namespace Greedy

variable {rules : List Rule}

theorem keeps_tidy (hrules : ∀ space, .reallocation space ∉ rules) :
    Keeps (fun _ => True) Function.Tidy rules where
  wellFormed _ h := h.wellFormed
  sheds _ _ _ _ _ _ _ h hs := h.shed hs
  rule rule hmem _ _ _ _ _ _ h hr := Ends.of_eq_ok fun r hrun g hg =>
    have hstep := Rule.tidy (fun space e => hrules space (e ▸ hmem)) h hr
      (by rw [Inspect.Answers, hrun, hg])
    ⟨hstep.1, hstep.2.ops⟩

theorem keeps_tidy_sorted (hrules : ∀ space, .reallocation space ∉ rules) :
    Keeps (· = .overflow) (fun f => f.Tidy ∧ f.Sorted) rules where
  wellFormed _ h := h.1.wellFormed
  sheds _ _ _ _ _ _ _ h hs := ⟨h.1.shed hs, hs.sorted h.2⟩
  rule rule hmem _ _ _ _ _ _ h hr := ends_overflow.2 <|
    have hrule : ∀ space, rule ≠ .reallocation space := fun space e => hrules space (e ▸ hmem)
    (Rule.gives_sorted_of_tidy hrule h.1 h.2 hr).mono fun _ hrun hsorted =>
      have hstep := Rule.tidy hrule h.1 hr hrun
      ⟨⟨hstep.1, hsorted⟩, hstep.2.ops⟩

theorem run_tidy {f : Function} (hf : f.Tidy) (hrules : ∀ space, .reallocation space ∉ rules)
    (maxSweeps : Nat) :
    (∀ g outcome, (run rules maxSweeps f).outcome = .ok (g, outcome) → g.Tidy) ∧
    (f.Sorted → Yields True (run rules maxSweeps f).outcome fun (g, _) => g.Tidy ∧ g.Sorted) :=
  ⟨fun _ _ hrun => ((keeps_tidy hrules).run maxSweeps hf).of_ok hrun, fun hs =>
    ends_overflow.1 ((keeps_tidy_sorted hrules).run maxSweeps ⟨hf, hs⟩)⟩

def loweringRules : List Rule :=
  [.tiling Tiling.rowTiling,
    .promotion ⟨.matmul, ⟨none, some .l2⟩, ⟨.tiledMid, .promotedMid, Nat.lt_add_one 1⟩⟩,
    .viewFolding, .trivialLoops, .additionFolding, .offsetFolding]

theorem run_tidy_markedProduct : ∃ g outcome,
    (run loweringRules 4 Tiling.markedProduct).outcome = .ok (g, outcome) ∧ outcome.changes = 9 ∧
      g.Tidy ∧ g.Sorted := by
  have hok : ((run loweringRules 4 Tiling.markedProduct).outcome.toOption.map (·.2.changes)) =
      some 9 := by decide +kernel
  have htidy : Tiling.markedProduct.Tidy := by decide +kernel
  have hsorted : Tiling.markedProduct.Sorted := by decide +kernel
  -- The run is not to be unfolded again: from here on the function is any that these hold of.
  generalize Tiling.markedProduct = f at *
  have hyields := (run_tidy htidy
    (show ∀ space, .reallocation space ∉ loweringRules by simp [loweringRules]) 4).2 hsorted
  obtain ⟨⟨g, outcome⟩, hrun, hchanges⟩ := Fault.toOption_map_eq_some.1 hok
  exact ⟨g, outcome, hrun, hchanges, hyields.of_ok hrun⟩

def valuedProduct : Function where
  name := "valued"
  ops := #[⟨.kernel .matmul, [⟨0⟩, ⟨1⟩, ⟨2⟩], some ⟨3⟩, some .selected, [], [], none, true⟩,
    ⟨.dealloc, [⟨3⟩], none, none, [], [], none, true⟩]
  values := #[⟨.buffer (.rowMajor [3, 2] .float32 .global), .argument 0⟩,
    ⟨.buffer (.rowMajor [2, 2] .float32 .global), .argument 1⟩,
    ⟨.buffer (.rowMajor [3, 2] .float32 .global), .argument 2⟩,
    ⟨.buffer (.rowMajor [3, 2] .float32 .global), .result ⟨0⟩⟩]
  arity := 3
  body := [⟨0⟩, ⟨1⟩]

theorem not_scoped_run_valuedProduct : valuedProduct.WellFormed ∧ valuedProduct.Scoped ∧
    valuedProduct.code.Nested ∧ ∃ g outcome,
      (run [.tiling Tiling.rowTiling] 1 valuedProduct).outcome = .ok (g, outcome) ∧ ¬ g.Scoped := by
  have hwf : valuedProduct.WellFormed := by decide +kernel
  have hin : valuedProduct.Scoped := by decide +kernel
  have hnested : valuedProduct.code.Nested := by decide +kernel
  have hok : ((run [.tiling Tiling.rowTiling] 1 valuedProduct).outcome.toOption.map
      fun r => decide r.1.Scoped) = some false := by decide +kernel
  obtain ⟨⟨g, outcome⟩, hrun, hout⟩ := Fault.toOption_map_eq_some.1 hok
  exact ⟨hwf, hin, hnested, g, outcome, hrun, of_decide_eq_false hout⟩

end Greedy

end KernelLowering
