import KernelLowering.Proofs.Execution.Splices
import KernelLowering.Proofs.Folding.Offsets

namespace KernelLowering

theorem Node.effects_of_computes {h : Node} (hc : h.kind.computes = true) (data : Data) :
    h.effects data = [] := by
  obtain ⟨op, kind, operands, result, marker, vars⟩ := h
  cases kind <;> first | rfl | cases hc

theorem Node.allocations_of_computes {h : Node} (hc : h.kind.computes = true) (v : ValueId) :
    h.allocations v = 0 := by
  refine if_neg fun hk => ?_
  rw [hk.1] at hc
  cases hc

namespace Code

variable {y : Code}

theorem effects_of_computes (h : ∀ hd ∈ y.heads, hd.kind.computes = true) (turns : Turns)
    (data : Data) : y.effects turns data = [] := by
  induction y generalizing turns data with
  | nil => rfl
  | node hd body rest ihb ihr =>
    simp only [heads, List.forall_mem_cons, List.forall_mem_append] at h
    rw [effects, Node.effects_of_computes h.1, OpKind.iterations_of_computes h.1, ihr h.2.2]
    rfl

theorem allocations_of_computes (h : ∀ hd ∈ y.heads, hd.kind.computes = true) (v : ValueId) :
    y.allocations v = 0 := by
  induction y with
  | nil => rfl
  | node hd body rest ihb ihr =>
    simp only [heads, List.forall_mem_cons, List.forall_mem_append] at h
    rw [allocations, Node.allocations_of_computes h.1, OpKind.iterations_of_computes h.1, ihr h.2.2]
    simp

end Code

namespace Function

variable {f g : Function} {k : Spine} {b x y z c : Code} {hd : Node} {w : ValueId}

theorem Represents.follows_computed (hr : f.Represents (k.plug (b ++ .node hd x z)))
    (hsplice : Splice f g (k.rename (hd.redirect w)) (b.rename (hd.redirect w))
      (y.rename (hd.redirect w)) (z.rename (hd.redirect w)))
    (hc : hd.kind.computes = true) (hy : ∀ h ∈ y.heads, h.kind.computes = true)
    (hvalue : ∀ turns turns' data data' d, y.Fresh data' →
      (∀ v d, data v = some d → data' (hd.redirect w v) = some d) →
      data.Honours (k.plug (b ++ .node hd x z)) → hd.datum turns data = some d →
        (y.rename (hd.redirect w)).settle turns' data' w = some d) : f.Follows g := by
  have hmem := Spine.mem_heads_at k b x z hd
  have hy' : ∀ h ∈ (y.rename (hd.redirect w)).heads, h.kind.computes = true := by
    intro h hh
    rw [Code.heads_rename] at hh
    obtain ⟨h', hh', rfl⟩ := List.mem_map.1 hh
    exact hy h' hh'
  refine hr.follows_splice (fun _ => True) (fun _ => False) hsplice.represents
    hsplice.grows.arity (fun _ _ _ _ => trivial) (fun v hv => ⟨?_, id⟩) ⟨fun v _ => ?_, ?_⟩
  · refine hd.redirect_of_not_mem (fun hm => ?_) w
    rcases hv with hv | hv
    · exact hr.not_argument (List.mem_flatMap.2 ⟨hd, hmem, hm⟩) hv
    · exact hr.not_around hm hv
  · rw [Code.allocations_of_computes hy', Code.allocations, Node.allocations_of_computes hc,
      OpKind.iterations_of_computes hc]
    simp [Code.allocations]
  · intro turns turns' data data' hfresh hfresh' hlinks hturns hholds
    refine ⟨?_, ?_, hr.honours_settle hmem turns hholds⟩
    · rw [Code.effects_of_computes hy', Code.effects, Node.effects_of_computes hc,
        OpKind.iterations_of_computes hc]
      exact .nil
    · intro v d hkept hv
      rcases Node.settle_cases hv with hv | ⟨t, hres, hd'⟩
      · have hv' := hlinks v d hkept hv
        refine (Code.settle_of_not_mem _ _ fun hm => ?_).trans hv'
        rw [hfresh' _ hm] at hv'
        cases hv'
      · rw [show (_ : Change).rename v = w by
          show hd.redirect w v = w
          rw [hd.redirect_of_result hres, swapped_self]]
        exact hvalue turns turns' data data' d
          (fun u hu => hfresh' u (by rwa [Code.defined_rename])) (fun u e hu => hlinks u e trivial hu)
          hholds hd'

end Function

theorem Data.Honours.index {c : Code} {data : Data} {v : ValueId} {n i : Int}
    (hd : data.Honours c) (hn : c.constant? v = some n) (hv : data v = some (.index i)) : i = n :=
  Datum.index.inj (hd v n _ hn hv)

namespace AdditionFolding

variable {f g : Function} {k : Spine} {b x z : Code} {hd : Node}

theorem datum_eq_some {turns : Turns} {data : Data} {d : Datum} {lhs rhs : ValueId}
    {rest : List ValueId} (hkind : hd.kind = .addIndex) (hops : hd.operands = lhs :: rhs :: rest)
    (hd' : hd.datum turns data = some d) :
    ∃ i j, data lhs = some (.index i) ∧ data rhs = some (.index j) ∧ d = .index (i + j) := by
  simp only [Node.datum, hkind, hops] at hd'
  split at hd'
  · rename_i i j hi hj
    cases hd'
    exact ⟨i, j, hi, hj, rfl⟩
  · cases hd'

theorem realizes (hr : f.Represents (k.plug (b ++ .node hd x z)))
    (hcheck : (Rule.additionFolding.check f hd.op).Answers ())
    (hg : Rule.additionFolding.performAt f hd.op = .ok g) : f.Realizes g := by
  obtain ⟨hkind, lhs, rhs, rest, hops, hl, hr', hfold⟩ :=
    (gives_check hr (ready_of_answers hr hcheck)).of_answers hcheck
  obtain ⟨y, w, hy, hsplice⟩ := (yields_perform hr hops hl hr' hfold).of_ok hg
  refine ⟨hsplice.represents.wellFormed, hsplice.grows,
    hr.follows_computed hsplice (by rw [hkind]; rfl) (fun h hh => ?_) ?_⟩
  · cases hy with
    | constants op v => rw [List.mem_singleton.1 hh]; rfl
    | right => cases hh
    | left => cases hh
  · intro turns turns' data data' d hfresh hlinks hholds hd'
    obtain ⟨i, j, hi, hj, rfl⟩ := datum_eq_some hkind hops hd'
    cases hy with
    | @constants m n op v hm hn =>
      rw [hholds.index hm hi, hholds.index hn hj]
      exact Data.set_self _ _ _
    | right hm =>
      rw [hholds.index hm hi, Int.zero_add]
      exact hd.redirect_to rhs ▸ hlinks rhs _ hj
    | left hn =>
      rw [hholds.index hn hj, Int.add_zero]
      exact hd.redirect_to lhs ▸ hlinks lhs _ hi

end AdditionFolding

namespace OffsetFolding

variable {f g : Function} {k : Spine} {b x z c : Code} {hd : Node} {data data' : Data}

theorem start_settled (hd : data.Honours c) (o : SuppliedOffset ValueId) (i : Int)
    (hi : data.start o = some i) : data.start (settled c o) = some i := by
  cases o with
  | supplied v =>
    rw [settled]
    split
    · rename_i n hn
      exact congrArg some (hd.index hn (Data.index?_eq_some.1 hi)).symm
    · exact hi
  | _ => exact hi

theorem starts_folded {w : Window} {supplied : List ValueId} {is : List Int}
    (hd : data.Honours c) (hs : data.starts w supplied = some is) :
    data.starts (foldedWindow c w supplied) (remaining c w supplied) = some is := by
  obtain ⟨hmissing, hs⟩ := mapM_settled (start_settled hd) (by simp [Data.start]) hs
  rw [Data.starts, foldedWindow, remaining, supply_folded c hmissing, hs]

theorem datum_eq_some {turns : Turns} {d : Datum} {w : Window} {source : ValueId}
    {supplied : List ValueId} (hkind : hd.kind = .subView w) (hops : hd.operands = source :: supplied)
    (hd' : hd.datum turns data = some d) : ∃ root place shape starts,
      data source = some (.buffer root place shape) ∧ data.starts w supplied = some starts ∧
        d = .buffer root (fun i => place (w.shift starts i)) w.sizes := by
  simp only [Node.datum, hkind, hops] at hd'
  split at hd'
  · rename_i root place shape starts hsource hstarts
    cases hd'
    exact ⟨root, place, shape, starts, hsource, hstarts, rfl⟩
  · cases hd'

theorem realizes (hr : f.Represents (k.plug (b ++ .node hd x z)))
    (hg : Rule.offsetFolding.performAt f hd.op = .ok g) : f.Realizes g := by
  obtain ⟨w, source, supplied, type, hready⟩ := ready_of_ok hr hg
  obtain ⟨op, v, result, -, hsplice⟩ := (yields_perform hr hready).of_ok hg
  refine ⟨hsplice.represents.wellFormed, hsplice.grows,
    hr.follows_computed hsplice (by rw [hready.kind]; rfl) (fun h hh => ?_) ?_⟩
  · rw [List.mem_singleton.1 hh]
    rfl
  · intro turns turns' data data' d hfresh hlinks hholds hd'
    obtain ⟨root, place, shape, starts, hsource, hstarts, rfl⟩ :=
      datum_eq_some hready.kind hready.operands hd'
    have hkeeps : data.Keeps (hd.redirect v) data'
        (remaining (k.plug (b ++ .node hd x z)) w supplied) := fun u _ => hlinks u
    have hstarts' := hkeeps.starts (starts_folded hholds hstarts)
    refine (Data.set_self _ _ _).trans ?_
    simp only [Node.datum, Node.rename, Node.value, List.map_cons, hlinks source _ hsource, hstarts']
    rfl

end OffsetFolding

end KernelLowering
