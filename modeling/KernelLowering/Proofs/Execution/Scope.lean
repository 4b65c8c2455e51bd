import KernelLowering.Proofs.Execution.Splices

namespace KernelLowering

inductive ValueSort where
  | index
  | buffer
  deriving DecidableEq, Repr

def ValueType.sort : ValueType → ValueSort
  | .index => .index
  | .buffer _ => .buffer

def Datum.sort : Datum → ValueSort
  | .index _ => .index
  | .buffer _ _ _ => .buffer

def OpKind.sorts? : OpKind → Option (List ValueSort × ValueSort)
  | constant _ => some ([], .index)
  | addIndex => some ([.index, .index], .index)
  | alloc => some ([], .buffer)
  | view => some ([.buffer], .buffer)
  | subView w => some (.buffer :: List.replicate w.dynamicCount .index, .buffer)
  | _ => none

def Function.sort? (f : Function) (v : ValueId) : Option ValueSort :=
  (f.value? v).map (·.type.sort)

def Node.Sorted (f : Function) (h : Node) : Prop :=
  match h.kind.sorts? with
  | some (reads, makes) =>
    h.operands.map f.sort? = reads.map some ∧ h.result.map (·.2.sort) = some makes
  | none => h.result = none

instance (f : Function) (h : Node) : Decidable (h.Sorted f) := by
  unfold Node.Sorted
  split <;> infer_instance

def Code.Scoped : Code → List ValueId → Prop
  | nil, _ => True
  | node h body rest, known =>
    (∀ v ∈ h.operands, v ∈ known) ∧ body.Scoped (h.inductionVars ++ known) ∧
      rest.Scoped ((h.result.map (·.1)).toList ++ known)

instance Code.Scoped.decide : ∀ (x : Code) (known : List ValueId), Decidable (x.Scoped known)
  | .nil, _ => isTrue trivial
  | .node h body rest, known =>
    have := Scoped.decide body (h.inductionVars ++ known)
    have := Scoped.decide rest ((h.result.map (·.1)).toList ++ known)
    inferInstanceAs (Decidable ((∀ v ∈ h.operands, v ∈ known) ∧
      body.Scoped (h.inductionVars ++ known) ∧
        rest.Scoped ((h.result.map (·.1)).toList ++ known)))

namespace Function

def Scoped (f : Function) : Prop := f.code.Scoped f.arguments

instance (f : Function) : Decidable f.Scoped :=
  inferInstanceAs (Decidable (f.code.Scoped f.arguments))

/-- The function can be called with these arguments. -/
def Takes (f : Function) (arguments : List Datum) : Prop :=
  arguments.map (some ·.sort) = f.arguments.map f.sort?

end Function

theorem Data.exists_setAll (data : Data) {vs : List ValueId} {is : List Int} {u : ValueId}
    (hlen : vs.length ≤ is.length) (hu : u ∈ vs) : ∃ i, data.setAll vs is u = some (.index i) := by
  induction vs generalizing data is with
  | nil => cases hu
  | cons v vs ih =>
    match is, hlen with
    | i :: is, hlen =>
      by_cases hvs : u ∈ vs
      · exact ih _ (Nat.le_of_succ_le_succ hlen) hvs
      · obtain rfl : u = v := (List.mem_cons.1 hu).resolve_right hvs
        exact ⟨i, (Data.setAll_of_not_mem _ hvs).trans (data.set_self u _)⟩

def Data.Knows (f : Function) (known : List ValueId) (data : Data) : Prop :=
  ∀ v ∈ known, ∃ d, data v = some d ∧ f.sort? v = some d.sort

namespace Data.Knows

variable {f : Function} {known : List ValueId} {data : Data} {c : Code} {h : Node}

theorem index (hk : data.Knows f known) {v : ValueId} (hv : v ∈ known)
    (hs : f.sort? v = some .index) : ∃ i, data v = some (.index i) := by
  obtain ⟨d, hd, hsort⟩ := hk v hv
  rw [hs] at hsort
  cases d with
  | index i => exact ⟨i, hd⟩
  | buffer => cases hsort

theorem buffer (hk : data.Knows f known) {v : ValueId} (hv : v ∈ known)
    (hs : f.sort? v = some .buffer) : ∃ root place shape, data v = some (.buffer root place shape) := by
  obtain ⟨d, hd, hsort⟩ := hk v hv
  rw [hs] at hsort
  cases d with
  | index => cases hsort
  | buffer root place shape => exact ⟨root, place, shape, hd⟩

theorem starts (hk : data.Knows f known) {w : Window} {supplied : List ValueId}
    (hsupplied : ∀ v ∈ supplied, v ∈ known ∧ f.sort? v = some .index)
    (hcount : w.dynamicCount = supplied.length) : ∃ is, data.starts w supplied = some is := by
  have hmem : ∀ v, .supplied v ∈ Offset.supply w.offsets supplied → v ∈ supplied :=
    fun _ => Offset.mem_of_supplied
  have hmissing := Offset.missing_not_mem_supply.2 hcount.le
  rw [Data.starts]
  generalize Offset.supply w.offsets supplied = os at hmem hmissing
  induction os with
  | nil => exact ⟨[], rfl⟩
  | cons o os ih =>
    rw [List.mem_cons, not_or] at hmissing
    obtain ⟨is, his⟩ := ih (fun v hv => hmem v (List.mem_cons_of_mem o hv)) hmissing.2
    obtain ⟨i, hi⟩ : ∃ i, data.start o = some i := by
      cases o with
      | static n => exact ⟨n, rfl⟩
      | supplied v =>
        obtain ⟨hv, hs⟩ := hsupplied v (hmem v List.mem_cons_self)
        obtain ⟨i, hi⟩ := hk.index hv hs
        exact ⟨i, Data.index?_eq_some.2 hi⟩
      | missing => exact (hmissing.1 rfl).elim
    exact ⟨i :: is, by simp [List.mapM_cons, hi, his]⟩

theorem datum (hk : data.Knows f known) (hops : ∀ v ∈ h.operands, v ∈ known) (hs : h.Sorted f)
    {r : ValueId} {t : ValueType} (hres : h.result = some (r, t)) (turns : Turns) :
    ∃ d, h.datum turns data = some d ∧ d.sort = t.sort := by
  obtain ⟨op, kind, operands, result, marker, vars⟩ := h
  obtain rfl : result = some (r, t) := hres
  cases kind with
  | constant n =>
    simp [Node.Sorted, OpKind.sorts?] at hs
    exact ⟨.index n, rfl, hs.2.symm⟩
  | addIndex =>
    simp only [Node.Sorted, OpKind.sorts?, List.map_cons, List.map_nil, List.map_eq_cons_iff,
      List.map_eq_nil_iff, Option.map_some, Option.some.injEq] at hs
    obtain ⟨⟨x, -, rfl, hx, y, -, rfl, hy, rfl⟩, ht⟩ := hs
    obtain ⟨i, hi⟩ := hk.index (hops x (by simp)) hx
    obtain ⟨j, hj⟩ := hk.index (hops y (by simp)) hy
    exact ⟨.index (i + j), by simp [Node.datum, hi, hj], ht.symm⟩
  | alloc =>
    simp [Node.Sorted, OpKind.sorts?] at hs
    cases t with
    | index => cases hs.2
    | buffer type => exact ⟨_, rfl, rfl⟩
  | view =>
    simp only [Node.Sorted, OpKind.sorts?, List.map_cons, List.map_nil, List.map_eq_cons_iff,
      List.map_eq_nil_iff, Option.map_some, Option.some.injEq] at hs
    obtain ⟨⟨x, -, rfl, hx, rfl⟩, ht⟩ := hs
    obtain ⟨root, place, shape, hd⟩ := hk.buffer (hops x (by simp)) hx
    cases t with
    | index => cases ht
    | buffer type =>
      exact ⟨.buffer root (fun i => place [type.element.size * linearIndex type.shape i]) type.shape,
        by simp only [Node.datum, hd], rfl⟩
  | subView w =>
    simp only [Node.Sorted, OpKind.sorts?, List.map_cons, List.map_replicate, List.map_eq_cons_iff,
      Option.map_some, Option.some.injEq] at hs
    obtain ⟨⟨x, supplied, rfl, hx, hsup⟩, ht⟩ := hs
    obtain ⟨root, place, shape, hd⟩ := hk.buffer (hops x (by simp)) hx
    obtain ⟨hlen, hall⟩ := List.eq_replicate_iff.1 hsup
    rw [List.length_map] at hlen
    obtain ⟨starts, hstarts⟩ := hk.starts (fun v hv => ⟨hops v (by simp [hv]),
      hall _ (List.mem_map.2 ⟨v, hv, rfl⟩)⟩) hlen.symm
    exact ⟨.buffer root (fun i => place (w.shift starts i)) w.sizes,
      by simp only [Node.datum, hd, hstarts], ht.symm⟩
  | _ => cases hs

theorem settle (hr : f.Represents c) (hh : h ∈ c.heads) (hk : data.Knows f known)
    (hops : ∀ v ∈ h.operands, v ∈ known) (hs : h.Sorted f) (turns : Turns) :
    (h.settle turns data).Knows f ((h.result.map (·.1)).toList ++ known) := by
  intro v hv
  cases hres : h.result with
  | none =>
    rw [hres] at hv
    rw [Node.settle, hres]
    exact hk v hv
  | some r =>
    obtain ⟨r, t⟩ := r
    rw [Node.settle, hres]
    by_cases hvr : v = r
    · subst v
      obtain ⟨d, hd, hsort⟩ := hk.datum hops hs hres turns
      refine ⟨d, (data.set_self r _).trans hd, ?_⟩
      rw [Function.sort?, hr.result hh hres]
      exact congrArg some hsort.symm
    · rw [hres] at hv
      obtain ⟨d, hd, hsort⟩ := hk v ((List.mem_cons.1 hv).resolve_left hvr)
      exact ⟨d, (data.set_of_ne _ hvr).trans hd, hsort⟩

theorem setAll (hr : f.Represents c) (hh : h ∈ c.heads) (hk : data.Knows f known) {i : List Int}
    (hi : i ∈ h.kind.iterations) : (data.setAll h.inductionVars i).Knows f (h.inductionVars ++ known) := by
  have hlen : i.length = h.inductionVars.length := by
    rw [OpKind.iterations] at hi
    split at hi
    · rw [(mem_tuples.1 hi).length_eq, List.length_map, hr.vars hh]
    · cases hi
  intro v hv
  by_cases hvar : v ∈ h.inductionVars
  · obtain ⟨j, hj⟩ := List.mem_iff_getElem?.1 hvar
    obtain ⟨n, hn⟩ := data.exists_setAll hlen.ge hvar
    refine ⟨.index n, hn, ?_⟩
    rw [Function.sort?, hr.var hh hj]
    rfl
  · obtain ⟨d, hd, hsort⟩ := hk v ((List.mem_append.1 hv).resolve_left hvar)
    exact ⟨d, (data.setAll_of_not_mem hvar).trans hd, hsort⟩

theorem entry {arguments : List Datum} (hargs : f.Takes arguments) :
    (Data.entry f arguments).Knows f f.arguments := by
  intro v hv
  obtain ⟨i, hi, rfl⟩ := List.mem_map.1 hv
  have hlt : i < f.arity := List.mem_range.1 hi
  have hlen : arguments.length = f.arity := by
    have := congrArg List.length hargs
    simpa using this
  have hi' : i < arguments.length := hlen ▸ hlt
  refine ⟨arguments[i], ?_, ?_⟩
  · rw [Data.entry, if_pos hlt, List.getElem?_eq_getElem hi']
  · have hget := congrArg (fun l : List (Option ValueSort) => l[i]?) hargs
    simpa [Function.arguments, hi', hlt] using hget.symm

end Data.Knows

theorem Code.Scoped.complete {f : Function} {c x : Code} {known : List ValueId}
    (hs : x.Scoped known) (hr : f.Represents c) (hx : x.heads ⊆ c.heads)
    (hsorted : ∀ h ∈ c.heads, h.Sorted f) (turns : Turns) {data : Data} (hk : data.Knows f known) :
    ∀ e ∈ x.effects turns data, e.Complete := by
  induction x generalizing known turns data with
  | nil => exact fun e he => by cases he
  | node h body rest ihb ihr =>
    obtain ⟨hops, hbody, hrest⟩ := hs
    simp only [heads, List.cons_subset, List.append_subset] at hx
    intro e he
    simp only [effects, List.mem_append, List.mem_flatMap] at he
    rcases he with (he | ⟨⟨i, n⟩, hi, he⟩) | he
    · rw [Node.effects] at he
      split at he
      · rw [List.mem_singleton.1 he]
        intro o ho
        obtain ⟨v, hv, rfl⟩ := List.mem_map.1 ho
        obtain ⟨d, hd, -⟩ := hk v (hops v hv)
        simp [hd]
      · cases he
    · exact ihb hbody hx.2.1 _ (hk.setAll hr hx.1 (List.fst_mem_of_mem_zipIdx hi)) e he
    · exact ihr hrest hx.2.2 _ (hk.settle hr hx.1 hops (hsorted h hx.1) turns) e he

theorem Function.Scoped.complete {f : Function} (hs : f.Scoped) (hf : f.WellFormed)
    (hsorted : ∀ h ∈ f.code.heads, h.Sorted f) {arguments : List Datum}
    (hargs : f.Takes arguments) : ∀ e ∈ f.effects arguments, e.Complete :=
  Code.Scoped.complete hs hf (List.Subset.refl _) hsorted _ (.entry hargs)

end KernelLowering
