import KernelLowering.Proofs.Arena.Check
import KernelLowering.Proofs.Execution.Canonicalization
import KernelLowering.Proofs.Execution.Scope

namespace KernelLowering

namespace Function

variable {f g : Function} {k : Spine} {b x y z c : Code} {hd h : Node} {σ : ValueId → ValueId}

def RespectsSorts (f g : Function) (σ : ValueId → ValueId) : Prop :=
  ∀ v s, f.sort? v = some s → g.sort? (σ v) = some s

theorem Grows.sort? (hg : f.Grows g) {v : ValueId} {s : ValueSort} (hs : f.sort? v = some s) :
    g.sort? v = some s := by
  obtain ⟨a, ha, rfl⟩ := Option.map_eq_some_iff.1 hs
  exact Option.map_eq_some_iff.2 ⟨a, hg.value ha, rfl⟩

theorem Represents.sort?_result (hr : f.Represents c) (hh : h ∈ c.heads) {v : ValueId}
    {t : ValueType} (hres : h.result = some (v, t)) : f.sort? v = some t.sort := by
  rw [Function.sort?, hr.result hh hres]
  rfl

theorem Represents.sort?_var (hr : f.Represents c) (hh : h ∈ c.heads) {v : ValueId}
    (hv : v ∈ h.inductionVars) : f.sort? v = some .index := by
  obtain ⟨i, hi⟩ := List.mem_iff_getElem?.1 hv
  rw [Function.sort?, hr.var hh hi]
  rfl

theorem RespectsSorts.sorted (hσ : f.RespectsSorts g σ) (hs : h.Sorted f) :
    (h.rename σ).Sorted g := by
  unfold Node.Sorted at hs ⊢
  rw [show (h.rename σ).kind = h.kind from rfl]
  cases hk : h.kind.sorts? with
  | none =>
    rw [hk] at hs
    exact hs
  | some io =>
    rw [hk] at hs
    refine ⟨?_, hs.2⟩
    rw [Node.rename, List.map_map, ← hs.1]
    refine List.map_congr_left fun v hv => ?_
    have hmem : f.sort? v ∈ io.1.map some := hs.1 ▸ List.mem_map.2 ⟨v, hv, rfl⟩
    obtain ⟨s, -, hsv⟩ := List.mem_map.1 hmem
    rw [Function.comp, hσ v s hsv.symm, hsv]

/-- Every operation reads and makes values of the right sorts. -/
def Sorted (f : Function) : Prop := ∀ h ∈ f.code.heads, h.Sorted f

instance (f : Function) : Decidable f.Sorted :=
  inferInstanceAs (Decidable (∀ h ∈ f.code.heads, h.Sorted f))

theorem Represents.sorted_iff (hr : f.Represents c) : f.Sorted ↔ ∀ h ∈ c.heads, h.Sorted f := by
  rw [Sorted, hr.code_eq]

theorem Represents.sorted_splice (hr : f.Represents (k.plug (b ++ .node hd x z)))
    (hg : g.Represents ((k.rename σ).plug (b.rename σ ++ (y ++ z.rename σ)))) (hs : f.Sorted)
    (hσ : f.RespectsSorts g σ) (hy : ∀ h ∈ y.heads, h.Sorted g) : g.Sorted := by
  rw [hr.sorted_iff] at hs
  rw [hg.sorted_iff]
  have haround : ∀ h ∈ (k.plug (b ++ z)).heads, (h.rename σ).Sorted g := fun h hh =>
    hσ.sorted (hs h (Spine.mem_heads_around hh hd x))
  intro h hh
  simp only [Spine.mem_heads_plug, Spine.heads_rename, Code.heads_append, Code.heads_rename,
    List.mem_append, List.mem_map] at hh haround
  rcases hh with (⟨h', hh', rfl⟩ | hh | ⟨h', hh', rfl⟩) | ⟨h', hh', rfl⟩
  · exact haround h' (.inl (.inl hh'))
  · exact hy h hh
  · exact haround h' (.inl (.inr hh'))
  · exact haround h' (.inr hh')

theorem Sheds.sorted (h : f.Sheds g k b x z hd) (hs : f.Sorted) : g.Sorted := by
  have hrep := h.after
  rw [← Spine.rename_id k, ← Code.rename_id b, ← Code.rename_id z] at hrep
  exact h.before.sorted_splice (y := .nil) hrep hs (fun v s hv => h.same.grows.sort? hv)
    (fun h hh => by cases hh)

end Function

variable {f g : Function} {k : Spine} {b x y z : Code} {hd : Node}

namespace TrivialLoops

theorem replaced_cases (swaps : List (ValueId × ValueId)) (v : ValueId) :
    replaced swaps v = v ∨ replaced swaps v ∈ swaps.map (·.2) := by
  induction swaps generalizing v with
  | nil => exact .inl rfl
  | cons p swaps ih =>
    rw [replaced_cons, Function.comp, List.map_cons, List.mem_cons]
    rcases ih (Function.swapped p.1 p.2 v) with h | h
    · rw [h]
      by_cases hv : v = p.1
      · exact .inr (.inl (by rw [hv, Function.swapped_self]))
      · exact .inl (Function.swapped_of_ne hv)
    · exact .inr (.inr h)

theorem Drops.heads {pairs kept : List (LoopRange × ValueId)} {swaps : List (ValueId × ValueId)}
    (h : Drops pairs kept swaps y) :
    (∀ hd ∈ y.heads, hd.Sorted f) ∧
      ∀ w ∈ swaps.map (·.2), ∃ hd ∈ y.heads, hd.result = some (w, .index) := by
  induction h with
  | nil => simp [Code.heads]
  | single op v hrange _ ih =>
    simp only [Code.heads, List.nil_append, List.forall_mem_cons, List.map_cons]
    refine ⟨⟨⟨rfl, rfl⟩, ih.1⟩, ⟨_, List.mem_cons_self, rfl⟩, fun w hw => ?_⟩
    obtain ⟨hd, hh, hres⟩ := ih.2 w hw
    exact ⟨hd, List.mem_cons_of_mem _ hh, hres⟩
  | keep _ ih => exact ih

theorem sorted {ρ : ValueId → ValueId} (hr : f.Represents (k.plug (b ++ .node hd x z)))
    (hg : g.Represents ((k.rename ρ).plug (b.rename ρ ++ (y ++ z.rename ρ)))) (hgrows : f.Grows g)
    (ht : Trimmed f hd x ρ y) (hs : f.Sorted) : g.Sorted := by
  have hy : ∀ h ∈ y.heads, h ∈ ((k.rename ρ).plug (b.rename ρ ++ (y ++ z.rename ρ))).heads := by
    intro h hh
    simp only [Spine.mem_heads_plug, Code.heads_append, List.mem_append]
    exact .inl (.inr (.inl hh))
  have hresult : ∀ {h w}, h ∈ y.heads → h.result = some (w, .index) → g.sort? w = some .index :=
    fun hh hres => hg.sort?_result (hy _ hh) hres
  have hrespects : f.RespectsSorts g ρ := by
    intro v s hv
    by_cases hsame : ρ v = v
    · exact hsame.symm ▸ hgrows.sort? hv
    have hvar : v ∈ hd.inductionVars := not_not.1 fun h => hsame (vars_of_trimmed hr ht h)
    obtain rfl : s = .index := Option.some.inj
      (hv.symm.trans (hr.sort?_var (Spine.mem_heads_at k b x z hd) hvar))
    cases ht with
    | never => exact (hsame rfl).elim
    | once hdrops hnew =>
      obtain ⟨h, hh, hres⟩ := hdrops.heads (f := g).2 _ ((replaced_cases _ v).resolve_left hsame)
      exact hresult (by simp [hh]) hres
    | @loop kept swaps yd kind vars op hdrops hloop hranges hlen hnew =>
      have hnews := (replaced_cases _ v).resolve_left hsame
      rw [List.map_append, List.map_snd_zip (by simp [hlen]), List.mem_append] at hnews
      rcases hnews with hnews | hnews
      · obtain ⟨h, hh, hres⟩ := hdrops.heads (f := g).2 _ hnews
        exact hresult (by simp [hh]) hres
      · exact hg.sort?_var (h := .loop op kind vars) (hy _ (by simp [Code.heads])) hnews
  refine hr.sorted_splice hg hs hrespects ?_
  have hbody : ∀ h ∈ (x.rename ρ).heads, h.Sorted g := by
    intro h hh
    rw [Code.heads_rename] at hh
    obtain ⟨h', hh', rfl⟩ := List.mem_map.1 hh
    refine hrespects.sorted (hr.sorted_iff.1 hs h' ?_)
    simp only [Spine.mem_heads_plug, Code.heads_append, Code.heads, List.mem_append, List.mem_cons]
    exact .inl (.inr (.inr (.inl hh')))
  cases ht with
  | never => exact fun h hh => by cases hh
  | once hdrops hnew =>
    simp only [Code.heads_append, List.forall_mem_append]
    exact ⟨hdrops.heads.1, hbody⟩
  | @loop kept swaps yd kind vars op hdrops hloop hranges hlen hnew =>
    simp only [Code.heads_append, Code.heads, List.append_nil, List.forall_mem_append,
      List.forall_mem_cons]
    refine ⟨hdrops.heads.1, ?_, hbody⟩
    cases kind with
    | forLoop => rfl
    | parallelLoop => rfl
    | _ => cases hloop

theorem gives_check (hr : f.Represents (k.plug (b ++ .node hd x z))) :
    (check f hd.op).Gives True fun _ => hd.kind.isLoop = true := by
  rw [check, Inspect.gives_bind, Inspect.gives_lift, hr.record_at, Yields.ok_iff]
  dsimp only
  split
  · exact Inspect.gives_throw
  · rename_i hranges
    rw [Inspect.gives_bind]
    refine (Inspect.gives_anyM fun r _ => ?_).mono fun found _ _ => ?_
    · rw [Inspect.gives_bind, Inspect.gives_lift]
      exact r.yields_tripCount.mono fun n _ _ => Inspect.gives_pure.2 trivial
    · split
      · exact Inspect.gives_throw
      · refine Inspect.gives_pure.2 (Bool.of_not_eq_false fun hloop => hranges ?_)
        rw [Node.record, OpKind.loopRanges_of_isLoop_eq_false hloop]
        rfl

end TrivialLoops

theorem Function.Represents.sorted_redirect {w r : ValueId} {t : ValueType}
    (hr : f.Represents (k.plug (b ++ .node hd x z)))
    (hsplice : Splice f g (k.rename (hd.redirect w)) (b.rename (hd.redirect w))
      (y.rename (hd.redirect w)) (z.rename (hd.redirect w))) (hs : f.Sorted)
    (hres : hd.result = some (r, t)) (hw : g.sort? w = some t.sort)
    (hy : ∀ h ∈ y.heads, h.Sorted g) : g.Sorted := by
  have hold : g.sort? r = some t.sort :=
    hsplice.grows.sort? (hr.sort?_result (Spine.mem_heads_at k b x z hd) hres)
  have hσ : g.RespectsSorts g (hd.redirect w) := by
    intro v s hv
    rw [hd.redirect_of_result hres]
    by_cases hvr : v = r
    · subst v
      rw [swapped_self, hw, ← hold, hv]
    · rwa [swapped_of_ne hvr]
  refine hr.sorted_splice hsplice.represents hs (fun v s hv => hσ v s (hsplice.grows.sort? hv))
    fun h hh => ?_
  rw [Code.heads_rename] at hh
  obtain ⟨h', hh', rfl⟩ := List.mem_map.1 hh
  exact hσ.sorted (hy h' hh')

theorem Function.has_of_sort? {v : ValueId} {s : ValueSort} (h : f.sort? v = some s) : f.Has v := by
  obtain ⟨a, ha, -⟩ := Option.map_eq_some_iff.1 h
  exact (Array.getElem?_eq_some_iff.1 ha).1

theorem Function.bufferType_of_sort? {v : ValueId} (h : f.sort? v = some .buffer) :
    ∃ type, f.bufferType? v = .ok (some type) := by
  obtain ⟨⟨t, d⟩, ha, ht⟩ := Option.map_eq_some_iff.1 h
  cases t with
  | index => cases ht
  | buffer type =>
    refine ⟨type, ?_⟩
    rw [bufferType?, value_eq_ok.2 ha]
    rfl

theorem Node.Sorted.of_addIndex (hs : hd.Sorted f) (hk : hd.kind = .addIndex) : ∃ lhs rhs r,
    hd.operands = [lhs, rhs] ∧ f.sort? lhs = some .index ∧ f.sort? rhs = some .index ∧
      hd.result = some (r, .index) := by
  simp only [Node.Sorted, hk, OpKind.sorts?, List.map_cons, List.map_nil, List.map_eq_cons_iff,
    List.map_eq_nil_iff, Option.map_eq_some_iff] at hs
  obtain ⟨⟨lhs, -, hops, hl, rhs, -, rfl, hr, rfl⟩, ⟨r, t⟩, hres, ht⟩ := hs
  cases t with
  | index => exact ⟨lhs, rhs, r, hops, hl, hr, hres⟩
  | buffer => cases ht

theorem Node.Sorted.of_subView (hs : hd.Sorted f) {w : Window} (hk : hd.kind = .subView w) :
    ∃ source supplied r type, hd.operands = source :: supplied ∧ f.sort? source = some .buffer ∧
      (∀ v ∈ supplied, f.sort? v = some .index) ∧ w.dynamicCount = supplied.length ∧
        hd.result = some (r, .buffer type) := by
  simp only [Node.Sorted, hk, OpKind.sorts?, List.map_cons, List.map_replicate,
    List.map_eq_cons_iff, Option.map_eq_some_iff] at hs
  obtain ⟨⟨source, supplied, hops, hsource, hsup⟩, ⟨r, t⟩, hres, ht⟩ := hs
  obtain ⟨hlen, hall⟩ := List.eq_replicate_iff.1 hsup
  rw [List.length_map] at hlen
  cases t with
  | index => cases ht
  | buffer type =>
    exact ⟨source, supplied, r, type, hops, hsource,
      fun v hv => hall _ (List.mem_map.2 ⟨v, hv, rfl⟩), hlen.symm, hres⟩

theorem Function.Represents.sorted_at (hr : f.Represents (k.plug (b ++ .node hd x z)))
    (hs : f.Sorted) : hd.Sorted f := hr.sorted_iff.1 hs hd (Spine.mem_heads_at k b x z hd)

theorem AdditionFolding.gives_sorted (hr : f.Represents (k.plug (b ++ .node hd x z)))
    (hs : f.Sorted) : (Rule.additionFolding.apply f hd.op).Gives True Function.Sorted := by
  refine (gives_splice hr fun hkind => ?_).mono ?_
  · obtain ⟨lhs, rhs, r, hops, hl, hr, -⟩ := (hr.sorted_at hs).of_addIndex hkind
    exact ⟨lhs, rhs, [], hops, Function.has_of_sort? hl, Function.has_of_sort? hr⟩
  rintro g - ⟨hkind, lhs, rhs, rest, y, w, hops, -, -, hy, hsplice⟩
  obtain ⟨lhs', rhs', r, hops', hsl, hsr, hres⟩ := (hr.sorted_at hs).of_addIndex hkind
  rw [hops', List.cons.injEq, List.cons.injEq] at hops
  obtain ⟨rfl, rfl, -⟩ := hops
  refine hr.sorted_redirect hsplice hs hres ?_ fun h hh => ?_
  · cases hy with
    | @constants m n op v hm hn =>
      refine hsplice.represents.sort?_result (h := .value op (.constant (m + n)) [] w .index) ?_ rfl
      simp [Spine.mem_heads_plug, Code.heads, Code.rename, Node.rename, Node.value]
    | right => exact hsplice.grows.sort? hsr
    | left => exact hsplice.grows.sort? hsl
  · cases hy with
    | constants op v =>
      rw [List.mem_singleton.1 hh]
      exact ⟨rfl, rfl⟩
    | right => cases hh
    | left => cases hh

theorem OffsetFolding.ready_of_sorted (hs : hd.Sorted f) {w : Window} (hkind : hd.kind = .subView w) :
    ∃ source supplied type, Ready f hd w source supplied type ∧ ∀ v ∈ supplied, f.Has v := by
  obtain ⟨source, supplied, r, type, hops, hsource, hsup, hcount, -⟩ := hs.of_subView hkind
  obtain ⟨below, hbelow⟩ := Function.bufferType_of_sort? hsource
  have hhas : ∀ v ∈ supplied, f.Has v := fun v hv => Function.has_of_sort? (hsup v hv)
  exact ⟨source, supplied, below, ⟨hkind, hops, .of_has hhas, hbelow, hcount.le⟩, hhas⟩

theorem OffsetFolding.gives_sorted (hr : f.Represents (k.plug (b ++ .node hd x z)))
    (hs : f.Sorted) : (Rule.offsetFolding.apply f hd.op).Gives True Function.Sorted := by
  refine (gives_splice hr fun w hkind => ready_of_sorted (hr.sorted_at hs) hkind).mono ?_
  rintro g - ⟨w, source, supplied, type, op, v, result, hready, -, hsplice⟩
  obtain ⟨source', supplied', r, t, hops, hsource, hsup, -, hres⟩ :=
    (hr.sorted_at hs).of_subView hready.kind
  rw [hready.operands, List.cons.injEq] at hops
  obtain ⟨rfl, rfl⟩ := hops
  refine hr.sorted_redirect hsplice hs hres ?_ fun h hh => ?_
  · show g.sort? v = some (ValueType.buffer result).sort
    refine hsplice.represents.sort?_result (h := .rename (hd.redirect v) (.value op (.subView
      (foldedWindow (k.plug (b ++ .node hd x z)) w supplied))
        (source :: remaining (k.plug (b ++ .node hd x z)) w supplied) v (.buffer result))) ?_ rfl
    simp [Spine.mem_heads_plug, Code.heads, Code.rename]
  · rw [List.mem_singleton.1 hh]
    refine ⟨?_, rfl⟩
    simp only [Node.value, List.map_cons, List.map_replicate, hsplice.grows.sort? hsource,
      dynamicCount_foldedWindow.2 hready.count]
    refine congrArg _ (List.eq_replicate_iff.2 ⟨List.length_map _, fun s hs => ?_⟩)
    obtain ⟨u, hu, rfl⟩ := List.mem_map.1 hs
    exact hsplice.grows.sort? (hsup u (mem_remaining hu))

theorem TrivialLoops.gives_sorted (hr : f.Represents (k.plug (b ++ .node hd x z)))
    (hs : f.Sorted) : (Rule.trivialLoops.apply f hd.op).Gives True Function.Sorted := by
  rw [Rule.apply, Inspect.gives_bind]
  refine (gives_check hr).mono fun _ _ _ => ?_
  rw [Inspect.gives_lift]
  refine (yields_perform hr).mono ?_
  rintro g - ⟨ρ, y, ht, hg, hgrows⟩
  exact sorted hr hg hgrows ht hs

theorem Rule.gives_sorted {rule : Rule} (hrule : rule ∈ Rule.canonicalization)
    (hr : f.Represents (k.plug (b ++ .node hd x z))) (hs : f.Sorted) :
    (rule.apply f hd.op).Gives True Function.Sorted := by
  simp only [Rule.canonicalization, List.mem_cons, List.not_mem_nil, or_false] at hrule
  rcases hrule with rfl | rfl | rfl
  · exact TrivialLoops.gives_sorted hr hs
  · exact AdditionFolding.gives_sorted hr hs
  · exact OffsetFolding.gives_sorted hr hs

namespace Greedy

variable {f₀ : Function}

theorem keeps_realizes :
    Keeps (fun _ => True) (fun g => f₀.Realizes g) Rule.canonicalization where
  wellFormed _ h := h.wellFormed
  sheds _ _ _ _ _ _ _ h hs := h.trans hs.realizes
  rule _ hrule _ _ _ _ _ _ h hr := Ends.of_eq_ok fun r hrun g hg => by
    have hstep := Rule.realizes hrule hr (by rw [Inspect.Answers, hrun, hg])
    exact ⟨h.trans hstep, hstep.grows.ops⟩

theorem keeps_sorted :
    Keeps (· = .overflow) (fun g => f₀.Realizes g ∧ g.Sorted) Rule.canonicalization where
  wellFormed _ h := h.1.wellFormed
  sheds _ _ _ _ _ _ _ h hs := ⟨h.1.trans hs.realizes, hs.sorted h.2⟩
  rule _ hrule _ _ _ _ _ _ h hr := ends_overflow.2 <|
    (Rule.gives_sorted hrule hr h.2).mono fun _ hrun hsorted =>
      have hstep := Rule.realizes hrule hr hrun
      ⟨⟨h.1.trans hstep, hsorted⟩, hstep.grows.ops⟩

theorem run_canonicalization_effects {f : Function} (hf : f.WellFormed) (maxSweeps : Nat) :
    (∀ g outcome, (run Rule.canonicalization maxSweeps f).outcome = .ok (g, outcome) →
      ∀ arguments, Effect.AllRefine (f.effects arguments) (g.effects arguments)) ∧
    (f.Scoped → f.Sorted →
      Yields True (run Rule.canonicalization maxSweeps f).outcome fun (g, _) =>
        ∀ arguments, f.Takes arguments →
          g.effects arguments = f.effects arguments ∧ ∀ e ∈ g.effects arguments, e.Complete) := by
  have hself : f.Realizes f := ⟨hf, .refl f, .refl f⟩
  constructor
  · intro g outcome hrun
    exact ((keeps_realizes.run maxSweeps hself).of_ok hrun).follows
  · intro hscoped hsorted
    refine (ends_overflow.1 (keeps_sorted.run maxSweeps ⟨hself, hsorted⟩)).mono ?_
    rintro ⟨g, outcome⟩ - ⟨hg, -⟩ arguments hargs
    have hcomplete := hscoped.complete hf hsorted hargs
    have hsame := hg.follows.eq_of_complete hcomplete
    exact ⟨hsame, hsame ▸ hcomplete⟩

def singleRow : Function where
  name := "row"
  ops := #[⟨.forLoop ⟨2, 3, 1, by decide⟩, [], none, none, [⟨1⟩, ⟨2⟩], [⟨2⟩], none, true⟩,
    ⟨.subView ⟨[.dynamic, .static 0], [1, 4], [1, 1]⟩, [⟨0⟩, ⟨2⟩], some ⟨3⟩, none, [], [], some ⟨0⟩,
      true⟩,
    ⟨.copy, [⟨3⟩, ⟨1⟩], none, none, [], [], some ⟨0⟩, true⟩,
    ⟨.ret, [], none, none, [], [], none, true⟩]
  values := #[⟨.buffer (.rowMajor [4, 4] .float32 .global), .argument 0⟩,
    ⟨.buffer (.rowMajor [1, 4] .float32 .global), .argument 1⟩,
    ⟨.index, .inductionVar ⟨0⟩ 0⟩,
    ⟨.buffer (.rowMajor [1, 4] .float32 .global), .result ⟨1⟩⟩]
  arity := 2
  body := [⟨0⟩, ⟨3⟩]

def rowArguments : List Datum := [.buffer ⟨⟨0⟩, 0⟩ id [4, 4], .buffer ⟨⟨1⟩, 0⟩ id [1, 4]]

theorem run_canonicalization_effects_singleRow : ∃ g outcome,
    (run Rule.canonicalization 4 singleRow).outcome = .ok (g, outcome) ∧ outcome.converged = true ∧
      g.effects rowArguments = singleRow.effects rowArguments ∧
        ∀ e ∈ g.effects rowArguments, e.Complete := by
  have hyields := (run_canonicalization_effects (f := singleRow) (by decide) 4).2 (by decide)
    (by decide)
  have hok : ((run Rule.canonicalization 4 singleRow).outcome.toOption.map (·.2.converged)) =
      some true := by decide +kernel
  cases hrun : (run Rule.canonicalization 4 singleRow).outcome with
  | error fault =>
    rw [hrun] at hok
    cases hok
  | ok result =>
    obtain ⟨g, outcome⟩ := result
    rw [hrun] at hok
    exact ⟨g, outcome, rfl, Option.some.inj hok, (hyields.of_ok hrun) rowArguments rfl⟩

example : singleRow.effects rowArguments =
    [⟨.copy, [some (.buffer ⟨⟨0⟩, 0⟩ [[2, 0], [2, 1], [2, 2], [2, 3]]),
      some (.buffer ⟨⟨1⟩, 0⟩ [[0, 0], [0, 1], [0, 2], [0, 3]])]⟩, ⟨.ret, []⟩] := by decide +kernel

def unreadSum : Function where
  name := "unread"
  ops := #[⟨.addIndex, [], none, none, [], [], none, true⟩,
    ⟨.copy, [⟨0⟩, ⟨1⟩], none, none, [], [], none, true⟩,
    ⟨.ret, [], none, none, [], [], none, true⟩]
  values := #[⟨.buffer (.rowMajor [4] .float32 .global), .argument 0⟩,
    ⟨.buffer (.rowMajor [4] .float32 .global), .argument 1⟩]
  arity := 2
  body := [⟨0⟩, ⟨1⟩, ⟨2⟩]

def shiftedBuffer : Function where
  name := "shifted"
  ops := #[⟨.constant 0, [], some ⟨1⟩, none, [], [], none, true⟩,
    ⟨.addIndex, [⟨0⟩, ⟨1⟩], some ⟨2⟩, none, [], [], none, true⟩,
    ⟨.call "g", [⟨2⟩], none, none, [], [], none, true⟩,
    ⟨.ret, [], none, none, [], [], none, true⟩]
  values := #[⟨.buffer (.rowMajor [4] .float32 .global), .argument 0⟩, ⟨.index, .result ⟨0⟩⟩,
    ⟨.index, .result ⟨1⟩⟩]
  arity := 1
  body := [⟨0⟩, ⟨1⟩, ⟨2⟩, ⟨3⟩]

theorem run_canonicalization_changes_unsorted :
    (unreadSum.WellFormed ∧ unreadSum.Scoped ∧ unreadSum.code.Nested ∧
      unreadSum.Takes [.buffer ⟨⟨0⟩, 0⟩ id [4], .buffer ⟨⟨1⟩, 0⟩ id [4]] ∧
        (∀ e ∈ unreadSum.effects [.buffer ⟨⟨0⟩, 0⟩ id [4], .buffer ⟨⟨1⟩, 0⟩ id [4]], e.Complete) ∧
          (run Rule.canonicalization 10 unreadSum).outcome = .error .indexOutOfBounds) ∧
    (shiftedBuffer.WellFormed ∧ shiftedBuffer.Scoped ∧ shiftedBuffer.code.Nested ∧
      shiftedBuffer.Takes [.buffer ⟨⟨0⟩, 0⟩ id [4]] ∧ ∃ g outcome,
        (run Rule.canonicalization 10 shiftedBuffer).outcome = .ok (g, outcome) ∧
          g.effects [.buffer ⟨⟨0⟩, 0⟩ id [4]] ≠
            shiftedBuffer.effects [.buffer ⟨⟨0⟩, 0⟩ id [4]]) := by
  refine ⟨⟨by decide, by decide, by decide, rfl, by decide +kernel, rfl⟩, by decide, by decide,
    by decide, rfl, ?_⟩
  have hok : ((run Rule.canonicalization 10 shiftedBuffer).outcome.toOption.map fun r =>
      decide (r.1.effects [.buffer ⟨⟨0⟩, 0⟩ id [4]] ≠
        shiftedBuffer.effects [.buffer ⟨⟨0⟩, 0⟩ id [4]])) = some true := by decide +kernel
  obtain ⟨⟨g, outcome⟩, hrun, hne⟩ := Fault.toOption_map_eq_some.1 hok
  exact ⟨g, outcome, hrun, of_decide_eq_true hne⟩

end Greedy

end KernelLowering
