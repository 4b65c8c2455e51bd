import KernelLowering.Proofs.Safety.Rules
import KernelLowering.Proofs.Scope.Windows
import KernelLowering.Proofs.Tiling.Products
import Mathlib.Algebra.BigOperators.Ring.List

namespace KernelLowering

variable {f g : Function} {k : Spine} {b x y z c : Code} {hd : Node} {herd : Grid} {enclosed : Bool}

namespace OpKind

def trips (kind : OpKind) : Nat := (kind.loopRanges.map fun r => r.values.length).prod

structure FitsHerd (herd : Grid) (enclosed : Bool) (kind : OpKind) : Prop where
  parallel : kind.isParallel = true → (kind.trips : Int) ≤ herd.rows * herd.columns
  sequential : enclosed = true → kind.isLoop = true → kind.isParallel = false →
    (kind.trips : Int) ≤ herd.depth

structure Herded (herd : Grid) (enclosed : Bool) (kind : OpKind) : Prop
    extends FitsHerd herd enclosed kind where
  runs : 0 < kind.trips

variable {kind kind' : OpKind} {range : LoopRange} {ranges : List LoopRange}

@[simp] theorem trips_forLoop : (forLoop range).trips = range.values.length := by
  simp [trips, loopRanges]

@[simp] theorem trips_parallelLoop :
    (parallelLoop ranges).trips = (ranges.map fun r => r.values.length).prod := rfl

theorem Herded.forLoop (hruns : 0 < range.values.length)
    (hdepth : enclosed = true → (range.values.length : Int) ≤ herd.depth) :
    (OpKind.forLoop range).Herded herd enclosed where
  parallel hp := by cases hp
  sequential hin _ _ := by rw [trips_forLoop]; exact hdepth hin
  runs := by rwa [trips_forLoop]

theorem Herded.parallelLoop (hruns : 0 < (OpKind.parallelLoop ranges).trips)
    (hle : ((OpKind.parallelLoop ranges).trips : Int) ≤ herd.rows * herd.columns) :
    (OpKind.parallelLoop ranges).Herded herd enclosed where
  parallel _ := hle
  sequential _ _ hp := by cases hp
  runs := hruns

theorem isParallel_of_not_loop (h : kind.isLoop = false) : kind.isParallel = false := by
  cases kind <;> simp_all [isLoop, isParallel]

theorem Herded.of_not_loop (h : kind.isLoop = false) : kind.Herded herd enclosed where
  parallel hp := by simp [isParallel_of_not_loop h] at hp
  sequential _ hl := by simp [h] at hl
  runs := by simp [trips, loopRanges_of_isLoop_eq_false h]

theorem Herded.leave {outside : Bool} (hin : outside = true → enclosed = true)
    (h : kind.Herded herd enclosed) : kind.Herded herd outside :=
  ⟨⟨h.parallel, fun hout => h.sequential (hin hout)⟩, h.runs⟩

theorem Herded.of_trips (hsame : kind'.isParallel = kind.isParallel) (hloop : kind.isLoop = true)
    (htrips : kind'.trips = kind.trips) (h : kind.Herded herd enclosed) :
    kind'.Herded herd enclosed where
  parallel hp := htrips ▸ h.parallel (hsame ▸ hp)
  sequential hin _ hp := htrips ▸ h.sequential hin hloop (hsame ▸ hp)
  runs := htrips ▸ h.runs

theorem Herded.ne_nil {r : LoopRange} (h : kind.Herded herd enclosed) (hr : r ∈ kind.loopRanges) :
    r.values ≠ [] := fun hempty =>
  h.runs.ne' (List.prod_eq_zero (List.mem_map.2 ⟨r, hr, by simp [hempty]⟩))

end OpKind

/-- All loops fit the herd. -/
def Code.FitsHerd (herd : Grid) (c : Code) : Prop :=
  c.InPlace (fun enclosed h => h.kind.FitsHerd herd enclosed) false

/-- Some parallel loop takes all compute tiles of the herd. -/
def Code.UsesHerd (herd : Grid) (c : Code) : Prop :=
  ∃ h ∈ c.heads, h.kind.isParallel = true ∧ (h.kind.trips : Int) = herd.rows * herd.columns

theorem Code.inPlace_of_not_loops (h : ∀ hd ∈ x.heads, hd.kind.isLoop = false) (enclosed : Bool) :
    x.InPlace (fun enclosed h => h.kind.Herded herd enclosed) enclosed :=
  .of_heads (fun hd hh _ => .of_not_loop (h hd hh)) enclosed

namespace TrivialLoops

variable {pairs kept : List (LoopRange × ValueId)} {swaps : List (ValueId × ValueId)}
  {ρ : ValueId → ValueId}

theorem Drops.trips_eq (h : Drops pairs kept swaps y) :
    (pairs.map fun p => p.1.values.length).prod = (kept.map fun p => p.1.values.length).prod := by
  induction h with
  | nil => rfl
  | single op v hrange _ ih => rw [List.map_cons, List.prod_cons, hrange, ih, List.length_singleton, one_mul]
  | keep _ ih => rw [List.map_cons, List.map_cons, List.prod_cons, List.prod_cons, ih]

theorem Drops.kind_trips (h : Drops (hd.kind.loopRanges.zip hd.inductionVars) kept swaps y)
    (hvars : hd.inductionVars.length = hd.kind.loopRanges.length) :
    hd.kind.trips = (kept.map fun p => p.1.values.length).prod := by
  rw [OpKind.trips, ← h.trips_eq, ← List.map_fst_zip hvars.ge, List.map_map]
  simp only [List.map_fst_zip hvars.ge, Function.comp_def]

theorem Drops.not_loops (h : Drops pairs kept swaps y) : ∀ h ∈ y.heads, h.kind.isLoop = false := by
  intro h' hh
  obtain ⟨n, hkind⟩ := h.kind_eq h' hh
  rw [hkind]
  rfl

theorem Trimmed.herded (ht : Trimmed f hd x ρ y)
    (hvars : hd.inductionVars.length = hd.kind.loopRanges.length)
    (hloop : hd.kind.isLoop = true) (hhd : hd.kind.Herded herd enclosed)
    (hx : x.InPlace (fun enclosed h => h.kind.Herded herd enclosed) (enclosed || hd.kind.isParallel)) :
    y.InPlace (fun enclosed h => h.kind.Herded herd enclosed) enclosed := by
  have hbody : ∀ σ, (x.rename σ).InPlace (fun enclosed h => h.kind.Herded herd enclosed)
      (enclosed || hd.kind.isParallel) := fun σ => hx.rename fun _ _ _ h => h
  cases ht with
  | never => trivial
  | once hdrops =>
    refine Code.inPlace_append.2 ⟨Code.inPlace_of_not_loops hdrops.not_loops _, ?_⟩
    exact (hbody _).leave (by simp +contextual) fun hin h => h.leave hin
  | @loop kept swaps yd kind vars op hdrops _ hranges _ _ hsame =>
    refine Code.inPlace_append.2 ⟨Code.inPlace_of_not_loops hdrops.not_loops _, ?_, ?_, trivial⟩
    · refine hhd.of_trips hsame hloop ?_
      rw [hdrops.kind_trips hvars, OpKind.trips]
      simp [Node.loop, hranges, Function.comp_def]
    · rw [show (Node.loop op kind vars).kind.isParallel = _ from hsame]
      exact hbody _

theorem Trimmed.usesHerd (ht : Trimmed f hd x ρ y)
    (hvars : hd.inductionVars.length = hd.kind.loopRanges.length)
    (hhd : hd.kind.Herded herd enclosed) (hherd : 2 ≤ herd.rows * herd.columns)
    (huses : (Code.node hd x .nil).UsesHerd herd) : y.UsesHerd herd := by
  obtain ⟨h, hh, hparallel, htrips⟩ := huses
  simp only [Code.heads, List.append_nil, List.mem_cons] at hh
  cases ht with
  | never hr hempty => exact (hhd.ne_nil hr hempty).elim
  | @once swaps y hdrops =>
    rcases hh with rfl | hh
    · rw [hdrops.kind_trips hvars] at htrips
      simp only [List.map_nil, List.prod_nil, Nat.cast_one] at htrips
      omega
    · refine ⟨h.rename (replaced swaps), ?_, hparallel, htrips⟩
      rw [Code.heads_append, Code.heads_rename]
      exact List.mem_append_right _ (List.mem_map_of_mem hh)
  | @loop kept swaps yd kind vars op hdrops _ hranges _ _ hsame =>
    rcases hh with rfl | hh
    · refine ⟨.loop op kind vars, ?_, hsame.trans hparallel, ?_⟩
      · simp [Code.heads]
      · rw [← htrips, hdrops.kind_trips hvars, OpKind.trips]
        simp [Node.loop, hranges, Function.comp_def]
    · refine ⟨h.rename (replaced (swaps ++ (kept.map (·.2)).zip vars)), ?_, hparallel, htrips⟩
      simp only [Code.heads_append, Code.heads, Code.heads_rename, List.mem_append, List.mem_cons]
      exact .inr (.inr (.inl (List.mem_map_of_mem hh)))

end TrivialLoops

theorem Rule.gives_loopless {rule : Rule}
    (hrule : rule ∈ Rule.canonicalization ++ Rule.viewCleanup) (hother : rule ≠ .trivialLoops)
    (h : f.Built) (hr : f.Represents (k.plug (b ++ .node hd x z))) :
    (rule.apply f hd.op).Gives True fun g => hd.kind.isLoop = false ∧ ∃ σ y,
      Splice f g (k.rename σ) (b.rename σ) y (z.rename σ) ∧ ∀ h ∈ y.heads, h.kind.isLoop = false := by
  simp only [canonicalization, viewCleanup, List.cons_append, List.nil_append, List.mem_cons,
    List.not_mem_nil, or_false] at hrule
  rcases hrule with rfl | rfl | rfl | rfl | rfl
  · exact (hother rfl).elim
  · refine (AdditionFolding.gives_splice hr fun hkind => ?_).mono ?_
    · obtain ⟨lhs, rhs, r, hops, hl, hr', -⟩ := (h.made_at hr).operands_of_addIndex hkind
      exact ⟨lhs, rhs, [], hops, hl, hr'⟩
    rintro g - ⟨hkind, lhs, rhs, rest, y, w, -, -, -, hy, hsplice⟩
    refine ⟨by rw [hkind]; rfl, _, _, hsplice, ?_⟩
    cases hy <;> simp [Code.rename, Code.heads, Node.rename, Node.value, OpKind.isLoop]
  · refine (OffsetFolding.gives_splice hr fun w hkind =>
      OffsetFolding.ready_of_made (h.made_at hr) hkind).mono ?_
    rintro g - ⟨w, source, supplied, type, op, v, result, hready, -, hsplice⟩
    refine ⟨by rw [hready.kind]; rfl, _, _, hsplice, ?_⟩
    simp [Code.rename, Code.heads, Node.rename, Node.value, OpKind.isLoop]
  · refine (Reallocation.gives_splice hr (h.made_of hr)).mono ?_
    rintro g - ⟨view, alloc, tile, bytes, type, type', op, new, ht, -, -, hsplice⟩
    obtain ⟨w, hw⟩ := Option.isSome_iff_exists.1 ht.tile_kind
    refine ⟨by rw [OpKind.window?_eq_some.1 hw]; rfl, _, _, hsplice, ?_⟩
    simp [Code.heads, Reallocation.made, Node.value, OpKind.isLoop]
  · refine (ViewFolding.gives_splice hr (h.made_of hr)).mono ?_
    rintro g - ⟨inner, w, w', u, source, supplied, supplied', type, y, offsets, vs, op, v, result,
      hready, -, hsums, -, hsplice⟩
    refine ⟨by rw [hready.kind]; rfl, _, _, hsplice, fun h' hh' => ?_⟩
    rcases hsums.kinds hh' with (hkind | ⟨n, hkind⟩) | rfl
    · rw [hkind]; rfl
    · rw [hkind]; rfl
    · rfl

structure Function.Herded (herd : Grid) (full : Prop) (f : Function) : Prop where
  built : f.Built
  fits : f.code.InPlace (fun enclosed h => h.kind.Herded herd enclosed) false
  uses : full → f.code.UsesHerd herd

namespace Function.Herded

variable {full : Prop} {σ : ValueId → ValueId}

theorem splice (h : f.Herded herd full) (hr : f.Represents (k.plug (b ++ .node hd x z)))
    (hg : g.Built) (hrep : g.Represents ((k.rename σ).plug (b.rename σ ++ (y ++ z.rename σ))))
    (hy : y.InPlace (fun enclosed h => h.kind.Herded herd enclosed) k.inParallel)
    (huses : full → (Code.node hd x .nil).UsesHerd herd → y.UsesHerd herd) : g.Herded herd full where
  built := hg
  fits := by
    rw [hrep.code_eq]
    exact Spine.inPlace_splice (hr.code_eq ▸ h.fits) (fun _ _ _ h => h) hy
  uses hfull := by
    obtain ⟨h', hh', htrips⟩ := h.uses hfull
    rw [hr.code_eq, Spine.mem_heads_node, ← or_assoc] at hh'
    rw [hrep.code_eq]
    rcases hh' with hh' | hh'
    · obtain ⟨h'', hh'', htrips⟩ := huses hfull ⟨h', by simpa [Code.heads] using hh', htrips⟩
      exact ⟨h'', Spine.mem_heads_splice.2 (.inr hh''), htrips⟩
    · exact ⟨h'.rename σ, Spine.mem_heads_splice.2 (.inl ⟨h', hh', rfl⟩), htrips⟩

theorem splice_loopless (h : f.Herded herd full) (hr : f.Represents (k.plug (b ++ .node hd x z)))
    (hg : g.Built) (hrep : g.Represents ((k.rename σ).plug (b.rename σ ++ (y ++ z.rename σ))))
    (hhd : hd.kind.isLoop = false) (hy : ∀ h ∈ y.heads, h.kind.isLoop = false) : g.Herded herd full := by
  refine h.splice hr hg hrep (Code.inPlace_of_not_loops hy _) fun _ huses => ?_
  obtain rfl : x = .nil := Spine.body_eq_nil (h.built.nested_of hr) hhd
  obtain ⟨h', hh', hparallel, -⟩ := huses
  rw [Code.heads, Code.heads, List.nil_append, List.mem_singleton] at hh'
  rw [hh', OpKind.isParallel_of_not_loop hhd] at hparallel
  cases hparallel

theorem shed (h : f.Herded herd full) (hs : f.Sheds g k b x z hd) : g.Herded herd full :=
  h.splice_loopless (σ := id) (y := .nil) hs.before (h.built.shed hs) (by simpa using hs.after)
    (OpKind.isLoop_of_isPure hs.pure) (by simp [Code.heads])

theorem gives_trivialLoops (h : f.Herded herd full) (hfull : full → 2 ≤ herd.rows * herd.columns)
    (hr : f.Represents (k.plug (b ++ .node hd x z))) :
    (Rule.trivialLoops.apply f hd.op).Gives True fun g => g.Built → g.Herded herd full := by
  rw [Rule.apply, Inspect.gives_bind]
  refine (TrivialLoops.gives_check hr).mono fun _ _ hloop => ?_
  rw [Inspect.gives_lift]
  refine (TrivialLoops.yields_perform hr).mono ?_
  rintro g - ⟨ρ, y, ht, hrep, -⟩ hg
  have hat := Spine.mem_heads_at k b x z hd
  obtain ⟨-, -, hhd, hx, -⟩ := Spine.inPlace_at.1 (hr.code_eq ▸ h.fits)
  have hvars := hr.vars hat
  exact h.splice hr hg hrep (ht.herded hvars hloop hhd hx)
    fun hf huses => ht.usesHerd hvars hhd (hfull hf) huses

theorem gives_herded (h : f.Herded herd full) (hfull : full → 2 ≤ herd.rows * herd.columns)
    {rule : Rule} (hrule : rule ∈ Rule.canonicalization ++ Rule.viewCleanup)
    (hr : f.Represents (k.plug (b ++ .node hd x z))) :
    (rule.apply f hd.op).Gives True fun g => g.Herded herd full ∧ f.Grows g := by
  have hbuilt := rule.gives_built h.built hr
  by_cases hloops : rule = .trivialLoops
  · subst hloops
    refine (h.gives_trivialLoops hfull hr).mono fun g happly hg => ?_
    obtain ⟨hg', hgrows⟩ := hbuilt.of_answers happly
    exact ⟨hg hg', hgrows⟩
  · refine (Rule.gives_loopless hrule hloops h.built hr).mono ?_
    rintro g happly ⟨hhd, σ, y, hsplice, hy⟩
    obtain ⟨hg', hgrows⟩ := hbuilt.of_answers happly
    exact ⟨h.splice_loopless hr hg' hsplice.represents hhd hy, hgrows⟩

theorem keeps (hfull : full → 2 ≤ herd.rows * herd.columns) {rules : List Rule}
    (hrules : rules ⊆ Rule.canonicalization ++ Rule.viewCleanup) :
    Greedy.Keeps (· = .overflow) (Function.Herded herd full) rules where
  wellFormed _ h := h.built.wellFormed
  sheds _ _ _ _ _ _ _ h hs := h.shed hs
  rule _ hrule _ _ _ _ _ _ h hr := ends_overflow.2 <|
    Yields.mono (h.gives_herded hfull (hrules hrule) hr) fun _ _ hgives g hg =>
      have hstep := hgives g hg
      ⟨hstep.1, hstep.2.ops⟩

end Function.Herded

end KernelLowering
