import KernelLowering.Proofs.Arena.Moves
import KernelLowering.Proofs.Arena.Spine
import KernelLowering.Proofs.Arena.ParallelLoops
import KernelLowering.Proofs.Arena.Replacement
import KernelLowering.Proofs.Inspection
import KernelLowering.Proofs.Simulation.Values
import KernelLowering.Rule.Basic

namespace KernelLowering

theorem Node.rename_rename (σ τ : ValueId → ValueId) (h : Node) :
    (h.rename σ).rename τ = h.rename (τ ∘ σ) := by
  simp [rename]

theorem Code.rename_rename (σ τ : ValueId → ValueId) (x : Code) :
    (x.rename σ).rename τ = x.rename (τ ∘ σ) := by
  induction x with
  | nil => rfl
  | node h body rest ihb ihr => simp only [rename, Node.rename_rename, ihb, ihr]

theorem Spine.rename_rename (σ τ : ValueId → ValueId) (k : Spine) :
    (k.rename σ).rename τ = k.rename (τ ∘ σ) := by
  induction k with
  | body => rfl
  | inside h b a k ih => simp only [rename, Node.rename_rename, Code.rename_rename, ih]

namespace LoopRange

theorem length_values (r : LoopRange) :
    r.values.length = ((r.upper - r.lower + (r.step - 1)) / r.step).toNat := by
  simp [values]

theorem values_of_single {r : LoopRange} (h : r.values.length = 1) : r.values = [r.lower] := by
  rw [values, List.length_map, List.length_range] at h
  simp [values, h]

theorem yields_tripCount (r : LoopRange) :
    Yields True r.tripCount fun n => n = r.values.length := by
  have hstep := r.step_pos
  rw [tripCount, KernelLowering.tripCount]
  split
  · rename_i h
    rw [values_of_empty h]
    rfl
  · rename_i h
    rw [Yields.bind_iff]
    refine (Checked.yields_sub _ _).weaken (fun _ => trivial) |>.mono ?_
    rintro _ - rfl
    refine (Checked.yields_add _ _).weaken (fun _ => trivial) |>.mono ?_
    rintro _ - rfl
    have hsum : r.upper - r.lower + (r.step - 1) = r.upper - r.lower - 1 + 1 * r.step := by omega
    have hpos : 0 ≤ (r.upper - r.lower - 1) / r.step :=
      Int.ediv_nonneg (by omega) (Int.le_of_lt hstep)
    rw [length_values, hsum, Int.add_mul_ediv_right _ _ (by omega)]
    omega

end LoopRange

namespace TrivialLoops

def replaced (swaps : List (ValueId × ValueId)) : ValueId → ValueId :=
  swaps.foldl (fun σ p => Function.swapped p.1 p.2 ∘ σ) id

theorem replaced_append (swaps swaps' : List (ValueId × ValueId)) :
    replaced (swaps ++ swaps') = replaced swaps' ∘ replaced swaps := by
  have hout : ∀ σ : ValueId → ValueId,
      swaps'.foldl (fun σ p => Function.swapped p.1 p.2 ∘ σ) σ = replaced swaps' ∘ σ := by
    induction swaps' with
    | nil => exact fun _ => rfl
    | cons p swaps' ih =>
      intro σ
      rw [replaced, List.foldl_cons, List.foldl_cons, ih, ih]
      rfl
  rw [replaced, List.foldl_append, hout]
  rfl

theorem replaced_cons (p : ValueId × ValueId) (swaps : List (ValueId × ValueId)) :
    replaced (p :: swaps) = replaced swaps ∘ Function.swapped p.1 p.2 :=
  replaced_append [p] swaps

theorem replaced_of_not_mem {swaps : List (ValueId × ValueId)} {v : ValueId}
    (h : v ∉ swaps.map (·.1)) : replaced swaps v = v := by
  induction swaps with
  | nil => rfl
  | cons p swaps ih =>
    rw [List.map_cons, List.mem_cons, not_or] at h
    rw [replaced_cons, Function.comp, Function.swapped_of_ne h.1, ih h.2]

theorem replaced_of_mem {swaps : List (ValueId × ValueId)} {v w : ValueId} (h : (v, w) ∈ swaps)
    (hnd : (swaps.map (·.1)).Nodup) (hout : ∀ v ∈ swaps.map (·.2), v ∉ swaps.map (·.1)) :
    replaced swaps v = w := by
  induction swaps with
  | nil => cases h
  | cons p swaps ih =>
    rw [List.map_cons, List.forall_mem_cons] at hout
    simp only [List.map_cons, List.nodup_cons, List.mem_cons, not_or] at hnd hout
    rw [replaced_cons, Function.comp]
    rcases List.mem_cons.1 h with rfl | h
    · rw [Function.swapped_self]
      exact replaced_of_not_mem hout.1.2
    · have hv : v ∈ swaps.map (·.1) := List.mem_map.2 ⟨_, h, rfl⟩
      have hne : v ≠ p.1 := fun e => hnd.1 (e ▸ hv)
      rw [Function.swapped_of_ne hne]
      exact ih h hnd.2 fun u hu => (hout.2 u hu).2

inductive Drops : List (LoopRange × ValueId) → List (LoopRange × ValueId) →
    List (ValueId × ValueId) → Code → Prop
  | nil : Drops [] [] [] .nil
  | single {range var pairs kept swaps y} (op : OpId) (v : ValueId)
      (hrange : range.values = [range.lower]) (h : Drops pairs kept swaps y) :
      Drops ((range, var) :: pairs) kept ((var, v) :: swaps)
        (.node (.value op (.constant range.lower) [] v .index) .nil y)
  | keep {range var pairs kept swaps y} (h : Drops pairs kept swaps y) :
      Drops ((range, var) :: pairs) ((range, var) :: kept) swaps y

namespace Drops

variable {pairs kept : List (LoopRange × ValueId)} {swaps : List (ValueId × ValueId)} {y : Code}

theorem rename_eq (h : Drops pairs kept swaps y) (σ : ValueId → ValueId) : y.rename σ = y := by
  induction h with
  | nil => rfl
  | single op v hrange _ ih => rw [Code.rename, ih]; rfl
  | keep _ ih => exact ih

theorem vars (h : Drops pairs kept swaps y) :
    (swaps.map (·.1) ++ kept.map (·.2)).Perm (pairs.map (·.2)) := by
  induction h with
  | nil => exact .refl _
  | single op v hrange _ ih => exact ih.cons _
  | keep _ ih => exact List.perm_middle.trans (ih.cons _)

theorem defined_eq (h : Drops pairs kept swaps y) : y.defined = swaps.map (·.2) := by
  induction h with
  | nil => rfl
  | single op v hrange _ ih =>
    rw [Code.defined_node, Code.defined_nil, ih]
    rfl
  | keep _ ih => exact ih

theorem kind_eq (h : Drops pairs kept swaps y) : ∀ h ∈ y.heads, ∃ n, h.kind = .constant n := by
  induction h with
  | nil => simp [Code.heads]
  | single op v hrange _ ih =>
    simp only [Code.heads, List.nil_append, List.forall_mem_cons]
    exact ⟨⟨_, rfl⟩, ih⟩
  | keep _ ih => exact ih

theorem operands_eq (h : Drops pairs kept swaps y) : ∀ h ∈ y.heads, h.operands = [] := by
  induction h with
  | nil => simp [Code.heads]
  | single op v hrange _ ih =>
    simp only [Code.heads, List.nil_append, List.forall_mem_cons]
    exact ⟨rfl, ih⟩
  | keep _ ih => exact ih

theorem replaced_eq (h : Drops pairs kept swaps y) {vars : List ValueId} (hlen : vars.length = kept.length)
    (hpairs : (pairs.map (·.2)).Nodup) (hout : ∀ v ∈ y.defined ++ vars, v ∉ pairs.map (·.2))
    {v w : ValueId} (hvw : (v, w) ∈ swaps ++ (kept.map (·.2)).zip vars) :
    replaced (swaps ++ (kept.map (·.2)).zip vars) v = w := by
  have holds : (swaps ++ (kept.map (·.2)).zip vars).map (·.1) = swaps.map (·.1) ++ kept.map (·.2) := by
    rw [List.map_append, List.map_fst_zip (by simp [hlen])]
  have hnews : (swaps ++ (kept.map (·.2)).zip vars).map (·.2) = y.defined ++ vars := by
    rw [List.map_append, List.map_snd_zip (by simp [hlen]), h.defined_eq]
  refine replaced_of_mem hvw (holds ▸ h.vars.nodup_iff.2 hpairs) ?_
  rw [holds, hnews]
  exact fun u hu hold => hout u hu (h.vars.mem_iff.1 hold)

theorem replaced_self (h : Drops pairs kept swaps y) {vars : List ValueId} (hlen : vars.length = kept.length)
    {v : ValueId} (hv : v ∉ pairs.map (·.2)) : replaced (swaps ++ (kept.map (·.2)).zip vars) v = v := by
  refine replaced_of_not_mem fun hm => hv (h.vars.mem_iff.1 ?_)
  rwa [List.map_append, List.map_fst_zip (by simp [hlen])] at hm

theorem nested (h : Drops pairs kept swaps y) : y.Nested := by
  induction h with
  | nil => trivial
  | single op v hrange _ ih => exact ⟨.inr rfl, trivial, ih⟩
  | keep _ ih => exact ih

def Agrees (pairs kept : List (LoopRange × ValueId)) (swaps : List (ValueId × ValueId)) (y : Code)
    (i i' : List Int) : Prop :=
  ∀ v n, (v, n) ∈ (pairs.map (·.2)).zip i → (v, n) ∈ (kept.map (·.2)).zip i' ∨
    ∃ w, (v, w) ∈ swaps ∧ ∃ op, .value op (.constant n) [] w .index ∈ y.heads

theorem exists_pick (h : Drops pairs kept swaps y) : ∃ pick : List Int → List Int,
    tuples (kept.map (·.1.values)) = (tuples (pairs.map (·.1.values))).map pick ∧
      ∀ i ∈ tuples (pairs.map (·.1.values)), Agrees pairs kept swaps y i (pick i) := by
  induction h with
  | nil => exact ⟨id, rfl, fun i _ v n h => by cases h⟩
  | @single range var pairs kept swaps y op c hrange h ih =>
    obtain ⟨pick, hpick, hagrees⟩ := ih
    have hall : tuples (((range, var) :: pairs).map (·.1.values)) =
        (tuples (pairs.map (·.1.values))).map (range.lower :: ·) := by
      rw [List.map_cons, tuples, hrange, List.flatMap_singleton]
    refine ⟨fun i => pick i.tail, ?_, fun i hi v n hv => ?_⟩
    · rw [hall, hpick, List.map_map]
      rfl
    · rw [hall, List.mem_map] at hi
      obtain ⟨i, hi, rfl⟩ := hi
      rw [List.map_cons, List.zip_cons_cons, List.mem_cons] at hv
      rcases hv with hv | hv
      · cases hv
        exact .inr ⟨c, List.mem_cons_self, op, List.mem_cons_self⟩
      · refine (hagrees i hi v n hv).imp_right ?_
        rintro ⟨w, hw, op', hm⟩
        exact ⟨w, List.mem_cons_of_mem _ hw, op', List.mem_cons_of_mem _ hm⟩
  | @keep range var pairs kept swaps y h ih =>
    obtain ⟨pick, hpick, hagrees⟩ := ih
    refine ⟨fun i => i.take 1 ++ pick (i.drop 1), ?_, fun i hi v n hv => ?_⟩
    · rw [List.map_cons, List.map_cons, tuples, tuples, List.map_flatMap, hpick]
      simp only [List.map_map]
      rfl
    · rw [List.map_cons, tuples, List.mem_flatMap] at hi
      obtain ⟨m, -, hi⟩ := hi
      obtain ⟨i, hrest, rfl⟩ := List.mem_map.1 hi
      rw [List.map_cons, List.zip_cons_cons, List.mem_cons] at hv
      rcases hv with hv | hv
      · exact .inl (hv ▸ List.mem_cons_self)
      · exact (hagrees i hrest v n hv).imp_left (List.mem_cons_of_mem _)

theorem sublist (h : Drops pairs kept swaps y) : kept.Sublist pairs := by
  induction h with
  | nil => exact .slnil
  | single op v hrange _ ih => exact ih.cons _
  | keep _ ih => exact ih.cons_cons _

end Drops

theorem exists_zip {olds news : List ValueId} {is : List Int} {v : ValueId} {n : Int}
    (hlen : news.length = olds.length) (h : (v, n) ∈ olds.zip is) :
    ∃ w, (v, w) ∈ olds.zip news ∧ (w, n) ∈ news.zip is := by
  induction olds generalizing news is with
  | nil => cases h
  | cons old olds ih =>
    match news, is, hlen, h with
    | new :: news, i :: is, hlen, h =>
      rw [List.zip_cons_cons, List.mem_cons] at h
      rcases h with h | h
      · cases h
        exact ⟨new, List.mem_cons_self, List.mem_cons_self⟩
      · obtain ⟨w, hw, hw'⟩ := ih (Nat.succ.inj hlen) h
        exact ⟨w, List.mem_cons_of_mem _ hw, List.mem_cons_of_mem _ hw'⟩

theorem tuples_of_empty {columns : List (List Int)} (h : [] ∈ columns) : tuples columns = [] := by
  induction columns with
  | nil => cases h
  | cons column columns ih =>
    rw [tuples]
    rcases List.mem_cons.1 h with rfl | h
    · rfl
    · simp [ih h]

theorem yields_replaceUses {s s' : Builder} {k : Spine} {b y z : Code} {p : Prop}
    (h : Writes s s' k b y z) (old new : ValueId) :
    Yields p ((Build.replaceUses old new).run s') fun r =>
      Writes s r.2 (k.rename (Function.swapped old new)) (b.rename (Function.swapped old new))
        (y.rename (Function.swapped old new)) (z.rename (Function.swapped old new)) := by
  rw [Build.replaceUses, Build.yields_edit, Yields.ok_iff]
  have hrep := h.cursor.represents.replaceUses old new
  rw [Spine.rename_plug, Code.rename_append, Code.rename_append] at hrep
  have hsame := Function.sameValues_replaceUses s'.function old new
  refine ⟨⟨hrep, ?_⟩, h.grows.trans hsame.grows, h.point, ?_, ?_⟩
  · have hfaces := h.cursor.faces
    cases z with
    | nil =>
      rw [Code.rename, InsertionPoint.Faces, Spine.parent_rename]
      exact hfaces
    | node hd x z => exact hfaces
  · rw [Code.ops_rename]
    exact h.ops
  · rw [Code.defined_rename, h.defined]
    exact congrArg (freshValues _) (congrArg Array.size hsame.values.symm)

theorem yields_dropSingle {s s' : Builder} {k : Spine} {b y₀ z : Code}
    (h : Writes s s' k b y₀ z) (pairs : List (LoopRange × ValueId))
    (hy : ∀ σ, y₀.rename σ = y₀) :
    Yields True ((dropSingle pairs).run s') fun r => (∀ pair ∈ r.1, pair.1.values.length ≠ 1) ∧
      ∃ swaps y, Drops pairs r.1 swaps y ∧
        Writes s r.2 (k.rename (replaced swaps)) (b.rename (replaced swaps)) (y₀ ++ y)
          (z.rename (replaced swaps)) := by
  induction pairs generalizing s' k b y₀ z with
  | nil =>
    refine ⟨by simp, [], .nil, .nil, ?_⟩
    simpa [replaced] using h
  | cons pair pairs ih =>
    obtain ⟨range, var⟩ := pair
    rw [dropSingle, Build.yields_bind, Build.yields_lift]
    refine range.yields_tripCount.mono ?_
    rintro n - rfl
    split
    · rename_i hone
      rw [Build.yields_bind]
      refine (h.cursor.yields_value (.constant range.lower) [] .index rfl).mono ?_
      rintro ⟨v, s₁⟩ - ⟨op, hw⟩
      rw [Build.yields_bind]
      refine (yields_replaceUses (h.trans hw) var v).mono ?_
      rintro ⟨u, s₂⟩ - hw'
      rw [Code.rename_append, hy] at hw'
      refine (ih hw' fun σ => ?_).mono ?_
      · rw [Code.rename_append, hy]
        rfl
      · rintro r - ⟨hkept, swaps, y, hdrops, hwrites⟩
        refine ⟨hkept, (var, v) :: swaps, _,
          .single op v (LoopRange.values_of_single (Int.ofNat.inj hone)) hdrops, ?_⟩
        rw [Spine.rename_rename, Code.rename_rename, Code.rename_rename, Code.append_assoc] at hwrites
        rw [replaced_cons]
        exact hwrites
    · rename_i hone
      rw [Build.yields_bind]
      refine (ih h hy).mono ?_
      rintro r - ⟨hkept, swaps, y, hdrops, hwrites⟩
      exact ⟨List.forall_mem_cons.2 ⟨fun he => hone (congrArg _ he), hkept⟩, swaps, y, .keep hdrops,
        hwrites⟩

theorem yields_rename {s s' : Builder} {k : Spine} {b y z : Code} {p : Prop}
    (h : Writes s s' k b y z) (swaps : List (ValueId × ValueId)) :
    Yields p ((swaps.forM fun q => Build.replaceUses q.1 q.2).run s') fun r =>
      Writes s r.2 (k.rename (replaced swaps)) (b.rename (replaced swaps))
        (y.rename (replaced swaps)) (z.rename (replaced swaps)) := by
  induction swaps generalizing s' k b y z with
  | nil =>
    rw [List.forM_eq_forM, List.forM_nil, Build.yields_pure]
    simpa [replaced] using h
  | cons q swaps ih =>
    rw [List.forM_eq_forM, List.forM_cons, Build.yields_bind]
    refine (yields_replaceUses h q.1 q.2).mono ?_
    rintro ⟨u, s₁⟩ - hw
    refine (ih hw).mono fun r _ hr => ?_
    rw [replaced_cons]
    simpa only [Spine.rename_rename, Code.rename_rename] using hr

theorem yields_buildLoop {s : Builder} {k : Spine} {b z : Code} {p : Prop} (h : Cursor s k b z)
    {kind : OpKind} {first : LoopRange} {ranges : List LoopRange}
    (hfirst : ranges.head? = some first) (hlen : ranges.length ≤ kind.loopRanges.length) :
    Yields p ((buildLoop kind first ranges).run s) fun r => ∃ kind' : OpKind,
      kind'.isLoop = true ∧ kind'.loopRanges = ranges ∧ kind'.isParallel = kind.isParallel ∧
        r.1.2.length = ranges.length ∧
          Writes s r.2 k b (.node (.loop r.1.1 kind' r.1.2) .nil .nil) z := by
  unfold buildLoop
  split
  · obtain rfl : ranges = [first] := by
      match ranges, hfirst, hlen with
      | [_], hfirst, _ =>
        cases hfirst
        rfl
    refine (h.yields_loop (.forLoop first)).mono ?_
    rintro r - ⟨hlen, hw⟩
    exact ⟨.forLoop first, rfl, rfl, rfl, hlen, hw⟩
  · rename_i hother
    have hparallel : kind.isParallel = true := by
      cases kind <;> simp_all [OpKind.loopRanges, OpKind.isParallel]
    refine (h.yields_loop (.parallelLoop ranges)).mono ?_
    rintro r - ⟨hlen, hw⟩
    exact ⟨.parallelLoop ranges, rfl, rfl, hparallel.symm, hlen, hw⟩

section Moves

variable {s : Builder} {k : Spine} {b x y z : Code} {hd m : Node} {p : Prop}

theorem yields_place_before (hr : s.function.Represents (k.plug (b ++ .node hd x z)))
    (hpoint : s.point = .before hd.op) : Yields p ((x.roots.forM Build.place).run s) fun r =>
      r.2.function.Represents (k.plug (b ++ x ++ .node hd .nil z)) ∧
        s.function.SameValues r.2.function := by
  induction x generalizing s b with
  | nil =>
    rw [Code.roots, List.forM_eq_forM, List.forM_nil, Build.yields_pure, Code.append_nil]
    exact ⟨hr, .refl _⟩
  | node h xb xr _ ih =>
    have hplace : (Build.place h.op).run s = .ok ((), { s with
        function := s.function.moved h.op hd.op xr.roots k.parent
          (b.roots ++ h.op :: hd.op :: z.roots) }) := by
      obtain ⟨f, point⟩ := s
      subst hpoint
      have hplace : f.placeBefore h.op hd.op = _ := hr.placeBefore_holder
      simp [Build.place, Build.point, Build.edit, hplace]
    have hmoved := hr.moved_before
    rw [show b ++ .node h xb (.node hd xr z) = (b ++ .node h xb .nil) ++ .node hd xr z by
      rw [Code.append_assoc]; rfl] at hmoved
    rw [Code.roots, List.forM_eq_forM, List.forM_cons, Build.yields_bind, hplace, Yields.ok_iff]
    refine Yields.mono (ih hmoved hpoint) ?_
    rintro r - ⟨hrep, hsame⟩
    refine ⟨?_, (Function.sameValues_moved _ _ _ _ _ _).trans hsame⟩
    rw [Code.append_assoc b] at hrep
    exact hrep

theorem yields_place_behind
    (hr : s.function.Represents (k.plug (b ++ .node m y (.node hd x z))))
    (hpoint : s.point = .atEnd (some m.op)) :
    Yields p ((x.roots.forM Build.place).run s) fun r =>
      r.2.function.Represents (k.plug (b ++ .node m (y ++ x) (.node hd .nil z))) ∧
        s.function.SameValues r.2.function := by
  induction x generalizing s y with
  | nil =>
    rw [Code.roots, List.forM_eq_forM, List.forM_nil, Build.yields_pure, Code.append_nil]
    exact ⟨hr, .refl _⟩
  | node h xb xr _ ih =>
    have hplace : (Build.place h.op).run s = .ok ((), { s with
        function := s.function.moved h.op hd.op xr.roots (some m.op) (y.roots ++ [h.op]) }) := by
      obtain ⟨f, point⟩ := s
      subst hpoint
      have hplace : f.placeAtEnd h.op (some m.op) = _ := hr.placeAtEnd_preceding
      simp [Build.place, Build.point, Build.edit, hplace]
    rw [Code.roots, List.forM_eq_forM, List.forM_cons, Build.yields_bind, hplace, Yields.ok_iff]
    refine Yields.mono (ih hr.moved_behind hpoint) ?_
    rintro r - ⟨hrep, hsame⟩
    refine ⟨?_, (Function.sameValues_moved _ _ _ _ _ _).trans hsame⟩
    rw [Code.append_assoc y] at hrep
    exact hrep

theorem yields_erase (hr : s.function.Represents (k.plug (b ++ .node hd x z))) :
    Yields p ((Build.erase hd.op).run s) fun r =>
      r.2.function.Represents (k.plug (b ++ z)) ∧ s.function.SameValues r.2.function := by
  rw [Build.erase, Build.yields_edit, hr.erase_eq]
  exact ⟨hr.without, Function.sameValues_without _ _ _ _⟩

end Moves

theorem nodup_at {f : Function} {k : Spine} {b x z : Code} {hd : Node}
    (hr : f.Represents (k.plug (b ++ .node hd x z))) :
    hd.defined.Nodup ∧ x.defined.Nodup ∧ hd.defined.Disjoint x.defined := by
  have hnd := Spine.nodup_defined_plug hr.nodup_defined
  rw [Code.defined_append, Code.defined_node] at hnd
  obtain ⟨-, hnd, -⟩ := List.nodup_append'.1 hnd
  obtain ⟨hhd, hnd, hdis⟩ := List.nodup_append'.1 hnd
  exact ⟨hhd, (List.nodup_append'.1 hnd).1, List.disjoint_of_subset_right (List.subset_append_left _ _) hdis⟩

theorem pairs_of_represents {f : Function} {k : Spine} {b x z : Code} {hd : Node}
    (hr : f.Represents (k.plug (b ++ .node hd x z))) :
    (hd.kind.loopRanges.zip hd.inductionVars).map (·.1) = hd.kind.loopRanges ∧
      (hd.kind.loopRanges.zip hd.inductionVars).map (·.2) = hd.inductionVars := by
  have hlen := hr.vars (Spine.mem_heads_at k b x z hd)
  exact ⟨List.map_fst_zip hlen.ge, List.map_snd_zip hlen.le⟩

inductive Trimmed (f : Function) (hd : Node) (x : Code) : (ValueId → ValueId) → Code → Prop
  | never {r : LoopRange} (hr : r ∈ hd.kind.loopRanges) (hempty : r.values = []) :
      Trimmed f hd x id .nil
  | once {swaps : List (ValueId × ValueId)} {y : Code}
      (hdrops : Drops (hd.kind.loopRanges.zip hd.inductionVars) [] swaps y)
      (hnew : ∀ v ∈ y.defined, ¬ f.Has v) :
      Trimmed f hd x (replaced swaps) (y ++ x.rename (replaced swaps))
  | loop {kept : List (LoopRange × ValueId)} {swaps : List (ValueId × ValueId)} {y : Code}
      {kind : OpKind} {vars : List ValueId} (op : OpId)
      (hdrops : Drops (hd.kind.loopRanges.zip hd.inductionVars) kept swaps y)
      (hloop : kind.isLoop = true) (hranges : kind.loopRanges = kept.map (·.1))
      (hlen : vars.length = kept.length) (hnew : ∀ v ∈ y.defined ++ vars, ¬ f.Has v)
      (hsame : kind.isParallel = hd.kind.isParallel) :
      Trimmed f hd x (replaced (swaps ++ (kept.map (·.2)).zip vars))
        (y ++ .node (.loop op kind vars)
          (x.rename (replaced (swaps ++ (kept.map (·.2)).zip vars))) .nil)

theorem Trimmed.nested {f : Function} {hd : Node} {x y : Code} {ρ : ValueId → ValueId}
    (h : Trimmed f hd x ρ y) (hx : x.Nested) : y.Nested := by
  cases h with
  | never => trivial
  | once hdrops => exact Code.nested_append.2 ⟨hdrops.nested, hx.rename _⟩
  | loop op hdrops hloop =>
    exact Code.nested_append.2 ⟨hdrops.nested, .inl hloop, hx.rename _, trivial⟩

structure Trimmings (f : Function) (x : Code) (ρ : ValueId → ValueId) (y : Code)
    (new : List Node) : Prop where
  heads : ∃ kept, (kept = x.heads ∨ kept = []) ∧ y.heads = new ++ kept.map (·.rename ρ)
  ops : ∀ h ∈ new, f.ops.size ≤ h.op.index
  values : ∀ h ∈ new, ∀ v ∈ h.defined, ¬ f.Has v
  operands : ∀ h ∈ new, h.operands = []
  kinds : ∀ h ∈ new, (∃ n, h.kind = .constant n) ∨
    h.kind.isLoop = true ∧ ∀ r ∈ h.kind.loopRanges, 1 < r.values.length

theorem yields_anyM_never (s : Builder) (ranges : List LoopRange) :
    Yields True ((ranges.anyM fun r => do return (← r.tripCount) = 0 : Build Bool).run s) fun out =>
      out.2 = s ∧ (out.1 = true → ∃ r ∈ ranges, r.values = []) ∧
        (out.1 = false → ∀ r ∈ ranges, r.values ≠ []) := by
  induction ranges with
  | nil => simp [List.anyM]
  | cons r ranges ih =>
    simp only [List.anyM, Build.yields_bind, Build.yields_lift, Build.yields_pure]
    refine r.yields_tripCount.mono ?_
    rintro n - rfl
    split
    · rename_i hzero
      have hempty : r.values = [] := by simpa using hzero
      exact ⟨rfl, fun _ => ⟨r, List.mem_cons_self, hempty⟩, fun hfalse => by cases hfalse⟩
    · rename_i hzero
      refine ih.mono fun out _ hout => ⟨hout.1, fun htrue => ?_, fun hfalse =>
        List.forall_mem_cons.2 ⟨fun hempty => of_decide_eq_false hzero (by simp [hempty]), hout.2.2 hfalse⟩⟩
      obtain ⟨r', hr', hempty⟩ := hout.2.1 htrue
      exact ⟨r', List.mem_cons_of_mem r hr', hempty⟩

theorem fresh_of_writes {s s' : Builder} {k : Spine} {b y z : Code} (h : Writes s s' k b y z)
    {v : ValueId} (hv : v ∈ y.defined) : ¬ s.function.Has v := fun hhas => h.not_mem hhas hv

theorem Trimmings.of_writes {s s' : Builder} {k : Spine} {b x y z : Code} {ρ : ValueId → ValueId}
    (y' : Code) (h : Writes s s' k b y z) (hops : y'.ops = y.ops) (hdefined : y'.defined = y.defined)
    (hoperands : ∀ h ∈ y'.heads, h.operands = [])
    (hkinds : ∀ h ∈ y'.heads, (∃ n, h.kind = .constant n) ∨
      h.kind.isLoop = true ∧ ∀ r ∈ h.kind.loopRanges, 1 < r.values.length) {c : Code}
    (hc : c.heads = y'.heads ++ x.heads.map (·.rename ρ)) :
    Trimmings s.function x ρ c y'.heads where
  heads := ⟨_, .inl rfl, hc⟩
  ops _ hh := h.ops _ (hops ▸ Code.ops_eq_map_heads y' ▸ List.mem_map_of_mem hh)
  values h' hh _ hv := fresh_of_writes h (hdefined ▸ List.mem_flatMap.2 ⟨h', hh, hv⟩)
  operands := hoperands
  kinds := hkinds

section Trim

variable {f : Function} {s : Builder} {k : Spine} {b x y z : Code} {hd : Node}
  {kept : List (LoopRange × ValueId)} {swaps : List (ValueId × ValueId)}

theorem yields_finish
    (hw : Writes ⟨f, .before hd.op⟩ s (k.rename (replaced swaps)) (b.rename (replaced swaps)) y
      ((Code.node hd x z).rename (replaced swaps)))
    (hdrops : Drops (hd.kind.loopRanges.zip hd.inductionVars) kept swaps y)
    (hkept : ∀ pair ∈ kept, 1 < pair.1.values.length) :
    Yields True ((do
      Build.setPoint (← buildTarget hd.op hd.kind kept)
      x.roots.forM Build.place
      Build.erase hd.op : Build Unit).run s) fun out => ∃ ρ y, Trimmed f hd x ρ y ∧
        (∃ new, Trimmings f x ρ y new) ∧
          out.2.function.Represents ((k.rename ρ).plug (b.rename ρ ++ (y ++ z.rename ρ))) ∧
            f.Grows out.2.function := by
  have hroots : ∀ σ, x.roots = (x.rename σ).roots := fun σ => (Code.roots_rename σ x).symm
  simp only [Build.yields_bind, Build.yields_setPoint]
  cases kept with
  | nil =>
    rw [buildTarget, Build.yields_pure, hroots (replaced swaps)]
    refine Yields.mono (yields_place_before (s := ⟨s.function, .before hd.op⟩)
      hw.cursor.represents rfl) ?_
    rintro ⟨u, s₂⟩ - ⟨hrep, hsame⟩
    refine (yields_erase hrep).mono ?_
    rintro out - ⟨hrep', hsame'⟩
    refine ⟨_, _, .once hdrops fun v hv => fresh_of_writes hw hv,
      ⟨_, .of_writes _ hw rfl rfl hdrops.operands_eq (fun h hh => .inl (hdrops.kind_eq h hh)) ?_⟩, ?_,
        hw.grows.trans (hsame.trans hsame').grows⟩
    · rw [Code.heads_append, Code.heads_rename]
    simpa only [Code.append_assoc] using hrep'
  | cons pair kept =>
    obtain ⟨first, var⟩ := pair
    have hlen : (((first, var) :: kept).map (·.1)).length ≤ hd.kind.loopRanges.length := by
      have hle := hdrops.sublist.length_le
      rw [List.length_zip] at hle
      rw [List.length_map]
      exact hle.trans (Nat.min_le_left _ _)
    simp only [buildTarget, Build.yields_bind]
    refine (yields_buildLoop hw.cursor rfl hlen).mono ?_
    rintro ⟨⟨m, vars⟩, s₂⟩ - ⟨kind, hloop, hranges, hparallel, hvars, hwm⟩
    refine (yields_rename (hw.trans hwm) _).mono ?_
    rintro ⟨u, s₃⟩ - hwr
    rw [Spine.rename_rename, Code.rename_rename, Code.rename_rename, ← replaced_append,
      Code.rename_append, hdrops.rename_eq] at hwr
    dsimp only at hwr hvars
    have hrep := hwr.cursor.represents
    rw [← Code.append_assoc, Code.append_assoc _ _ (Code.rename _ _)] at hrep
    rw [Build.yields_pure, hroots (replaced (swaps ++ (((first, var) :: kept).map (·.2)).zip vars))]
    refine Yields.mono (yields_place_behind (s := ⟨s₃.function, .atEnd (some m)⟩)
      (m := .loop m kind vars) (y := .nil) hrep rfl) ?_
    rintro ⟨u, s₄⟩ - ⟨hrep, hsame⟩
    rw [Code.nil_append] at hrep
    rw [show b.rename _ ++ y ++ .node (.loop m kind vars) (x.rename _) (.node (hd.rename _) .nil _) =
      (b.rename _ ++ (y ++ .node (.loop m kind vars) (x.rename _) .nil)) ++
        .node (hd.rename _) .nil _ by simp only [Code.append_assoc]; rfl] at hrep
    refine (yields_erase hrep).mono ?_
    rintro out - ⟨hrep', hsame'⟩
    refine ⟨_, _, .loop m hdrops hloop hranges (by simpa using hvars) (fun v hv => ?_) hparallel,
      ⟨_, .of_writes (y ++ .node (.loop m kind vars) .nil .nil) hwr
        (by simp [Code.rename, Code.ops, Node.rename])
        (by simp [Code.rename, Node.defined, Node.rename, Node.loop]) ?_ (fun h hh => ?_) ?_⟩, ?_,
          hwr.grows.trans (hsame.trans hsame').grows⟩
    · refine fresh_of_writes hwr ?_
      rw [Code.defined_append]
      exact (List.mem_append.1 hv).elim (List.mem_append_left _)
        fun hv => List.mem_append_right _ (by simpa [Code.rename, Node.defined, Node.rename, Node.loop] using hv)
    · simp only [Code.heads_append, Code.heads, List.append_nil, List.forall_mem_append,
        List.forall_mem_singleton]
      exact ⟨hdrops.operands_eq, rfl⟩
    · rw [Code.heads_append, List.mem_append] at hh
      refine hh.imp (hdrops.kind_eq h) fun hh => ?_
      rw [List.mem_singleton.1 hh]
      refine ⟨hloop, fun r hr => ?_⟩
      rw [show (Node.loop m kind vars).kind.loopRanges = _ from hranges, List.mem_map] at hr
      obtain ⟨pair, hpair, rfl⟩ := hr
      exact hkept pair hpair
    · simp [Code.heads, Code.heads_rename]
    · rwa [Code.append_assoc] at hrep'

theorem yields_trim (hr : f.Represents (k.plug (b ++ .node hd x z))) :
    Yields True ((Rule.trivialLoops).performAt f hd.op) fun g => ∃ ρ y, Trimmed f hd x ρ y ∧
      (∃ new, Trimmings f x ρ y new) ∧
        g.Represents ((k.rename ρ).plug (b.rename ρ ++ (y ++ z.rename ρ))) ∧ f.Grows g := by
  have hcursor : Cursor ⟨f, .before hd.op⟩ k b (.node hd x z) := ⟨hr, rfl⟩
  rw [Rule.performAt, Yields.map_iff, Build.yields_runOn]
  simp only [Rule.perform, perform, Build.yields_bind, Build.yields_function, Build.yields_lift,
    hr.record_at, Yields.ok_iff, Node.record]
  refine (yields_anyM_never _ _).mono ?_
  rintro ⟨found, s₀⟩ - ⟨rfl, hfound, hnone⟩
  cases found with
  | true =>
    obtain ⟨r, hrange, hempty⟩ := hfound rfl
    refine (yields_erase (s := ⟨f, .before hd.op⟩) hr).mono ?_
    rintro out - ⟨hrep, hsame⟩
    refine ⟨id, .nil, .never hrange hempty,
      ⟨[], ⟨[], .inr rfl, rfl⟩, by simp, by simp, by simp, by simp⟩, ?_, hsame.grows⟩
    simpa using hrep
  | false =>
    rw [if_neg Bool.false_ne_true, Build.yields_bind]
    refine (yields_dropSingle (Writes.nil hcursor) _ fun _ => rfl).mono ?_
    rintro ⟨kept, s₁⟩ - ⟨hkept, swaps, y, hdrops, hw⟩
    refine yields_finish hw hdrops fun pair hpair => ?_
    have hrange : pair.1 ∈ hd.kind.loopRanges := (List.of_mem_zip (hdrops.sublist.mem hpair)).1
    have hpos := List.length_pos_iff.2 (hnone rfl _ hrange)
    have hone := hkept pair hpair
    omega

theorem yields_perform (hr : f.Represents (k.plug (b ++ .node hd x z))) :
    Yields True ((Rule.trivialLoops).performAt f hd.op) fun g => ∃ ρ y, Trimmed f hd x ρ y ∧
      g.Represents ((k.rename ρ).plug (b.rename ρ ++ (y ++ z.rename ρ))) ∧ f.Grows g := by
  refine (yields_trim hr).mono ?_
  rintro g - ⟨ρ, y, ht, -, hrep, hgrows⟩
  exact ⟨ρ, y, ht, hrep, hgrows⟩

end Trim

end TrivialLoops

end KernelLowering
