import KernelLowering.Proofs.Arena.Building
import KernelLowering.Proofs.Tiling.Execution
import KernelLowering.Rule.Basic

namespace KernelLowering.Tiling

section Starts

variable {nest : Nest} {start : List Int}

def startsAlong (nest : Nest) : List Nat → List Int → List (List Int)
  | [], start => [start]
  | d :: dims, start => (steps nest d).flatMap fun i => startsAlong nest dims (start.set d i)

theorem flatMap_place (dims rest : List Nat) (start : List Int) :
    ((tuples (dims.map (steps nest))).flatMap fun is =>
      startsAlong nest rest (place start dims is)) = startsAlong nest (dims ++ rest) start := by
  induction dims generalizing start with
  | nil => simp [tuples, place]
  | cons d dims ih =>
    rw [List.map_cons, tuples, List.flatMap_assoc, List.cons_append, startsAlong]
    refine List.flatMap_congr fun i _ => ?_
    rw [List.flatMap_map]
    exact ih (start.set d i)

theorem startsOf_eq (gs : List (List Nat)) (start : List Int) :
    startsOf nest gs start = startsAlong nest gs.flatten start := by
  induction gs generalizing start with
  | nil => rfl
  | cons dims gs ih =>
    rw [startsOf, List.flatten_cons, ← flatMap_place]
    exact List.flatMap_congr fun is _ => ih _

theorem getElem?_foldl_set {α : Type} (g : Nat → α) (dims : List Nat) (columns : List α) (i : Nat) :
    (dims.foldl (fun columns d => columns.set d (g d)) columns)[i]? =
      if i ∈ dims then (columns[i]?).map fun _ => g i else columns[i]? := by
  induction dims generalizing columns with
  | nil => simp
  | cons d dims ih =>
    rw [List.foldl_cons, ih, List.getElem?_set]
    by_cases hd : d = i
    · subst d
      by_cases hi : i < columns.length
      · simp [hi]
      · simp [hi]
    · simp [hd, Ne.symm hd]

theorem foldl_set_comm {α : Type} (g : Nat → α) {dims : List Nat} {d : Nat} (hd : d ∉ dims)
    (columns : List α) (a : α) :
    dims.foldl (fun columns d => columns.set d (g d)) (columns.set d a) =
      (dims.foldl (fun columns d => columns.set d (g d)) columns).set d a := by
  induction dims generalizing columns with
  | nil => rfl
  | cons d' dims ih =>
    rw [List.mem_cons, not_or] at hd
    rw [List.foldl_cons, List.foldl_cons, List.set_comm _ _ hd.1, ih hd.2]

theorem length_foldl_set {α : Type} (g : Nat → α) (dims : List Nat) (columns : List α) :
    (dims.foldl (fun columns d => columns.set d (g d)) columns).length = columns.length := by
  induction dims generalizing columns with
  | nil => rfl
  | cons d dims ih => rw [List.foldl_cons, ih, List.length_set]

theorem startsAlong_perm {dims : List Nat} (hnd : dims.Nodup) (hlt : ∀ d ∈ dims, d < start.length) :
    (startsAlong nest dims start).Perm (tuples (dims.foldl
      (fun columns d => columns.set d (steps nest d)) (start.map fun i => [i]))) := by
  induction dims generalizing start with
  | nil =>
    have hself : ∀ start : List Int, tuples (start.map fun i => [i]) = [start] := by
      intro start
      induction start with
      | nil => rfl
      | cons i start ih => simp [tuples, ih]
    rw [startsAlong, List.foldl_nil, hself]
  | cons d dims ih =>
    obtain ⟨hd, hnd⟩ := List.nodup_cons.1 hnd
    obtain ⟨hdl, hlt⟩ := List.forall_mem_cons.1 hlt
    rw [startsAlong, List.foldl_cons, foldl_set_comm _ hd]
    refine (List.Perm.flatMap_left _ fun i _ => ih hnd (by simpa using hlt)).trans ?_
    refine .trans ?_ (tuples_set_flatMap (by rwa [length_foldl_set, List.length_map]) _).symm
    refine .of_eq (List.flatMap_congr fun i _ => ?_)
    rw [List.map_set, foldl_set_comm _ hd]

variable {t : Tiling} {plan : TilePlan}

theorem flatten_groups (t : Tiling) (plan : TilePlan) : (t.groups plan).flatten.Perm plan.order := by
  have hsingle : ∀ dims : List Nat, (dims.map fun d => [d]).flatten = dims := fun dims => by
    rw [← List.flatMap_def, List.flatMap_singleton']
  unfold groups
  cases t.options.style with
  | sequential => rw [hsingle]
  | parallel =>
    simp only [List.partition_eq_filter_filter, List.flatten_append, hsingle]
    refine .trans (.of_eq ?_) (List.filter_append_perm t.isParallel plan.order)
    congr 1
    split
    · simp_all
    · simp

theorem startsOf_perm (hs : plan.Sound) (hfits : nest.Fits plan.extents plan.order.reverse) :
    (startsOf nest (t.groups plan) (zeros plan)).Perm
      (tuples (nest.ranges.map LoopRange.values)) := by
  have hperm := flatten_groups t plan
  have hlt : ∀ d ∈ (t.groups plan).flatten, d < (zeros plan).length := by
    intro d hd
    obtain ⟨extent, tile, he, -⟩ := hs.tiled (hperm.mem_iff.1 hd)
    rw [zeros, List.length_map]
    exact (List.getElem?_eq_some_iff.1 he).1
  rw [startsOf_eq]
  refine (startsAlong_perm (hperm.nodup_iff.2 hs.order) hlt).trans (.of_eq (congrArg tuples ?_))
  refine List.ext_getElem? fun d => ?_
  rw [getElem?_foldl_set, List.getElem?_map, List.getElem?_map, zeros, List.getElem?_map]
  cases he : plan.extents[d]? with
  | none =>
    have hd := List.getElem?_eq_none_iff.1 he
    simp [List.getElem?_eq_none (hfits.ranges ▸ hd)]
  | some extent =>
    obtain ⟨piece, hp, hr, -⟩ := hfits.getElem?_pieces he
    rw [hr]
    split
    · simp [steps, hr]
    · rename_i hd
      have hd' : d ∉ plan.order.reverse := by rwa [List.mem_reverse, ← hperm.mem_iff]
      have hwhole := values_wholeRange (hs.positive extent (List.mem_of_getElem? he))
      simp [hfits.whole hd' he hp, hwhole]

end Starts

section Nests

variable {t : Tiling} {plan : TilePlan} {operands : List ValueId} {nest : Nest} {ns : List Nest}
  {y : Code} {env : Env} {refs : List Ref}

structure Suits (t : Tiling) (plan : TilePlan) : Prop where
  sound : plan.Sound
  rank : plan.extents.length = t.kind.loopRank
  fit : t.kind.ExtentsFit plan.extents
  operands : plan.operandTypes.length = 3

theorem Suits.extentsOf_tile (hs : Suits t plan) {split : List Nat}
    (hfits : nest.Fits plan.extents split) :
    t.kind.extentsOf (t.kind.operandMaps.map fun map => map.map (span nest.sizes)) =
      .ok (some nest.sizes) := by
  obtain ⟨hpos, hle⟩ := (List.forall₂_and_left _ _).1 hfits.sizes_le
  exact KernelKind.extentsOf_eq_ok.2 ⟨.ofSizes hpos (hfits.sizes.trans hs.rank),
    hs.fit.mono hpos hle hs.rank⟩

theorem flatMap_updates {actions : List Action} {starts : List (List Int)}
    {g : List Int → List Update}
    (h : List.Forall₂ (fun action start => action.updates = g start) actions starts) :
    actions.flatMap Action.updates = starts.flatMap g := by
  induction h with
  | nil => rfl
  | cons hfirst _ ih => rw [List.flatMap_cons, List.flatMap_cons, hfirst, ih]

theorem NestOf.updates_perm (h : NestOf t plan operands nest y) (hs : Suits t plan)
    (hfits : nest.Fits plan.extents plan.order.reverse) (hnd : y.defined.Nodup)
    (hops : ∀ v ∈ operands, v ∉ y.defined) (hb : Bound env operands plan.operandTypes refs) :
    (y.updates env).Perm (nest.points.map (t.kind.updateAt refs)) := by
  have hstarts := startsOf_perm (t := t) hs.sound hfits
  have htrace := h.trace hnd hops hb hs.operands
  have hupdates : y.updates env = (startsOf nest (t.groups plan) (zeros plan)).flatMap fun start =>
      (box nest.sizes).map fun point => t.kind.updateAt refs (List.zipWith (· + ·) start point) := by
    refine flatMap_updates (List.forall₂_iff_get.2 ⟨htrace.length_eq, fun i hi hi' => ?_⟩)
    obtain ⟨tiles, haction, hplaces⟩ := (List.forall₂_iff_get.1 htrace).2 i hi hi'
    have hmem := hstarts.mem_iff.1 (List.get_mem _ ⟨i, hi'⟩)
    have hlen := (mem_tuples.1 hmem).length_eq
    rw [List.length_map, hfits.ranges, ← hfits.sizes] at hlen
    rw [haction, Action.updates]
    exact hplaces.updates (hb.shapes.length_eq.trans hs.operands) hlen (hs.extentsOf_tile hfits)
  rw [hupdates, Nest.points, List.map_flatMap]
  simp only [List.map_map]
  exact hstarts.flatMap_right _

theorem NestsOf.updates_perm (h : NestsOf t plan operands ns y) (hs : Suits t plan)
    (hfits : ∀ nest ∈ ns, nest.Fits plan.extents plan.order.reverse) (hnd : y.defined.Nodup)
    (hops : ∀ v ∈ operands, v ∉ y.defined) (hb : Bound env operands plan.operandTypes refs) :
    (y.updates env).Perm ((ns.flatMap Nest.points).map (t.kind.updateAt refs)) := by
  induction h generalizing env with
  | nil => exact .refl _
  | @cons nest ns y y' hfirst _ ih =>
    simp only [Code.defined_append, List.mem_append, not_or] at hnd hops
    obtain ⟨hnd, hnd', -⟩ := List.nodup_append'.1 hnd
    obtain ⟨hfit, hfits⟩ := List.forall_mem_cons.1 hfits
    rw [Code.updates_append, List.flatMap_cons, List.map_append]
    have hb' := hb.congr fun v hv => y.after_of_not_mem env (hops v hv).1
    exact (hfirst.updates_perm hs hfit hnd (fun v hv => (hops v hv).1) hb).append
      (ih hfits hnd' (fun v hv => (hops v hv).2) hb')

end Nests

section Rule

variable {f : Function} {t : Tiling} {op : OpId}

theorem suits_of_make {plan : TilePlan}
    (h : (TilePlan.make t.kind t.options plan.operandTypes).Answers plan) : Suits t plan := by
  obtain ⟨-, hextents, -⟩ := TilePlan.make_answers.1 h
  obtain ⟨hshaped, hfit⟩ := KernelKind.extentsOf_eq_ok.1 hextents
  exact ⟨TilePlan.sound_of_make h, hshaped.length_extents, hfit, by simpa using hshaped.length_shapes⟩

theorem check_answers {hd : Node} {parent : Option OpId} {region : List OpId}
    (hop : f.op? hd.op = some (hd.record parent region)) : (t.check f hd.op).Answers () ↔
      hd.kind = .kernel t.kind ∧ hd.marker = some t.guard.current ∧
        ∃ plan, (t.plan f hd.op).Answers plan := by
  simp only [check, StageGuard.checkKernel, StageGuard.check, Inspect.answers_bind,
    Inspect.answers_lift, Function.op_eq_ok.2 hop, Inspect.answers_discard, Except.ok.injEq,
    exists_eq_left', Node.record]
  by_cases hkind : hd.kind = .kernel t.kind
  · by_cases hmarker : hd.marker = some t.guard.current
    · simp [hkind, hmarker]
    · simp [hkind, hmarker]
  · simp [hkind]

theorem exists_spine_of_isLive (hf : f.WellFormed) (hlive : f.isLive op = .ok true) :
    ∃ k b hd x z, f.code = Spine.plug k (b ++ .node hd x z) ∧ hd.op = op := by
  obtain ⟨o, ho, hl⟩ := Fault.map_eq_ok.1 hlive
  obtain ⟨k, b, hd, x, z, rfl, hcode⟩ := Code.exists_spine
    (hf.live (Function.op_eq_ok.1 ho) hl)
  exact ⟨k, b, hd, x, z, hcode, rfl⟩

/-- What a kernel over these operands does, point by point of its iteration extents. -/
def pointwise (kind : KernelKind) (extents : List Int) (refs : List Ref) : List Update :=
  (box extents).map fun point =>
    List.zipWith (fun r map => r.cell (KernelKind.indexAt map point)) refs kind.operandMaps

theorem updates_kernel {hd : Node} {x : Code} {types : List BufferType} {extents : List Int}
    {env : Env} {refs : List Ref} (hkind : hd.kind = .kernel t.kind)
    (hextents : t.kind.iterationExtents types = .ok (some extents))
    (hb : Bound env hd.operands types refs) :
    (Code.node hd x .nil).updates env = pointwise t.kind extents refs := by
  have hshapes : refs.map (·.shape) = types.map (·.shape) := by
    rw [← List.forall₂_eq_eq_eq, List.forall₂_map_left_iff, List.forall₂_map_right_iff]
    exact hb.shapes
  rw [KernelKind.iterationExtents, ← hshapes] at hextents
  rw [Code.updates, trace_kernel hkind (Env.mapM_ref?_eq_some.2 hb.bound)]
  simp [Action.updates, KernelKind.updates, KernelKind.points, hextents]
  rfl

theorem index_lt_of_types {vs : List ValueId} {types : List BufferType}
    (h : List.Forall₂ (fun v type => f.bufferType? v = .ok (some type)) vs types) :
    ∀ v ∈ vs, v.index < f.values.size := by
  induction h with
  | nil => simp
  | cons hv _ ih =>
    obtain ⟨a, ha, -⟩ := Fault.map_eq_ok.1 hv
    exact List.forall_mem_cons.2
      ⟨(Array.getElem?_eq_some_iff.1 (Function.value_eq_ok.1 ha)).1, ih⟩

theorem performAt_updates (hf : f.WellFormed) (hlive : f.isLive op = .ok true)
    (hcheck : (t.check f op).Answers ()) :
    ∃ k b hd x z types extents, f.code = Spine.plug k (b ++ .node hd x z) ∧ hd.op = op ∧
      f.bufferTypes? hd.operands = .ok (some types) ∧
      t.kind.iterationExtents types = .ok (some extents) ∧
      Yields (∃ type ∈ types, ¬ type.Addressable) ((Rule.tiling t).performAt f op) fun g =>
        ∃ nests, g.code = k.plug (b ++ (nests ++ z)) ∧
          ∀ env refs, Bound env hd.operands types refs →
            (Code.node hd x .nil).updates env = pointwise t.kind extents refs ∧
              (nests.updates env).Perm (pointwise t.kind extents refs) := by
  obtain ⟨k, b, hd, x, z, hcode, rfl⟩ := exists_spine_of_isLive hf hlive
  have hrep : f.Represents (k.plug (b ++ .node hd x z)) := hcode ▸ hf
  have hop : f.op? hd.op = some (hd.record k.parent x.roots) :=
    (Function.places_append.1 hrep.holds.2).2.1
  obtain ⟨hkind, -, plan, hplan⟩ := (check_answers hop).1 hcheck
  obtain ⟨htypes, hmake⟩ := (plan_answers ⟨_, _, hop⟩).1 hplan
  have hextents := (TilePlan.make_answers.1 hmake).2.1
  refine ⟨k, b, hd, x, z, plan.operandTypes, plan.extents, hcode, rfl,
    bufferTypes?_eq_some.2 htypes, hextents, ?_⟩
  rw [Rule.performAt, Yields.map_iff]
  refine (yields_perform hrep hplan).mono ?_
  rintro ⟨_, g⟩ - ⟨ns, y, hns, hnests, hsplice⟩
  refine ⟨y, hsplice.represents.code_eq, fun env refs hb => ⟨updates_kernel hkind hextents hb, ?_⟩⟩
  obtain ⟨ns', hns', hcovers⟩ := (TilePlan.sound_of_make hmake).exists_nests
  rw [hns, Except.ok.injEq] at hns'
  subst hns'
  have hfresh : ∀ v ∈ hd.operands, v ∉ y.defined := by
    intro v hv hmem
    rw [hsplice.defined, mem_freshValues] at hmem
    exact Nat.not_lt_of_le hmem.1 (index_lt_of_types htypes v hv)
  exact (hnests.updates_perm (suits_of_make hmake) hcovers.fits
    (hsplice.defined ▸ nodup_freshValues _ _) hfresh hb).trans (hcovers.points_perm.map _)

end Rule

section Example

def markedProduct : Function where
  name := "product"
  ops := #[⟨.kernel .matmul, [⟨0⟩, ⟨1⟩, ⟨2⟩], none, some .selected, [], [], none, true⟩,
    ⟨.ret, [], none, none, [], [], none, true⟩]
  values := #[⟨.buffer (.rowMajor [3, 2] .float32 .global), .argument 0⟩,
    ⟨.buffer (.rowMajor [2, 2] .float32 .global), .argument 1⟩,
    ⟨.buffer (.rowMajor [3, 2] .float32 .global), .argument 2⟩]
  arity := 3
  body := [⟨0⟩, ⟨1⟩]

def rowTiling : Tiling := ⟨.matmul, ⟨[2], [], .sequential⟩, ⟨.selected, .tiledMid, Nat.zero_lt_one⟩⟩

def markedTypes : List BufferType :=
  [.rowMajor [3, 2] .float32 .global, .rowMajor [2, 2] .float32 .global,
    .rowMajor [3, 2] .float32 .global]

theorem markedProduct_wellFormed : markedProduct.WellFormed := by
  have hself : Outline.callee markedProduct
      ⟨.kernel .matmul, [⟨0⟩, ⟨1⟩, ⟨2⟩], none, some .selected, [], [], none, true⟩ "product" none =
        .ok (⟨0⟩, markedProduct) := rfl
  exact callee_wellFormed hself

theorem markedProduct_operands {k : Spine} {b x z : Code} {hd : Node}
    (hcode : markedProduct.code = k.plug (b ++ .node hd x z)) (hop : hd.op = ⟨0⟩) :
    hd.operands = [⟨0⟩, ⟨1⟩, ⟨2⟩] := by
  have hheads : markedProduct.code.heads = [⟨⟨0⟩, .kernel .matmul, [⟨0⟩, ⟨1⟩, ⟨2⟩], none,
      some .selected, []⟩, ⟨⟨1⟩, .ret, [], none, none, []⟩] := rfl
  have hmem : hd ∈ markedProduct.code.heads := hcode ▸ k.mem_heads_at b x z hd
  rw [hheads] at hmem
  simp only [List.mem_cons, List.not_mem_nil, or_false] at hmem
  rcases hmem with rfl | rfl
  · rfl
  · cases hop

theorem performAt_updates_markedProduct : ∃ g nests k b z,
    (Rule.tiling rowTiling).performAt markedProduct ⟨0⟩ = .ok g ∧
      g.code = Spine.plug k (b ++ (nests ++ z)) ∧
      (nests.updates (Env.entry markedProduct)).Perm (pointwise .matmul [3, 2, 2]
        [.whole ⟨0⟩ [3, 2], .whole ⟨1⟩ [2, 2], .whole ⟨2⟩ [3, 2]]) := by
  have hlive : markedProduct.isLive ⟨0⟩ = .ok true := rfl
  have hcheck : (rowTiling.check markedProduct ⟨0⟩).Answers () := rfl
  have htypes' : markedProduct.bufferTypes? [⟨0⟩, ⟨1⟩, ⟨2⟩] = .ok (some markedTypes) := rfl
  have hbound : Bound (Env.entry markedProduct) [⟨0⟩, ⟨1⟩, ⟨2⟩] markedTypes
      [.whole ⟨0⟩ [3, 2], .whole ⟨1⟩ [2, 2], .whole ⟨2⟩ [3, 2]] :=
    ⟨.cons rfl (.cons rfl (.cons rfl .nil)), .cons rfl (.cons rfl (.cons rfl .nil))⟩
  have hok : ((Rule.tiling rowTiling).performAt markedProduct ⟨0⟩).isOk = true := by decide +kernel
  have hwf := markedProduct_wellFormed
  have hoperands := @markedProduct_operands
  -- The run is not to be unfolded again: from here on the function is any that these hold of.
  generalize markedProduct = f at *
  obtain ⟨k, b, hd, x, z, types, extents, hcode, hop, htypes, hextents, hyields⟩ :=
    performAt_updates hwf hlive hcheck
  rw [hoperands hcode hop] at htypes hyields
  obtain rfl : markedTypes = types := by simpa using htypes'.symm.trans htypes
  cases hextents
  cases hrun : (Rule.tiling rowTiling).performAt f ⟨0⟩ with
  | error fault => rw [hrun] at hok; cases hok
  | ok g =>
    obtain ⟨nests, hg, hupdates⟩ := hyields.of_ok hrun
    exact ⟨g, nests, k, b, z, rfl, hg, (hupdates _ _ hbound).2⟩

end Example

end KernelLowering.Tiling
