import KernelLowering.Proofs.Tiling.Typing

namespace KernelLowering

def choices {α : Type} : List (List α) → List (List α)
  | [] => [[]]
  | xs :: xss => xs.flatMap fun x => (choices xss).map (x :: ·)

structure Window.Within (w : Window) (starts : List Int) (shape : Shape) : Prop where
  length : starts.length = w.sizes.length
  strides : ∀ stride ∈ w.strides, stride = 1
  bounds : List.Forall₂ (fun p extent => 0 ≤ p.1 ∧ p.1 + p.2 ≤ extent) (starts.zip w.sizes) shape

def Node.InBounds (f : Function) (operands : List ValueId) (h : Node) (env : Env) : Prop :=
  ∀ w, h.kind = .subView w → ∃ source ∈ operands, ∃ supplied type starts,
    h.operands = source :: supplied ∧ f.bufferType? source = .ok (some type) ∧
      w.starts env supplied = some starts ∧ w.Within starts type.shape

namespace TilePlan

variable {plan : TilePlan}

/-- The whole iteration space, with these pieces of it along the tiled dimensions. -/
def nestOf (plan : TilePlan) (choice : List (LoopRange × Int)) : Nest :=
  (plan.order.zip choice).foldl (fun nest (d, piece) => nest.restrict d piece)
    ⟨plan.extents.map wholeRange, plan.extents⟩

/-- The full tiles along a tiled dimension, and the partial tile behind them if there is one. -/
def PiecesAlong (plan : TilePlan) (d : Nat) (ps : List (LoopRange × Int)) : Prop :=
  ∃ extent tile, plan.extents[d]? = some extent ∧ plan.tiles[d]? = some tile ∧ Pieces extent tile ps

theorem foldlM_splitAlong (hs : plan.Sound) {dims : List Nat} (hdims : dims ⊆ plan.order) :
    ∃ pss, List.Forall₂ plan.PiecesAlong dims pss ∧ ∀ ns : List Nest,
      dims.foldlM plan.splitAlong ns = .ok (ns.flatMap fun nest => (choices pss).map fun choice =>
        (dims.zip choice).foldl (fun nest (d, piece) => nest.restrict d piece) nest) := by
  induction dims with
  | nil => exact ⟨[], .nil, fun ns => by simp [choices, pure, Except.pure]⟩
  | cons d dims ih =>
    obtain ⟨hd, hdims⟩ := List.cons_subset.1 hdims
    obtain ⟨pss, hpss, hrun⟩ := ih hdims
    obtain ⟨extent, tile, he, ht, hpos, -⟩ := hs.tiled hd
    obtain ⟨ps, hps, hpieces⟩ : ∃ ps, pieces extent tile = .ok ps ∧ Pieces extent tile ps :=
      exists_pieces hpos
    refine ⟨ps :: pss, .cons ⟨extent, tile, he, ht, hpieces⟩ hpss, fun ns => ?_⟩
    rw [List.foldlM_cons, splitAlong_eq he ht hps, Fault.ok_bind, hrun]
    simp [choices, List.flatMap_assoc, List.map_flatMap, List.flatMap_map, Function.comp_def]

theorem order_of_make {kind : KernelKind} {options : TilingOptions} {types : List BufferType}
    (h : (make kind options types).Answers plan) :
    ∃ order, options.loopOrder? plan.extents.length = some order ∧
      plan.order = order.filter fun d => 0 < options.tileSizes[d]?.getD 0 := by
  obtain ⟨-, hextents, -, htiles, order, horder, hfilter⟩ := make_answers.1 h
  refine ⟨order, horder, hfilter.trans (List.filter_congr fun d hd => ?_)⟩
  have hlt := List.mem_range.1 ((TilingOptions.perm_of_loopOrder? horder).mem_iff.1 hd)
  have he := List.getElem?_eq_getElem hlt
  have hpos := KernelKind.pos_of_extentsOf hextents _ (List.mem_of_getElem? he)
  rw [htiles, TilingOptions.getElem?_clampedTiles he, Option.getD_some, decide_eq_decide]
  omega

theorem Sound.nests_eq (hs : plan.Sound) : ∃ pss, List.Forall₂ plan.PiecesAlong plan.order pss ∧
    plan.nests = .ok ((choices pss).map plan.nestOf) := by
  obtain ⟨pss, hpss, hrun⟩ := foldlM_splitAlong hs (List.Subset.refl _)
  refine ⟨pss, hpss, ?_⟩
  rw [nests, hrun, List.flatMap_singleton]
  rfl

end TilePlan

namespace KernelKind

variable {kind : KernelKind} {shapes : List Shape} {extents start sizes : List Int}

theorem Shaped.windows_le (h : Shaped kind shapes extents) (hlen : start.length = sizes.length)
    (hin : List.Forall₂ (fun p extent => 0 ≤ p.1 ∧ 0 < p.2 ∧ p.1 + p.2 ≤ extent)
      (start.zip sizes) extents) :
    List.Forall₂ (fun map shape => List.Forall₂ (fun p extent => 0 ≤ p.1 ∧ p.1 + p.2 ≤ extent)
      ((indexAt map start).zip (map.map (span sizes))) shape) kind.operandMaps shapes := by
  have hrank : sizes.length = kind.loopRank := by
    have hzip := hin.length_eq
    rw [List.length_zip, hlen, Nat.min_self, h.length_extents] at hzip
    exact hzip
  rw [← hlen] at hrank
  cases h with
  | matmul =>
    obtain ⟨i, j, l, rfl⟩ := List.length_eq_three.1 hrank
    obtain ⟨a, b, c, rfl⟩ := List.length_eq_three.1 hlen.symm
    simp only [List.zip_cons_cons, List.zip_nil_right, List.forall₂_cons, List.forall₂_nil_right_iff] at hin
    simp only [operandMaps, indexAt]
    simp [span]
    omega
  | conv2d pos height width =>
    obtain ⟨i₁, i₂, i₃, i₄, i₅, i₆, i₇, rfl⟩ := exists_of_length_eq_seven hrank
    obtain ⟨a₁, a₂, a₃, a₄, a₅, a₆, a₇, rfl⟩ := exists_of_length_eq_seven hlen.symm
    simp only [List.zip_cons_cons, List.zip_nil_right, List.forall₂_cons, List.forall₂_nil_right_iff] at hin
    simp only [operandMaps, indexAt]
    simp [span]
    omega

end KernelKind

namespace Tiling

section Windows

variable {nest : Nest} {vars : LoopVars} {start : List Int} {env : Env} {f : Function} {y : Code}
  {operands : List ValueId}

def Shows (y : Code) (v operand : ValueId) : Prop :=
  v = operand ∨ ∃ h ∈ y.heads, h.kind.window?.isSome = true ∧ h.operands.head? = some operand ∧
    h.result.map (·.1) = some v

theorem Shows.append_left {v operand : ValueId} (h : Shows y v operand) (y' : Code) :
    Shows (y ++ y') v operand :=
  h.imp_right fun ⟨h, hh, hw⟩ => ⟨h, by rw [Code.heads_append]; exact List.mem_append_left _ hh, hw⟩

theorem Shows.append_right {v operand : ValueId} (h : Shows y v operand) (y' : Code) :
    Shows (y' ++ y) v operand :=
  h.imp_right fun ⟨h, hh, hw⟩ => ⟨h, by rw [Code.heads_append]; exact List.mem_append_right _ hh, hw⟩

theorem OperandOf.inBounds {operand v : ValueId} {type : BufferType} {map : OperandMap}
    (h : OperandOf nest vars operand type map y v) (hnd : y.defined.Nodup)
    (hvars : ∀ u, some u ∈ vars → u ∉ y.defined) (hs : List.Forall₂ (StartsAt env) vars start)
    (hmem : operand ∈ operands) (htype : f.bufferType? operand = .ok (some type))
    (hin : List.Forall₂ (fun p extent => 0 ≤ p.1 ∧ p.1 + p.2 ≤ extent)
      ((KernelKind.indexAt map start).zip (map.map (span nest.sizes))) type.shape) :
    y.Throughout (Node.InBounds f operands) env := by
  cases h with
  | whole => trivial
  | @window offsets supplied y v result op hoffsets hcut hresult =>
    simp only [Code.defined_append, List.mem_append, not_or] at hnd hvars
    have hnd' := (List.nodup_append'.1 hnd).1
    obtain ⟨-, hstarts⟩ := hoffsets.starts hnd' (fun u hu => (hvars u hu).1) hs
    refine Code.throughout_append.2 ⟨Code.throughout_of_heads (fun hd hh env => ?_) env,
      fun w hw => ?_, fun i hi => ?_, trivial⟩
    · obtain ⟨op, terms, v, rfl⟩ := hoffsets.eq_value hd hh
      exact fun w hw => nomatch hw
    · cases hw
      refine ⟨operand, hmem, supplied, type, _, rfl, htype, hstarts, ?_, by simp [windowOf], hin⟩
      simp [windowOf, KernelKind.length_indexAt]
    · simp [Node.value, OpKind.iterations, OpKind.isLoop] at hi

theorem OperandsOf.inBounds {all : List (ValueId × BufferType × OperandMap)} {vs : List ValueId}
    (h : OperandsOf nest vars all y vs) (hnd : y.defined.Nodup)
    (hvars : ∀ u, some u ∈ vars → u ∉ y.defined) (hs : List.Forall₂ (StartsAt env) vars start)
    (hall : ∀ x ∈ all, x.1 ∈ operands ∧ f.bufferType? x.1 = .ok (some x.2.1) ∧
      List.Forall₂ (fun p extent => 0 ≤ p.1 ∧ p.1 + p.2 ≤ extent)
        ((KernelKind.indexAt x.2.2 start).zip (x.2.2.map (span nest.sizes))) x.2.1.shape) :
    y.Throughout (Node.InBounds f operands) env := by
  induction h generalizing env with
  | nil => trivial
  | @cons operand v type map rest y y' vs hfirst _ ih =>
    simp only [Code.defined_append, List.mem_append, not_or] at hnd hvars
    obtain ⟨hnd, hnd', -⟩ := List.nodup_append'.1 hnd
    obtain ⟨⟨hmem, htype, hin⟩, hall⟩ := List.forall_mem_cons.1 hall
    have hs' := startsAt_congr (fun u hu => y.after_of_not_mem env (hvars u hu).1) hs
    exact Code.throughout_append.2 ⟨hfirst.inBounds hnd (fun u hu => (hvars u hu).1) hs hmem htype hin,
      ih hnd' (fun u hu => (hvars u hu).2) hs' hall⟩

theorem OperandsOf.types {g : Function} {all : List (ValueId × BufferType × OperandMap)}
    {vs : List ValueId} (h : OperandsOf nest vars all y vs)
    (hall : ∀ x ∈ all, g.bufferType? x.1 = .ok (some x.2.1))
    (hnew : ∀ hd ∈ y.heads, ∀ v type, hd.result = some (v, .buffer type) →
      g.bufferType? v = .ok (some type)) :
    ∃ types, List.Forall₂ (fun v type => g.bufferType? v = .ok (some type)) vs types ∧
      types.map (·.shape) = (all.map (·.2.2)).map fun map => map.map (span nest.sizes) := by
  induction h with
  | nil => exact ⟨[], .nil, rfl⟩
  | @cons operand v type map rest y y' vs hfirst _ ih =>
    simp only [Code.heads_append, List.forall_mem_append] at hnew
    obtain ⟨htype, hall⟩ := List.forall_mem_cons.1 hall
    obtain ⟨types, htypes, hshapes⟩ := ih hall hnew.2
    cases hfirst with
    | whole hvars hsizes => exact ⟨type :: types, .cons htype htypes, by simp [hshapes, hsizes]⟩
    | @window offsets supplied y v result op hoffsets hcut hresult =>
      simp only [Code.heads_append, List.forall_mem_append] at hnew
      have hv := hnew.1.2 _ (List.mem_singleton_self _) v result rfl
      exact ⟨result :: types, .cons hv htypes, by simp [hshapes, (Window.of_resultType hresult).1, windowOf]⟩

theorem OperandsOf.shows {all : List (ValueId × BufferType × OperandMap)} {vs : List ValueId}
    (h : OperandsOf nest vars all y vs) : List.Forall₂ (Shows y) vs (all.map (·.1)) := by
  induction h with
  | nil => exact .nil
  | @cons operand v type map rest y y' vs hfirst _ ih =>
    refine .cons (Shows.append_left ?_ y') (ih.imp fun _ _ h => h.append_right y)
    cases hfirst with
    | whole => exact .inl rfl
    | @window offsets supplied y v result op =>
      refine .inr ⟨.value op (.subView (windowOf nest map offsets)) (operand :: supplied) v
        (.buffer result), ?_, rfl, rfl, rfl⟩
      rw [Code.heads_append]
      exact List.mem_append_right _ (List.mem_singleton_self _)

end Windows

section Nests

variable {t : Tiling} {plan : TilePlan} {f g : Function} {operands : List ValueId} {nest : Nest}
  {ns : List Nest} {start : List Int} {y : Code}

theorem mem_extents_of_fits {extents : List Int} {split : List Nat} (h : nest.Fits extents split)
    (hs : start ∈ tuples (nest.ranges.map LoopRange.values)) :
    start.length = nest.sizes.length ∧
      List.Forall₂ (fun p extent => 0 ≤ p.1 ∧ 0 < p.2 ∧ p.1 + p.2 ≤ extent)
        (start.zip nest.sizes) extents := by
  rw [mem_tuples, List.forall₂_map_right_iff] at hs
  have hlen : start.length = nest.sizes.length := by rw [hs.length_eq, h.ranges, h.sizes]
  refine ⟨hlen, List.forall₂_iff_get.2 ⟨?_, fun d hd hd' => ?_⟩⟩
  · rw [List.length_zip, hlen, Nat.min_self, h.sizes]
  · have he := List.getElem?_eq_getElem hd'
    obtain ⟨piece, hp, hrange, hsize⟩ := h.getElem?_pieces he
    rw [List.length_zip, hlen, Nat.min_self] at hd
    obtain ⟨hranged, hr⟩ := List.getElem?_eq_some_iff.1 hrange
    obtain ⟨_, hz⟩ := List.getElem?_eq_some_iff.1 hsize
    have hstretch := h.stretch he hp
    have hmem := (List.forall₂_iff_get.1 hs).2 d (hlen ▸ hd) hranged
    simp only [List.get_eq_getElem, hr, List.getElem_zip, hz] at hmem ⊢
    obtain ⟨hlow, hhigh⟩ := hstretch.start_mem hmem
    exact ⟨hlow, hstretch.size_pos, hhigh⟩

theorem LoopsOf.inBounds {p : Prop} {loops : List Node} {vars : LoopVars} {tiled : List ValueId}
    (hloops : LoopsOf nest (t.groups plan) (plan.extents.map fun _ => none) loops vars)
    (htiled : OperandsOf nest vars (operands.zip (plan.operandTypes.zip t.kind.operandMaps)) y tiled)
    (hs : Suits t plan) (hfits : nest.Fits plan.extents plan.order.reverse)
    (hoperands : Operands p f t plan operands)
    (hshaped : t.kind.Shaped (plan.operandTypes.map (·.shape)) plan.extents)
    (hnd : (loops.flatMap Node.defined ++ y.defined).Nodup) {env : Env} :
    (Code.within loops y).Throughout (Node.InBounds f operands) env := by
  obtain ⟨hndl, hnd, hdis⟩ := List.nodup_append'.1 hnd
  refine Code.throughout_within (fun h hh env w hw => ?_) fun inner hinner => ?_
  · have hloop := hloops.isLoop h hh
    rw [hw] at hloop
    cases hloop
  · obtain ⟨i, hi, rfl⟩ := List.mem_iff_getElem.1 hinner
    have henvs := hloops.envs hndl (by simp) (startsAt_none env plan)
    have hi' := henvs.length_eq ▸ hi
    obtain ⟨hstarts, -⟩ := (List.forall₂_iff_get.1 henvs).2 i hi hi'
    obtain ⟨hlen, hin⟩ := mem_extents_of_fits hfits
      ((startsOf_perm hs.sound hfits).mem_iff.1 (List.getElem_mem hi'))
    have hwindows := hshaped.windows_le hlen hin
    rw [List.forall₂_map_right_iff] at hwindows
    refine htiled.inBounds hnd (fun u hu hmem => ?_) hstarts fun x hx => ?_
    · rcases hloops.mem_vars hu with hu | hu
      · simp at hu
      · exact hdis hu hmem
    · obtain ⟨hx₁, hx₂⟩ := List.of_mem_zip hx
      exact ⟨hx₁, (hoperands.of_mem_zip hx).1, (List.forall₂_iff_zip.1 hwindows.flip).2 hx₂⟩

structure Tiles (t : Tiling) (plan : TilePlan) (f g : Function) (operands : List ValueId) (nest : Nest)
    (loops : List Node) (y : Code) (tiled : List ValueId) : Prop where
  nesting : loops.map (·.kind) = t.loopKinds plan nest
  kinds : ∀ h ∈ y.heads, h.kind = .addIndex ∨ h.kind.window?.isSome = true
  shows : List.Forall₂ (Shows y) tiled operands
  extents : ∃ types, g.bufferTypes? tiled = .ok (some types) ∧
    t.kind.iterationExtents types = .ok (some nest.sizes)
  inBounds : ∀ env, (Code.within loops y).Throughout (Node.InBounds f operands) env

/-- The nests stand one behind the other, each with its kernel inside. -/
inductive TiledNests (t : Tiling) (plan : TilePlan) (f g : Function) (operands : List ValueId) :
    List Nest → Code → Prop
  | nil : TiledNests t plan f g operands [] .nil
  | cons {nest : Nest} {ns : List Nest} {loops : List Node} {y y' : Code} {tiled : List ValueId}
      (op : OpId) (hfirst : Tiles t plan f g operands nest loops y tiled)
      (hrest : TiledNests t plan f g operands ns y') :
      TiledNests t plan f g operands (nest :: ns)
        (.within loops (y ++ .node (.effect op (.kernel t.kind) tiled (some t.guard.next)) .nil .nil) ++ y')

theorem NestsOf.tiledNests (h : NestsOf t plan operands ns y)
    (hmake : (TilePlan.make t.kind t.options plan.operandTypes).Answers plan)
    (htypes : List.Forall₂ (fun v type => f.bufferType? v = .ok (some type)) operands plan.operandTypes)
    (hfits : ∀ nest ∈ ns, nest.Fits plan.extents plan.order.reverse) (hgrows : f.Grows g)
    (hnew : ∀ hd ∈ y.heads, ∀ v type, hd.result = some (v, .buffer type) →
      g.bufferType? v = .ok (some type))
    (hnd : y.defined.Nodup) (hops : ∀ v ∈ operands, v ∉ y.defined) :
    TiledNests t plan f g operands ns y := by
  have hs := suits_of_make hmake
  have hextents := (TilePlan.make_answers.1 hmake).2.1
  have hshaped := (KernelKind.extentsOf_eq_ok.1 hextents).1
  have hoperands := operands_of_plan htypes hmake
  have hlen : plan.operandTypes.length = t.kind.operandMaps.length :=
    hs.operands.trans t.kind.length_operandMaps.symm
  have hlen' : operands.length = (plan.operandTypes.zip t.kind.operandMaps).length := by
    rw [List.length_zip, hlen, Nat.min_self, ← hlen, htypes.length_eq]
  induction h with
  | nil => exact .nil
  | @cons nest ns y y' hfirst _ ih =>
    rw [Code.heads_append, List.forall_mem_append] at hnew
    simp only [Code.defined_append, List.mem_append, not_or] at hnd hops
    obtain ⟨hfit, hfits⟩ := List.forall_mem_cons.1 hfits
    obtain ⟨hnd, hnd', -⟩ := List.nodup_append'.1 hnd
    have hrest := ih hfits hnew.2 hnd' fun v hv => (hops v hv).2
    cases hfirst with
    | @intro loops vars y tiled op hloops htiled hkinds =>
      simp only [Code.heads_within, Code.heads_append, List.forall_mem_append] at hnew
      rw [defined_within, Code.defined_append, ← List.append_assoc] at hnd
      replace hnd := (List.nodup_append'.1 hnd).1
      refine .cons op ⟨hkinds, htiled.kinds, ?_, ?_, fun env => ?_⟩ hrest
      · have hshows := htiled.shows
        rwa [List.map_fst_zip hlen'.le] at hshows
      · obtain ⟨types, htypes, hshapes⟩ := htiled.types
          (fun x hx => hgrows.bufferType? (hoperands.of_mem_zip hx).1) hnew.1.2.1
        refine ⟨types, bufferTypes?_eq_some.2 htypes, ?_⟩
        have hmaps : (operands.zip (plan.operandTypes.zip t.kind.operandMaps)).map (·.2.2) =
            t.kind.operandMaps := by
          rw [← Function.comp_def Prod.snd Prod.snd, ← List.map_map, List.map_snd_zip hlen'.ge,
            List.map_snd_zip hlen.ge]
        rw [KernelKind.iterationExtents, hshapes, hmaps, hs.extentsOf_tile hfit]
      · exact hloops.inBounds htiled hs hfit hoperands hshaped hnd

end Nests

section Rule

variable {t : Tiling} {f : Function} {op : OpId}

/-- The plan is the one that the options make for a kernel over these operands. -/
structure Plans (t : Tiling) (f : Function) (operands : List ValueId) (plan : TilePlan) : Prop where
  types : f.bufferTypes? operands = .ok (some plan.operandTypes)
  extents : t.kind.iterationExtents plan.operandTypes = .ok (some plan.extents)
  tiles : plan.tiles = t.options.clampedTiles plan.extents
  order : ∃ order, t.options.loopOrder? plan.extents.length = some order ∧
    plan.order = order.filter fun d => 0 < t.options.tileSizes[d]?.getD 0

theorem yields_tiledNests {k : Spine} {b x z : Code} {hd : Node} {plan : TilePlan}
    (hrep : f.Represents (k.plug (b ++ .node hd x z))) (hplan : (t.plan f hd.op).Answers plan) :
    t.Plans f hd.operands plan ∧ ∃ pss, List.Forall₂ plan.PiecesAlong plan.order pss ∧
      Yields (∃ type ∈ plan.operandTypes, ¬ type.Addressable) ((Rule.tiling t).performAt f hd.op)
        fun g => ∃ nests, Splice f g k b nests z ∧
          NestsOf t plan hd.operands ((choices pss).map plan.nestOf) nests ∧
            TiledNests t plan f g hd.operands ((choices pss).map plan.nestOf) nests := by
  have hop : f.op? hd.op = some (hd.record k.parent x.roots) :=
    (Function.places_append.1 hrep.holds.2).2.1
  obtain ⟨htypes, hmake⟩ := (plan_answers ⟨_, _, hop⟩).1 hplan
  have hsound := TilePlan.sound_of_make hmake
  obtain ⟨-, hextents, -, htiles, -⟩ := TilePlan.make_answers.1 hmake
  obtain ⟨pss, hpss, hnests⟩ := hsound.nests_eq
  refine ⟨⟨bufferTypes?_eq_some.2 htypes, hextents, htiles, TilePlan.order_of_make hmake⟩, pss, hpss, ?_⟩
  rw [Rule.performAt, Yields.map_iff]
  refine (yields_perform hrep hplan).mono ?_
  rintro ⟨_, g⟩ - ⟨ns, y, hns, hy, hsplice⟩
  obtain ⟨ns', hns', hcovers⟩ := hsound.exists_nests
  rw [hns, Except.ok.injEq] at hns' hnests
  subst hns' hnests
  refine ⟨y, hsplice, hy, hy.tiledNests hmake htypes hcovers.fits hsplice.grows
    (fun h hh v type hv => ?_) (hsplice.defined ▸ nodup_freshValues _ _) fun v hv hmem => ?_⟩
  · refine hsplice.represents.bufferType?_eq (Spine.mem_heads_plug.2 (.inl ?_)) hv
    rw [Code.heads_append, Code.heads_append]
    exact List.mem_append_right _ (List.mem_append_left _ hh)
  · exact Nat.not_lt_of_le (hsplice.size_le hmem) (index_lt_of_types htypes v hv)

theorem performAt_tiledNests (hf : f.WellFormed) (hlive : f.isLive op = .ok true)
    (hcheck : (t.check f op).Answers ()) :
    ∃ k b hd x z plan pss, f.code = Spine.plug k (b ++ .node hd x z) ∧ hd.op = op ∧
      t.Plans f hd.operands plan ∧ List.Forall₂ plan.PiecesAlong plan.order pss ∧
      Yields (∃ type ∈ plan.operandTypes, ¬ type.Addressable) ((Rule.tiling t).performAt f op) fun g =>
        ∃ nests, g.code = k.plug (b ++ (nests ++ z)) ∧
          TiledNests t plan f g hd.operands ((choices pss).map plan.nestOf) nests := by
  obtain ⟨k, b, hd, x, z, hcode, rfl⟩ := exists_spine_of_isLive hf hlive
  have hrep : f.Represents (k.plug (b ++ .node hd x z)) := hcode ▸ hf
  have hop : f.op? hd.op = some (hd.record k.parent x.roots) :=
    (Function.places_append.1 hrep.holds.2).2.1
  obtain ⟨-, -, plan, hplan⟩ := (check_answers hop).1 hcheck
  obtain ⟨hplans, pss, hpss, hyields⟩ := yields_tiledNests hrep hplan
  refine ⟨k, b, hd, x, z, plan, pss, hcode, rfl, hplans, hpss, hyields.mono ?_⟩
  rintro g - ⟨nests, hsplice, -, hnests⟩
  exact ⟨nests, hsplice.represents.code_eq, hnests⟩

end Rule

section Example

theorem performAt_tiledNests_markedProduct : ∃ g nests k b z plan pss,
    (Rule.tiling rowTiling).performAt markedProduct ⟨0⟩ = .ok g ∧
      g.code = Spine.plug k (b ++ (nests ++ z)) ∧ plan.order = [0] ∧
      List.Forall₂ plan.PiecesAlong [0] pss ∧
      TiledNests rowTiling plan markedProduct g [⟨0⟩, ⟨1⟩, ⟨2⟩] ((choices pss).map plan.nestOf) nests := by
  have hlive : markedProduct.isLive ⟨0⟩ = .ok true := rfl
  have hcheck : (rowTiling.check markedProduct ⟨0⟩).Answers () := rfl
  have htypes' : markedProduct.bufferTypes? [⟨0⟩, ⟨1⟩, ⟨2⟩] = .ok (some markedTypes) := rfl
  have hok : ((Rule.tiling rowTiling).performAt markedProduct ⟨0⟩).isOk = true := by decide +kernel
  have hwf := markedProduct_wellFormed
  have hoperands := @markedProduct_operands
  -- The run is not to be unfolded again: from here on the function is any that these hold of.
  generalize markedProduct = f at *
  obtain ⟨k, b, hd, x, z, plan, pss, hcode, hop, hplans, hpss, hyields⟩ :=
    performAt_tiledNests hwf hlive hcheck
  rw [hoperands hcode hop] at hplans hyields
  have horder : plan.order = [0] := by
    obtain ⟨htypes, hextents, -, order, horder, hfilter⟩ := hplans
    clear hpss hyields
    obtain ⟨types, extents, tiles, dims⟩ := plan
    obtain rfl : markedTypes = types := by simpa using htypes'.symm.trans htypes
    cases hextents
    cases horder
    exact hfilter
  rw [horder] at hpss
  cases hrun : (Rule.tiling rowTiling).performAt f ⟨0⟩ with
  | error fault => rw [hrun] at hok; cases hok
  | ok g =>
    obtain ⟨nests, hg, hnests⟩ := hyields.of_ok hrun
    exact ⟨g, nests, k, b, z, plan, pss, rfl, hg, horder, hpss, hnests⟩

end Example

end Tiling

end KernelLowering
