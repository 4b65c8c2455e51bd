import KernelLowering.Proofs.Kernel.Effect
import KernelLowering.Proofs.Tiling.Races

namespace KernelLowering.Tiling

section Nests

variable {t : Tiling} {plan : TilePlan} {operands : List ValueId} {ns : List Nest} {nest : Nest}
  {y : Code} {env env' : Env} {refs : List Ref} {f g : Function}

structure Ready (t : Tiling) (plan : TilePlan) (f : Function) (operands : List ValueId) (env : Env)
    (refs : List Ref) : Prop where
  suits : Suits t plan
  types : List.Forall₂ (fun v type => f.bufferType? v = .ok (some type)) operands plan.operandTypes
  bound : Bound env operands plan.operandTypes refs
  extents : t.kind.extentsOf (refs.map (·.shape)) = .ok (some plan.extents)
  fit : (Action.kernel t.kind refs).Fit

namespace Ready

variable (h : Ready t plan f operands env refs)

include h

theorem congr (hkeep : ∀ v ∈ operands, env' v = env v) : Ready t plan f operands env' refs :=
  ⟨h.suits, h.types, h.bound.congr hkeep, h.extents, h.fit⟩

theorem shapes : refs.map (·.shape) = plan.operandTypes.map (·.shape) := by
  rw [← List.forall₂_eq_eq_eq, List.forall₂_map_left_iff, List.forall₂_map_right_iff]
  exact h.bound.shapes

theorem shaped : t.kind.Shaped (plan.operandTypes.map (·.shape)) plan.extents :=
  h.shapes ▸ (KernelKind.extentsOf_eq_ok.1 h.extents).1

theorem known : Operands True f t plan operands :=
  ⟨h.types, h.suits.rank, fun _ => trivial, fun _ _ _ => trivial⟩

theorem ref {v : ValueId} (hv : v ∈ operands) {type : BufferType}
    (htype : f.bufferType? v = .ok (some type)) : ∃ r, env.ref? v = some r ∧ r.shape = type.shape := by
  obtain ⟨i, hi, rfl⟩ := List.mem_iff_getElem.1 hv
  have hi' := h.bound.bound.length_eq ▸ hi
  have hi'' := h.bound.shapes.length_eq ▸ hi'
  have hknown := (List.forall₂_iff_get.1 h.types).2 i hi hi''
  obtain rfl := Option.some.inj (Except.ok.inj (htype.symm.trans hknown))
  exact ⟨_, (List.forall₂_iff_get.1 h.bound.bound).2 i hi hi',
    (List.forall₂_iff_get.1 h.bound.shapes).2 i hi' hi''⟩

theorem start (hfits : nest.Fits plan.extents plan.order.reverse) {start : List Int}
    (hs : start ∈ startsOf nest (t.groups plan) (zeros plan)) :
    start ∈ tuples (nest.ranges.map LoopRange.values) :=
  (startsOf_perm h.suits.sound hfits).mem_iff.1 hs

theorem tile (hfits : nest.Fits plan.extents plan.order.reverse) {start : List Int}
    (hs : start ∈ tuples (nest.ranges.map LoopRange.values)) {tiles : List Ref}
    (htiles : TileRefs nest.sizes start t.kind.operandMaps refs tiles) :
    (Action.kernel t.kind tiles).Fit ∧ Cuts refs tiles := by
  obtain ⟨hlen, hin⟩ := mem_extents_of_fits hfits hs
  exact ⟨htiles.fit hlen hin h.extents (h.suits.extentsOf_tile hfits) h.fit,
    htiles.cuts h.extents hlen hin⟩

end Ready

theorem NestOf.fit (h : NestOf t plan operands nest y) (hr : Ready t plan f operands env refs)
    (hfits : nest.Fits plan.extents plan.order.reverse) (hnd : y.defined.Nodup)
    (hops : ∀ v ∈ operands, v ∉ y.defined) (htyped : ∀ hd ∈ y.heads, hd.Typed g) :
    y.Throughout Node.Fit env := by
  have hkept := y.throughout_kept env
  have hall := Code.throughout_of_heads (p := fun hd _ => hd.Typed g) (fun hd hh _ => htyped hd hh) env
  cases h with
  | @intro loops vars y tiled op hloops htiled hkinds =>
    rw [defined_within, Code.defined_append, ← List.append_assoc] at hnd
    have hops' := hops
    simp only [defined_within, Code.defined_append, List.mem_append, not_or] at hops'
    have hnd' := (List.nodup_append'.1 hnd).1
    have hwithin : (Code.within loops y).Throughout (Node.InBounds f operands) env :=
      hloops.inBounds htiled hr.suits hfits hr.known hr.shaped hnd'
    have hwindows := Code.throughout_within_append (z := .node (.effect op (.kernel t.kind) tiled
      (some t.guard.next)) .nil .nil) hwithin fun hd hh env w hw => by
      rw [List.mem_singleton.1 hh] at hw
      cases hw
    have hinner := hloops.tiles htiled hnd' (fun v hv => ⟨(hops' v hv).1, (hops' v hv).2.1⟩) hr.bound
      hr.suits.operands
    have hacts : (Code.within loops (y ++ .node (.effect op (.kernel t.kind) tiled (some t.guard.next))
        .nil .nil)).Throughout (fun hd env => hd.kind.isLinalg = true →
          ∃ a, hd.actions env = [a] ∧ a.Fit) env := by
      refine Code.throughout_within (fun h hh env hl => ?_) fun inner hmem => ?_
      · have hloop := hloops.isLoop h hh
        cases hk : h.kind <;> simp_all [OpKind.isLoop, OpKind.isLinalg]
      · obtain ⟨i, hi, rfl⟩ := List.mem_iff_getElem.1 hmem
        have hi' := hinner.length_eq ▸ hi
        obtain ⟨-, tiles, htiles, hplaces⟩ := (List.forall₂_iff_get.1 hinner).2 i hi hi'
        refine Code.throughout_append.2 ⟨Code.throughout_of_heads (fun hd hh env hl => ?_) _,
          fun _ => ⟨.kernel t.kind tiles, ?_, ?_⟩, ?_, trivial⟩
        · have hpure := htiled.isPure hd hh
          cases hk : hd.kind <;> simp_all [OpKind.isPure, OpKind.isLinalg]
        · have htiles : tiled.mapM (y.after (Code.envs loops env)[i]).ref? = some tiles := htiles
          simp only [Node.actions, Node.effect, htiles]
        · exact (hr.tile hfits (hr.start hfits (List.getElem_mem hi')) hplaces).1
        · intro i hi
          simp [Node.effect, OpKind.iterations, OpKind.isLoop] at hi
    refine (((hwindows.and hacts).and hkept).and hall).mono ?_
    rintro hd inner ⟨⟨⟨hwindow, hact⟩, hkept⟩, htyped⟩
    refine ⟨hact, fun w hw => ?_⟩
    obtain ⟨x, hx, supplied, type, starts, hoperands, htype, hstarts, hwithin⟩ := hwindow w hw
    obtain ⟨r, hr, hshape⟩ := hr.ref hx htype
    obtain ⟨-, -, -, -, -, -, -, -, -, -, -, hlen, -⟩ := htyped.of_subView hw
    exact ⟨x, supplied, r, starts, hoperands, (Env.ref?_congr (hkept x (hops x hx))).trans hr, hstarts,
      hshape ▸ hwithin.embeds hlen⟩

theorem NestOf.cuts (h : NestOf t plan operands nest y) (hr : Ready t plan f operands env refs)
    (hfits : nest.Fits plan.extents plan.order.reverse) (hnd : y.defined.Nodup)
    (hops : ∀ v ∈ operands, v ∉ y.defined) {a : Action} (ha : a ∈ y.trace env) :
    ∃ tiles, a = .kernel t.kind tiles ∧ Cuts refs tiles := by
  obtain ⟨i, hi, rfl⟩ := List.mem_iff_getElem.1 ha
  have htrace := h.trace hnd hops hr.bound hr.suits.operands
  have hi' := htrace.length_eq ▸ hi
  obtain ⟨tiles, haction, hplaces⟩ := (List.forall₂_iff_get.1 htrace).2 i hi hi'
  exact ⟨tiles, haction, (hr.tile hfits (hr.start hfits (List.getElem_mem hi')) hplaces).2⟩

theorem NestOf.raceFree (h : NestOf t plan operands nest y) (hr : Ready t plan f operands env refs)
    (hfits : nest.Fits plan.extents plan.order.reverse) (hnd : y.defined.Nodup)
    (hops : ∀ v ∈ operands, v ∉ y.defined) : y.RaceFree env := by
  cases h with
  | @intro loops vars y tiled op hloops htiled hkinds =>
    simp only [defined_within, Code.defined_append, List.mem_append, not_or] at hnd hops
    rw [← List.append_assoc] at hnd
    obtain ⟨hndl, hndy, hdis⟩ := List.nodup_append'.1 (List.nodup_append'.1 hnd).1
    have hgroups := flatten_groups t plan
    have hlt : ∀ d ∈ plan.order, d < plan.extents.length := fun d hd => by
      obtain ⟨extent, tile, he, -⟩ := hr.suits.sound.tiled hd
      exact (List.getElem?_eq_some_iff.1 he).1
    have hparallel : List.Forall₂ _ (t.groups plan) (t.loopKinds plan nest) :=
      isParallel_groups t plan fun d hd => hfits.ranges ▸ hlt d hd
    rw [← hkinds, List.forall₂_map_right_iff] at hparallel
    refine hloops.raceFree
      (R := fun a start => start ∈ tuples (nest.ranges.map LoopRange.values) ∧ ∃ tiles,
        a = .kernel t.kind tiles ∧ TileRefs nest.sizes start t.kind.operandMaps refs tiles)
      hndl (by simp) (startsAt_none env plan) (hgroups.nodup_iff.2 hr.suits.sound.order)
      (fun d hd => ?_) hparallel (fun inner start hstart hat hkeep => ⟨?_, fun a ha => ?_⟩) ?_
    · rw [zeros, List.length_map]
      exact hlt d (hgroups.mem_iff.1 hd)
    · refine Code.raceFree_of_loopless (fun hd hh => ?_) inner
      rw [Code.heads_append, List.mem_append] at hh
      rcases hh with hh | hh
      · have hpure := htiled.isPure hd hh
        cases hk : hd.kind <;> simp_all [OpKind.isPure, OpKind.isLoop]
      · rw [List.mem_singleton.1 hh]
        rfl
    · obtain ⟨hquiet, tiles, htiles, hplaces⟩ := htiled.tiles hndy (hloops.not_mem_vars hdis)
        (fun v hv => (hops v hv).2.1) hat (hr.bound.congr fun v hv => hkeep v (hops v hv).1)
        hr.suits.operands
      rw [Code.trace_append, hquiet, List.nil_append, trace_kernel rfl htiles, List.mem_singleton] at ha
      exact ⟨hr.start hfits hstart, tiles, ha, hplaces⟩
    · rintro _ _ s s' ⟨hs, tiles, rfl, hplaces⟩ ⟨hs', tiles', rfl, hplaces'⟩ ⟨d, hd, hne⟩ c
      exact hplaces.apart hplaces' hr.extents hfits hs hs' hr.fit (of_decide_eq_true hd) hne

theorem NestsOf.runs (h : NestsOf t plan operands ns y) (hr : Ready t plan f operands env refs)
    (hfits : ∀ nest ∈ ns, nest.Fits plan.extents plan.order.reverse) (hnd : y.defined.Nodup)
    (hops : ∀ v ∈ operands, v ∉ y.defined) (htyped : ∀ hd ∈ y.heads, hd.Typed g) :
    y.Throughout Node.Fit env ∧ y.RaceFree env ∧
      ∀ a ∈ y.trace env, ∃ tiles, a = .kernel t.kind tiles ∧ Cuts refs tiles := by
  induction h generalizing env with
  | nil => exact ⟨trivial, trivial, by simp [Code.trace]⟩
  | @cons nest ns y y' hfirst _ ih =>
    simp only [Code.defined_append, List.mem_append, not_or] at hnd hops
    rw [Code.heads_append, List.forall_mem_append] at htyped
    obtain ⟨hnd, hnd', -⟩ := List.nodup_append'.1 hnd
    obtain ⟨hfit, hfits⟩ := List.forall_mem_cons.1 hfits
    have hself := fun v hv => (hops v hv).1
    obtain ⟨hrestfit, hrestfree, hrestcuts⟩ := ih
      (hr.congr fun v hv => y.after_of_not_mem env (hself v hv)) hfits hnd' (fun v hv => (hops v hv).2)
        htyped.2
    refine ⟨Code.throughout_append.2 ⟨hfirst.fit hr hfit hnd hself htyped.1, hrestfit⟩,
      Code.raceFree_append.2 ⟨hfirst.raceFree hr hfit hnd hself, hrestfree⟩, ?_⟩
    rw [Code.trace_append, List.forall_mem_append]
    exact ⟨fun a => hfirst.cuts hr hfit hnd hself, hrestcuts⟩

theorem Cuts.among {tiles : List Ref} (h : Cuts refs tiles) {c : Ref.Cell} :
    (Ref.Among tiles c → Ref.Among refs c) ∧
      (Ref.Among (Action.kernel t.kind tiles).outputs c → Ref.Among (Action.kernel t.kind refs).outputs c) := by
  refine ⟨?_, ?_⟩
  · rintro ⟨tile, htile, i, hi, rfl⟩
    obtain ⟨k, hk⟩ := List.mem_iff_getElem?.1 htile
    obtain ⟨r, hr, -, hcells⟩ := h k tile hk
    obtain ⟨j, hj, hcell⟩ := hcells i hi
    exact ⟨r, List.mem_of_getElem? hr, j, hj, hcell⟩
  · rintro ⟨tile, htile, i, hi, rfl⟩
    obtain ⟨r, hr, -, hcells⟩ := h _ tile (Option.mem_toList.1 htile)
    obtain ⟨j, hj, hcell⟩ := hcells i hi
    exact ⟨r, Option.mem_toList.2 hr, j, hj, hcell⟩

theorem updates_eq_pointwise {kind : KernelKind} {extents : List Int}
    (h : kind.extentsOf (refs.map (·.shape)) = .ok (some extents)) :
    kind.updates refs = pointwise kind extents refs := by
  simp only [KernelKind.updates, KernelKind.points, h]
  rfl

theorem clear_of_nodup (h : (refs.map (·.root)).Nodup) : Ref.Clear refs := by
  match refs with
  | [] => trivial
  | [_] => trivial
  | [_, _] => trivial
  | x :: y :: z :: _ =>
    simp only [List.map_cons, List.nodup_cons, List.mem_cons, not_or] at h
    exact ⟨Ne.symm h.1.2.1, Ne.symm h.2.1.1⟩

theorem root_of_updates {kind : KernelKind} {u : Update} {c : Ref.Cell} (hu : u ∈ kind.updates refs)
    (hc : c ∈ u) : ∃ r ∈ refs, r.root = c.1 := by
  obtain ⟨point, -, rfl⟩ := List.mem_map.1 hu
  obtain ⟨i, hi, rfl⟩ := List.mem_iff_getElem.1 hc
  rw [KernelKind.updateAt, List.length_zipWith] at hi
  simp only [KernelKind.updateAt, List.getElem_zipWith, Ref.cell]
  exact ⟨_, List.getElem_mem _, rfl⟩

theorem NestsOf.mimics {hidden : ValueId → Prop} (h : NestsOf t plan operands ns y)
    (hr : Ready t plan f operands env refs) (hcovers : TilePlan.Covers plan.extents plan.order.reverse ns)
    (hnd : y.defined.Nodup) (hops : ∀ v ∈ operands, v ∉ y.defined)
    (hcuts : ∀ a ∈ y.trace env, ∃ tiles, a = .kernel t.kind tiles ∧ Cuts refs tiles)
    (hshown : ∀ r ∈ refs, ¬ hidden r.root) :
    Mimics (.keep hidden) (y.trace env) [.kernel t.kind refs] := by
  have hamong : ∀ c, Ref.Among refs c → Pairing.keep hidden c c := by
    rintro _ ⟨r, hr, i, -, rfl⟩
    exact ⟨rfl, hshown r hr⟩
  refine ⟨.of_perm (fun a ha => ?_) (Pairing.oneToOne_keep _) (fun u hu cell hc => ⟨rfl, ?_⟩)
    ((clear_of_nodup hr.fit.2.1).apart t.kind) ?_, fun c hc => .inr ?_, fun c hc => .inr ?_⟩
  · obtain ⟨tiles, rfl, -⟩ := hcuts a ha
    exact ⟨_, _, rfl⟩
  · obtain ⟨r, hr, hroot⟩ := root_of_updates hu hc
    exact hroot ▸ hshown r hr
  · rw [updates_eq_pointwise hr.extents]
    exact (h.updates_perm hr.suits hcovers.fits hnd hops hr.bound).trans (hcovers.points_perm.map _)
  · obtain ⟨a, ha, hc⟩ := hc
    obtain ⟨tiles, rfl, hcut⟩ := hcuts a ha
    have hin := (Cuts.among (t := t) hcut).1 hc
    exact ⟨c, hamong c hin, _, List.mem_singleton_self _, hin⟩
  · obtain ⟨a, ha, hc⟩ := hc
    obtain ⟨tiles, rfl, hcut⟩ := hcuts a ha
    have hin := (Cuts.among (t := t) hcut).2 hc
    refine ⟨c, ?_, _, List.mem_singleton_self _, hin⟩
    obtain ⟨r, hr, i, -, rfl⟩ := hin
    exact ⟨rfl, hshown r (List.mem_of_getElem? (Option.mem_toList.1 hr))⟩

theorem NestsOf.passes {c x : Code} {hd : Node} (h : NestsOf t plan hd.operands ns y)
    (hkind : hd.kind = .kernel t.kind) (hs : Suits t plan)
    (hcovers : TilePlan.Covers plan.extents plan.order.reverse ns)
    (htypes : List.Forall₂ (fun v type => f.bufferType? v = .ok (some type)) hd.operands
      plan.operandTypes)
    (hextents : t.kind.iterationExtents plan.operandTypes = .ok (some plan.extents))
    (hnd : y.defined.Nodup) (hops : ∀ v ∈ hd.operands, v ∉ y.defined)
    (htyped : ∀ hd ∈ y.heads, hd.Typed g) :
    (Passage.plain id (fun _ => True) (fun v => ¬ f.Has v ∨ v ∈ x.defined) (Env.Informed f c)).Passes
      (.node hd x .nil) y where
  allocated := by
    rintro c _ ⟨rfl, hshown⟩ hm
    exact (hshown (.inr (Code.mem_body_of_allocated (by simp [Node.allocated, hkind]) hm))).elim
  steps env env' hun hun' hlinks hbefore := by
    obtain ⟨⟨hfit, hinformed⟩, -⟩ := hbefore
    obtain ⟨refs, hrefs, hfit⟩ := hfit.kernel hkind
    obtain ⟨hb, hshown⟩ := Passage.plain_refs hlinks hrefs
    obtain ⟨types, htypes', hshapes⟩ := hinformed.typed.types hrefs
    obtain rfl : types = plan.operandTypes := by
      have hunique : Relator.RightUnique fun (v : ValueId) (type : BufferType) =>
          f.bufferType? v = .ok (some type) := fun v a b ha hb =>
        Option.some.inj (Except.ok.inj (ha.symm.trans hb))
      exact List.right_unique_forall₂' hunique htypes' htypes
    have hr : Ready t plan f hd.operands env' refs := by
      refine ⟨hs, htypes, ⟨hb, ?_⟩, ?_, hfit⟩
      · rwa [← List.forall₂_eq_eq_eq, List.forall₂_map_left_iff, List.forall₂_map_right_iff] at hshapes
      · rw [← hextents, KernelKind.iterationExtents, hshapes]
    obtain ⟨hthroughout, hfree, hcuts⟩ := h.runs hr hcovers.fits hnd hops htyped
    refine ⟨hthroughout, ?_, fun _ => hfree, Passage.plain_links hlinks (by simp [Node.item, hkind]) hun'⟩
    rw [trace_kernel hkind hrefs]
    show Mimics (.keep fun v => ¬ f.Has v ∨ v ∈ x.defined) _ _
    exact h.mimics hr hcovers hnd hops hcuts hshown

end Nests

section Rule

variable {f : Function} {t : Tiling} {k : Spine} {b x z : Code} {hd : Node}

theorem yields_refinement (hs : f.Sound (k.plug (b ++ .node hd x z)))
    (hcheck : (t.check f hd.op).Answers ()) :
    Yields True ((Rule.tiling t).performAt f hd.op) fun g => ∃ plan ns y,
      hd.kind = .kernel t.kind ∧ hd.marker = some t.guard.current ∧
        NestsOf t plan hd.operands ns y ∧ Splice f g k b y z ∧
          f.Improves g (k.plug (b ++ .node hd x z)) (k.plug (b ++ (y ++ z))) := by
  have hop : f.op? hd.op = some (hd.record k.parent x.roots) :=
    (Function.places_append.1 hs.represents.holds.2).2.1
  obtain ⟨hkind, hmarker, plan, hplan⟩ := (check_answers hop).1 hcheck
  obtain ⟨htypes, hmake⟩ := (plan_answers ⟨_, _, hop⟩).1 hplan
  obtain ⟨ns', hns', hcovers⟩ := (TilePlan.sound_of_make hmake).exists_nests
  rw [Rule.performAt, Yields.map_iff]
  refine ((yields_perform hs.represents hplan).weaken fun _ => trivial).mono ?_
  rintro ⟨_, g⟩ - ⟨ns, y, hns, hnests, hsplice⟩
  rw [hns, Except.ok.injEq] at hns'
  subst hns'
  refine ⟨plan, ns, y, hkind, hmarker, hnests, hsplice, ?_⟩
  have hfresh : ∀ v ∈ hd.operands, v ∉ y.defined := by
    intro v hv hmem
    rw [hsplice.defined, mem_freshValues] at hmem
    exact Nat.not_lt_of_le hmem.1 (index_lt_of_types htypes v hv)
  have hhas : ∀ v ∈ y.defined, g.Has v := by
    intro v hv
    rw [hsplice.defined, mem_freshValues] at hv
    exact hv.2
  have hall : ∀ v ∈ hd.operands, ∃ type, g.bufferType? v = .ok (some type) := by
    intro v hv
    obtain ⟨i, hi, rfl⟩ := List.mem_iff_getElem.1 hv
    exact ⟨_, hsplice.grows.bufferType?
      ((List.forall₂_iff_get.1 htypes).2 i hi (htypes.length_eq ▸ hi))⟩
  have htyped := hnests.typed hall hhas
  have h := Function.Sound.splice (σ := id) hs (by simpa using hsplice.represents) hsplice.grows
    hsplice.grows.respects htyped (fun _ _ _ _ => trivial) (fun v hv => ⟨rfl, ?_⟩)
    (hnests.passes hkind (suits_of_make hmake) hcovers htypes
      (TilePlan.make_answers.1 hmake).2.1 (hsplice.defined ▸ nodup_freshValues _ _) hfresh htyped)
  · simpa using h
  · obtain ⟨hhas, -, hout⟩ := hs.represents.stays hv
    exact fun h => h.elim (fun hn => hn hhas) hout

end Rule

end KernelLowering.Tiling
