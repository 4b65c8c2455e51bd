import KernelLowering.Proofs.Tiling.Tiles

namespace KernelLowering.Tiling

section Starts

variable {nest : Nest} {start start' : List Int} {gs : List (List Nat)} {dims : List Nat} {d : Nat}

theorem getElem?_of_mem_startsAlong (h : start' ∈ startsAlong nest dims start) (hd : d ∉ dims) :
    start'[d]? = start[d]? := by
  induction dims generalizing start with
  | nil => rw [List.mem_singleton.1 h]
  | cons d' dims ih =>
    rw [List.mem_cons, not_or] at hd
    obtain ⟨i, -, h⟩ := List.mem_flatMap.1 h
    rw [ih h hd.2, List.getElem?_set_ne (Ne.symm hd.1)]

theorem getElem?_of_mem_startsOf (h : start' ∈ startsOf nest gs start) (hd : d ∉ gs.flatten) :
    start'[d]? = start[d]? :=
  getElem?_of_mem_startsAlong (startsOf_eq gs start ▸ h) hd

theorem place_of_not_mem {is : List Int} (hd : d ∉ dims) : (place start dims is)[d]? = start[d]? := by
  induction dims generalizing start is with
  | nil => rfl
  | cons d' dims ih =>
    cases is with
    | nil => rfl
    | cons i is =>
      rw [List.mem_cons, not_or] at hd
      exact (ih hd.2).trans (List.getElem?_set_ne (Ne.symm hd.1))

theorem length_place (start : List Int) (dims : List Nat) (is : List Int) :
    (place start dims is).length = start.length := by
  induction dims generalizing start is with
  | nil => rfl
  | cons d dims ih =>
    cases is with
    | nil => rfl
    | cons i is => exact (ih _ is).trans List.length_set

theorem getElem?_place {is : List Int} {k : Nat} {i : Int} (hnd : dims.Nodup) (hk : dims[k]? = some d)
    (hi : is[k]? = some i) (hd : d < start.length) : (place start dims is)[d]? = some i := by
  induction dims generalizing start is k with
  | nil => cases hk
  | cons d' dims ih =>
    obtain ⟨hnot, hnd⟩ := List.nodup_cons.1 hnd
    cases is with
    | nil => cases hi
    | cons i' is =>
      cases k with
      | zero =>
        obtain rfl := Option.some.inj hk
        obtain rfl := Option.some.inj hi
        exact (place_of_not_mem hnot).trans (List.getElem?_set_self hd)
      | succ k => exact ih hnd hk hi (by rwa [List.length_set])

end Starts

section Apart

variable {kind : KernelKind} {nest : Nest} {extents start start' : List Int} {split : List Nat}
  {refs tiles tiles' : List Ref} {d : Nat}

theorem steps_apart {extent : Int} {piece : LoopRange × Int} (h : Stretch extent piece) {i j : Int}
    (hi : i ∈ piece.1.values) (hj : j ∈ piece.1.values) (hne : i ≠ j) :
    i + piece.2 ≤ j ∨ j + piece.2 ≤ i := by
  obtain ⟨-, -, hi⟩ := LoopRange.mem_values.1 hi
  obtain ⟨-, -, hj⟩ := LoopRange.mem_values.1 hj
  rw [h.step] at hi hj
  have hdvd : piece.2 ∣ i - j := by
    have hsub := Int.dvd_sub hi hj
    rwa [show i - piece.1.lower - (j - piece.1.lower) = i - j by omega] at hsub
  rcases Int.lt_or_gt_of_ne hne with hlt | hlt
  · have := Int.le_of_dvd (by omega) (Int.dvd_neg.2 hdvd)
    omega
  · have := Int.le_of_dvd (by omega) hdvd
    omega

theorem getElem?_output {map : OperandMap} (hmap : kind.operandMaps[kind.outputOperand]? = some map)
    (hd : kind.iterators[d]? = some .parallel) : map[d]? = some [d] := by
  have hall : ∀ d < kind.iterators.length, kind.iterators[d]? = some .parallel →
      (kind.operandMaps[kind.outputOperand]?).bind (·[d]?) = some [d] := by
    cases kind <;> decide
  simpa [hmap] using hall d (List.getElem?_eq_some_iff.1 hd).1 hd

theorem exists_offset {map : OperandMap} {sizes i : List Int} (hmap : map[d]? = some [d])
    (hi : i ∈ box (map.map (span sizes))) : ∃ x, 0 ≤ x ∧ x < sizes[d]?.getD 0 ∧
      ∀ start : List Int, (List.zipWith (· + ·) (KernelKind.indexAt map start) i)[d]? =
        some (start[d]?.getD 0 + x) := by
  rw [mem_box, List.forall₂_map_right_iff] at hi
  obtain ⟨hlt, hget⟩ := List.getElem?_eq_some_iff.1 hmap
  have hlt' : d < i.length := hi.length_eq ▸ hlt
  have hx := (List.forall₂_iff_get.1 hi).2 d hlt' hlt
  simp only [List.get_eq_getElem, hget, span, List.map_cons, List.map_nil, List.sum_cons, List.sum_nil,
    List.length_cons, List.length_nil] at hx
  refine ⟨i[d], hx.1, by omega, fun start => ?_⟩
  rw [List.getElem?_zipWith, KernelKind.indexAt, List.getElem?_map, hmap, List.getElem?_eq_getElem hlt']
  simp

theorem TileRefs.apart (h : TileRefs nest.sizes start kind.operandMaps refs tiles)
    (h' : TileRefs nest.sizes start' kind.operandMaps refs tiles')
    (hextents : kind.extentsOf (refs.map (·.shape)) = .ok (some extents))
    (hfits : nest.Fits extents split) (hs : start ∈ tuples (nest.ranges.map LoopRange.values))
    (hs' : start' ∈ tuples (nest.ranges.map LoopRange.values)) (hfit : (Action.kernel kind refs).Fit)
    (hd : kind.iterators[d]? = some .parallel) (hne : start[d]? ≠ start'[d]?) {c : Ref.Cell}
    (hc : Ref.Among (Action.kernel kind tiles).outputs c) : ¬ Ref.Among tiles' c := by
  rintro ⟨tile', htile', j, hj, hcell'⟩
  obtain ⟨tile, htile, i, hi, rfl⟩ := hc
  obtain ⟨hlen, hin⟩ := mem_extents_of_fits hfits hs
  obtain ⟨hlen', hin'⟩ := mem_extents_of_fits hfits hs'
  obtain ⟨k, hk⟩ := List.mem_iff_getElem?.1 htile'
  obtain ⟨z, map, hz, hmap, hplace, hcells⟩ := h.window hextents hlen hin (Option.mem_toList.1 htile)
  obtain ⟨r, map', hr, hmap', hplace', hcells'⟩ := h'.window hextents hlen' hin' hk
  obtain ⟨-, hnd, hdistinct⟩ := hfit
  -- other operands have other roots
  have hroot : z.root = r.root := by
    rw [← hplace.root, ← hplace'.root]
    exact congrArg Prod.fst hcell'.symm
  obtain rfl : k = kind.outputOperand := by
    obtain ⟨hk, rfl⟩ := List.getElem?_eq_some_iff.1 hr
    obtain ⟨hk', rfl⟩ := List.getElem?_eq_some_iff.1 hz
    have hk : k < (refs.map (·.root)).length := by simpa using hk
    have hk' : kind.outputOperand < (refs.map (·.root)).length := by simpa using hk'
    have hsame : (refs.map (·.root))[kind.outputOperand] = (refs.map (·.root))[k] := by simpa using hroot
    exact (hnd.getElem_inj_iff.1 hsame).symm
  obtain rfl := Option.some.inj (hz.symm.trans hr)
  obtain rfl := Option.some.inj (hmap.symm.trans hmap')
  rw [(hcells i hi).2, (hcells' j hj).2] at hcell'
  have hsame := hdistinct z hz _ (hcells' j hj).1 _ (hcells i hi).1 hcell'
  rw [hplace.shape] at hi
  rw [hplace'.shape] at hj
  have halong := getElem?_output hmap hd
  obtain ⟨x, hx, hxs, hxat⟩ := exists_offset halong hi
  obtain ⟨y, hy, hys, hyat⟩ := exists_offset halong hj
  have hsum := congrArg (fun l => l[d]?) hsame
  simp only [hxat, hyat, Option.some.injEq] at hsum
  -- the tiles start at different steps of one range
  have hrank := (KernelKind.extentsOf_eq_ok.1 hextents).1.length_extents
  have hlt : d < extents.length := hrank ▸ (List.getElem?_eq_some_iff.1 hd).1
  obtain ⟨piece, hpiece, hrange, hsize⟩ := hfits.getElem?_pieces (List.getElem?_eq_getElem hlt)
  have hstep : ∀ s ∈ tuples (nest.ranges.map LoopRange.values), ∃ a, s[d]? = some a ∧
      a ∈ piece.1.values := by
    intro s hs
    rw [mem_tuples, List.forall₂_map_right_iff] at hs
    obtain ⟨hr, hget⟩ := List.getElem?_eq_some_iff.1 hrange
    have hd := hs.length_eq ▸ hr
    have hmem := (List.forall₂_iff_get.1 hs).2 d hd hr
    simp only [List.get_eq_getElem, hget] at hmem
    exact ⟨_, List.getElem?_eq_getElem hd, hmem⟩
  obtain ⟨a, ha, hav⟩ := hstep start hs
  obtain ⟨b, hb, hbv⟩ := hstep start' hs'
  rw [ha, hb] at hne
  have hstretch := hfits.stretch (List.getElem?_eq_getElem hlt) hpiece
  simp only [hsize, ha, hb, Option.getD_some] at hxs hys hsum
  rcases steps_apart hstretch hav hbv (fun e => hne (congrArg some e)) with h | h
  · omega
  · omega

end Apart

section Loops

variable {nest : Nest} {gs : List (List Nat)} {loops : List Node} {vars vars' : LoopVars}
  {start : List Int} {env : Env} {z : Code} {a : Action}

theorem LoopsOf.exists_start (h : LoopsOf nest gs vars loops vars')
    (hnd : (loops.flatMap Node.defined).Nodup)
    (hfresh : ∀ u, some u ∈ vars → u ∉ loops.flatMap Node.defined)
    (hs : List.Forall₂ (StartsAt env) vars start) (ha : a ∈ (Code.within loops z).trace env) :
    ∃ inner, ∃ start' ∈ startsOf nest gs start, List.Forall₂ (StartsAt inner) vars' start' ∧
      (∀ u ∉ loops.flatMap Node.defined, inner u = env u) ∧ a ∈ z.trace inner := by
  rw [Code.trace_within h.isLoop, List.mem_flatMap] at ha
  obtain ⟨inner, hinner, ha⟩ := ha
  obtain ⟨n, hn, rfl⟩ := List.mem_iff_getElem.1 hinner
  have henvs := h.envs hnd hfresh hs
  have hn' := henvs.length_eq ▸ hn
  obtain ⟨hstarts, hkeep⟩ := (List.forall₂_iff_get.1 henvs).2 n hn hn'
  exact ⟨_, _, List.getElem_mem hn', hstarts, hkeep, ha⟩

theorem exists_place_ne {dims : List Nat} {is js : List Int} (hnd : dims.Nodup)
    (hi : is.length = dims.length) (hj : js.length = dims.length) (hne : is ≠ js)
    (hlt : ∀ d ∈ dims, d < start.length) :
    ∃ d ∈ dims, (place start dims is)[d]? ≠ (place start dims js)[d]? := by
  obtain ⟨n, hn⟩ : ∃ n, is[n]? ≠ js[n]? := by
    by_contra hall
    exact hne (List.ext_getElem? fun n => not_not.1 fun h => hall ⟨n, h⟩)
  have hlt' : n < dims.length := by
    by_contra hge
    exact hn (by rw [List.getElem?_eq_none (by omega), List.getElem?_eq_none (by omega)])
  have hd := List.getElem_mem hlt'
  have hi' := List.getElem?_eq_getElem (show n < is.length by omega)
  have hj' := List.getElem?_eq_getElem (show n < js.length by omega)
  refine ⟨dims[n], hd, ?_⟩
  rw [getElem?_place hnd (List.getElem?_eq_getElem hlt') hi' (hlt _ hd),
    getElem?_place hnd (List.getElem?_eq_getElem hlt') hj' (hlt _ hd), ← hi', ← hj']
  exact hn

theorem LoopsOf.raceFree {parallel : Nat → Prop} {R : Action → List Int → Prop}
    (h : LoopsOf nest gs vars loops vars') (hnd : (loops.flatMap Node.defined).Nodup)
    (hfresh : ∀ u, some u ∈ vars → u ∉ loops.flatMap Node.defined)
    (hs : List.Forall₂ (StartsAt env) vars start) (hgs : gs.flatten.Nodup)
    (hlt : ∀ d ∈ gs.flatten, d < start.length)
    (hparallel : List.Forall₂ (fun dims h => h.kind.isParallel = true → ∀ d ∈ dims, parallel d) gs loops)
    (hbody : ∀ inner, ∀ start' ∈ startsOf nest gs start, List.Forall₂ (StartsAt inner) vars' start' →
      (∀ u ∉ loops.flatMap Node.defined, inner u = env u) →
        z.RaceFree inner ∧ ∀ a ∈ z.trace inner, R a start')
    (hapart : ∀ a a' s s', R a s → R a' s' → (∃ d, parallel d ∧ s[d]? ≠ s'[d]?) →
      ∀ c, Ref.Among a.outputs c → ¬ Ref.Among a'.buffers c) :
    (Code.within loops z).RaceFree env := by
  induction h generalizing env start with
  | nil => exact (hbody env start (List.mem_singleton_self _) hs fun _ _ => rfl).1
  | @cons dims gs vars vars' loops kind vs op hloop hranges hvars hrest ih =>
    simp only [List.flatMap_cons, Node.defined, Node.loop, Option.map_none, Option.toList_none,
      List.nil_append, List.mem_append, not_or] at hnd hfresh hbody
    obtain ⟨hndv, hnd, hdis⟩ := List.nodup_append'.1 hnd
    rw [List.flatten_cons] at hgs hlt
    obtain ⟨hnddims, hgs, hdims⟩ := List.nodup_append'.1 hgs
    rw [List.forall_mem_append] at hlt
    obtain ⟨hself, hparallel⟩ := List.forall₂_cons.1 hparallel
    have hiter := iterations_eq hloop hranges
    have hlen : ∀ is ∈ kind.iterations, is.length = dims.length := fun is his => by
      rw [hiter] at his
      simpa using (mem_tuples.1 his).length_eq
    have hassign : ∀ is ∈ kind.iterations, List.Forall₂ (StartsAt (env.setAll vs is))
        (assign vars dims vs) (place start dims is) := fun is his =>
      startsAt_assign hs hvars (hlen is his) hndv fun u hu => (hfresh u hu).1
    have hfresh' : ∀ u, some u ∈ assign vars dims vs → u ∉ loops.flatMap Node.defined := by
      intro u hu
      rcases mem_assign hu with hu | hu
      · exact (hfresh u hu).2
      · exact fun hm => hdis hu hm
    have hinner : ∀ is ∈ kind.iterations, ∀ inner, ∀ start' ∈ startsOf nest gs (place start dims is),
        List.Forall₂ (StartsAt inner) vars' start' →
          (∀ u ∉ loops.flatMap Node.defined, inner u = env.setAll vs is u) →
            z.RaceFree inner ∧ ∀ a ∈ z.trace inner, R a start' := by
      intro is his inner start' hstart hat hkeep
      refine hbody inner start' (List.mem_flatMap.2 ⟨is, hiter ▸ his, hstart⟩) hat fun u hu => ?_
      exact (hkeep u hu.2).trans (env.setAll_of_not_mem hu.1)
    refine ⟨fun hp is his js hjs hne c hchanges haccesses => ?_, fun is his => ?_, trivial⟩
    · obtain ⟨a, ha, hc⟩ := hchanges
      obtain ⟨a', ha', hc'⟩ := haccesses
      obtain ⟨inner, s, hstart, hat, hkeep, ha⟩ := hrest.exists_start hnd hfresh' (hassign is his) ha
      obtain ⟨inner', s', hstart', hat', hkeep', ha'⟩ :=
        hrest.exists_start hnd hfresh' (hassign js hjs) ha'
      obtain ⟨d, hd, hdne⟩ := exists_place_ne hnddims (hlen is his) (hlen js hjs) hne hlt.1
      have hnot : d ∉ gs.flatten := fun hm => hdims hd hm
      rw [← getElem?_of_mem_startsOf hstart hnot, ← getElem?_of_mem_startsOf hstart' hnot] at hdne
      exact (hapart a a' s s' ((hinner is his inner s hstart hat hkeep).2 a ha)
        ((hinner js hjs inner' s' hstart' hat' hkeep').2 a' ha') ⟨d, hself hp d hd, hdne⟩ c hc hc').elim
    · refine ih hnd hfresh' (hassign is his) hgs (fun d hd => ?_) hparallel (hinner is his)
      rw [length_place]
      exact hlt.2 d hd

theorem isParallel_groups (t : Tiling) (plan : TilePlan) (hranges : ∀ d ∈ plan.order, d < nest.ranges.length) :
    List.Forall₂ (fun dims kind => OpKind.isParallel kind = true → ∀ d ∈ dims, t.isParallel d = true)
      (t.groups plan) (t.loopKinds plan nest) := by
  have hsequential : ∀ dims : List Nat, (∀ d ∈ dims, d < nest.ranges.length) →
      List.Forall₂ (fun dims kind => OpKind.isParallel kind = true → ∀ d ∈ dims, t.isParallel d = true)
        (dims.map fun d => [d]) (dims.filterMap fun d => (nest.ranges[d]?).map .forLoop) := by
    intro dims hdims
    induction dims with
    | nil => exact .nil
    | cons d dims ih =>
      obtain ⟨hd, hdims⟩ := List.forall_mem_cons.1 hdims
      rw [List.map_cons, List.filterMap_cons, List.getElem?_eq_getElem hd]
      exact .cons (fun hp => nomatch hp) (ih hdims)
  unfold groups loopKinds
  cases t.options.style with
  | sequential => exact hsequential _ hranges
  | parallel =>
    simp only [List.partition_eq_filter_filter]
    refine List.rel_append ?_ (hsequential _ fun d hd => hranges d (List.mem_of_mem_filter hd))
    split
    · exact .nil
    · exact .cons (fun _ d hd => List.of_mem_filter hd) .nil

end Loops

end KernelLowering.Tiling
