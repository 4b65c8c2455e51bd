import KernelLowering.Meaning.Trace
import KernelLowering.Proofs.Tiling.Emission

namespace KernelLowering

theorem Code.heads_within (loops : List Node) (y : Code) :
    (within loops y).heads = loops ++ y.heads := by
  induction loops with
  | nil => rfl
  | cons h loops ih =>
    show (node h (within loops y) nil).heads = _
    simp only [heads, ih, List.append_nil, List.cons_append]

def Code.Quiet (x : Code) : Prop := ∀ env, x.trace env = []

theorem Code.Quiet.append {x y : Code} (hx : x.Quiet) (hy : y.Quiet) : (x ++ y).Quiet := fun env => by
  rw [trace_append, hx, hy, List.append_nil]

theorem Code.quiet_nil : Code.nil.Quiet := fun _ => rfl

theorem KernelKind.length_indexAt (map : OperandMap) (point : List Int) :
    (KernelKind.indexAt map point).length = map.length := by
  rw [indexAt, List.length_map]

theorem getD_zipWith_add {xs ys : List Int} (h : xs.length = ys.length) (d : Nat) :
    (List.zipWith (· + ·) xs ys)[d]?.getD 0 = xs[d]?.getD 0 + ys[d]?.getD 0 := by
  induction xs generalizing ys d with
  | nil =>
    obtain rfl := List.length_eq_zero_iff.1 h.symm
    simp
  | cons x xs ih =>
    obtain ⟨y, ys, rfl⟩ := List.exists_cons_of_length_eq_add_one h.symm
    cases d with
    | zero => simp
    | succ d => simpa using ih (by simpa using h) d

theorem KernelKind.indexAt_add (map : OperandMap) {start point : List Int}
    (h : start.length = point.length) :
    indexAt map (List.zipWith (· + ·) start point) =
      List.zipWith (· + ·) (indexAt map start) (indexAt map point) := by
  have hsum : ∀ terms : List Nat,
      (terms.map fun d => (List.zipWith (· + ·) start point)[d]?.getD 0).sum =
        (terms.map fun d => start[d]?.getD 0).sum + (terms.map fun d => point[d]?.getD 0).sum := by
    intro terms
    induction terms with
    | nil => rfl
    | cons d terms ih =>
      rw [List.map_cons, List.sum_cons, ih, getD_zipWith_add h]
      simp only [List.map_cons, List.sum_cons]
      omega
  simp only [indexAt, hsum, List.zipWith_map, List.zipWith_self]

namespace Tiling

section Straight

variable {env : Env} {y : Code} {vars : LoopVars} {start : List Int}

theorem SumOf.quiet {first last : ValueId} {rest : List ValueId} (h : SumOf first rest y last) :
    y.Quiet := by
  induction h with
  | done => exact Code.quiet_nil
  | more op _ ih => exact fun env => ih _

theorem SumOf.index {first last : ValueId} {rest : List ValueId} (h : SumOf first rest y last)
    (hnd : y.defined.Nodup) (hrest : ∀ u ∈ rest, u ∉ y.defined) {a : Int} {bs : List Int}
    (ha : env.index? first = some a)
    (hbs : List.Forall₂ (fun u b => env.index? u = some b) rest bs) :
    (y.after env).index? last = some (a + bs.sum) := by
  induction h generalizing env a bs with
  | done =>
    cases hbs
    simpa [Code.after] using ha
  | @more first next v last rest y op hsum ih =>
    cases hbs with
    | @cons _ b _ bs hb hbs =>
      simp only [Code.defined_node, Code.defined_nil, List.nil_append, Node.defined, Node.value,
        Option.map_some, Option.toList_some, List.append_nil, List.singleton_append] at hnd hrest
      obtain ⟨hv, hnd⟩ := List.nodup_cons.1 hnd
      obtain ⟨-, hrest⟩ := List.forall_mem_cons.1 hrest
      simp only [List.mem_cons, not_or] at hrest
      have hsum : (Node.value op .addIndex [first, next] v .index).item env =
          some (.index (a + b)) := by
        simp [Node.item, Node.value, ha, hb]
      rw [Code.after, Node.bind_value, hsum, List.sum_cons, ← Int.add_assoc]
      refine ih hnd (fun u hu => (hrest u hu).2) (by simp [Env.index?, Item.index?]) ?_
      refine List.forall₂_iff_get.2 ⟨hbs.length_eq, fun i hi hi' => ?_⟩
      have hold := (List.forall₂_iff_get.1 hbs).2 i hi hi'
      rw [← hold]
      exact Env.index?_congr (env.set_of_ne _ (hrest _ (List.getElem_mem _)).1)

def StartsAt (env : Env) : Option ValueId → Int → Prop
  | some v, x => env.index? v = some x
  | none, x => x = 0

theorem varsAlong_index (hs : List.Forall₂ (StartsAt env) vars start) (terms : List Nat) :
    ∃ bs, List.Forall₂ (fun u b => env.index? u = some b) (varsAlong vars terms) bs ∧
      bs.sum = (terms.map fun d => start[d]?.getD 0).sum := by
  induction terms with
  | nil => exact ⟨[], .nil, rfl⟩
  | cons d terms ih =>
    obtain ⟨bs, hbs, hsum⟩ := ih
    have hlen := hs.length_eq
    simp only [varsAlong, List.filterMap_cons, List.map_cons, List.sum_cons]
    rcases Nat.lt_or_ge d vars.length with hd | hd
    · have hd' : d < start.length := hlen ▸ hd
      have hat := (List.forall₂_iff_get.1 hs).2 d hd hd'
      simp only [List.get_eq_getElem] at hat
      rw [List.getElem?_eq_getElem hd, List.getElem?_eq_getElem hd', Option.join_some]
      cases hv : vars[d] with
      | none =>
        rw [hv] at hat
        exact ⟨bs, hbs, by simp [show start[d] = 0 from hat, hsum]⟩
      | some v =>
        rw [hv] at hat
        exact ⟨start[d] :: bs, .cons hat hbs, by simp [hsum]⟩
    · rw [List.getElem?_eq_none hd, List.getElem?_eq_none (hlen ▸ hd)]
      exact ⟨bs, hbs, by simp [hsum]⟩

theorem mem_vars_of_mem_varsAlong {terms : List Nat} {u : ValueId} (h : u ∈ varsAlong vars terms) :
    some u ∈ vars := by
  obtain ⟨d, -, hd⟩ := List.mem_filterMap.1 h
  exact List.mem_of_getElem? (Option.join_eq_some_iff.1 hd)

theorem SumOf.last_mem {first last : ValueId} {rest : List ValueId} (h : SumOf first rest y last) :
    last = first ∨ last ∈ y.defined := by
  induction h with
  | done => exact .inl rfl
  | more op _ ih =>
    refine .inr ?_
    rw [Code.defined_node, List.mem_append, List.mem_append]
    rcases ih with rfl | ih
    · exact .inl (by simp [Node.defined, Node.value])
    · exact .inr (.inr ih)

theorem OffsetOf.supplied_mem {terms : List Nat} {offset : Offset} {vs : List ValueId}
    (h : OffsetOf vars terms offset vs y) : ∀ v ∈ vs, some v ∈ vars ∨ v ∈ y.defined := by
  cases h with
  | static => simp
  | @dynamic first _ rest _ hv hsum =>
    intro v hmem
    obtain rfl := List.mem_singleton.1 hmem
    rcases hsum.last_mem with rfl | hlast
    · exact .inl (mem_vars_of_mem_varsAlong (hv ▸ List.mem_cons_self))
    · exact .inr hlast

theorem startsAt_congr {env' : Env} (hkeep : ∀ u, some u ∈ vars → env' u = env u)
    (hs : List.Forall₂ (StartsAt env) vars start) : List.Forall₂ (StartsAt env') vars start := by
  induction hs with
  | nil => exact .nil
  | @cons var x vars start hx _ ih =>
    refine .cons ?_ (ih fun u hu => hkeep u (List.mem_cons_of_mem _ hu))
    cases var with
    | none => exact hx
    | some u => exact (Env.index?_congr (hkeep u List.mem_cons_self)).trans hx

theorem OffsetOf.starts {terms : List Nat} {offset : Offset} {vs : List ValueId}
    (h : OffsetOf vars terms offset vs y) (hnd : y.defined.Nodup)
    (hvars : ∀ u, some u ∈ vars → u ∉ y.defined) (hs : List.Forall₂ (StartsAt env) vars start)
    {env' : Env} (hkeep : ∀ v ∈ vs, env' v = y.after env v) (offsets : List Offset)
    (supplied : List ValueId) :
    y.Quiet ∧ (Offset.supply (offset :: offsets) (vs ++ supplied)).mapM (Window.startAt env') =
      (do return (terms.map fun d => start[d]?.getD 0).sum ::
        (← (Offset.supply offsets supplied).mapM (Window.startAt env'))) := by
  obtain ⟨bs, hbs, hsum⟩ := varsAlong_index hs terms
  cases h with
  | static hv =>
    rw [hv] at hbs
    cases hbs
    refine ⟨Code.quiet_nil, ?_⟩
    rw [← hsum, List.nil_append, Offset.supply, List.mapM_cons]
    rfl
  | @dynamic first v rest _ hv hrest =>
    have hmem : ∀ u ∈ first :: rest, u ∉ y.defined := fun u hu =>
      hvars u (mem_vars_of_mem_varsAlong (hv ▸ hu))
    rw [hv] at hbs
    cases hbs with
    | @cons _ b _ bs hb hbs =>
      refine ⟨hrest.quiet, ?_⟩
      have hindex := hrest.index hnd (fun u hu => hmem u (List.mem_cons_of_mem _ hu)) hb hbs
      rw [← Env.index?_congr (hkeep v List.mem_cons_self)] at hindex
      rw [List.singleton_append, Offset.supply, List.mapM_cons, Window.startAt, hindex, ← hsum,
        List.sum_cons]
      rfl

theorem OffsetsOf.starts {map : OperandMap} {offsets : List Offset} {supplied : List ValueId}
    (h : OffsetsOf vars map offsets supplied y) (hnd : y.defined.Nodup)
    (hvars : ∀ u, some u ∈ vars → u ∉ y.defined) (hs : List.Forall₂ (StartsAt env) vars start) :
    y.Quiet ∧ (Offset.supply offsets supplied).mapM (Window.startAt (y.after env)) =
      some (KernelKind.indexAt map start) := by
  induction h generalizing env with
  | nil => exact ⟨Code.quiet_nil, rfl⟩
  | @cons terms map offset offsets vs supplied y y' hfirst _ ih =>
    simp only [Code.defined_append, List.mem_append, not_or] at hnd hvars
    obtain ⟨hnd, hnd', hdis⟩ := List.nodup_append'.1 hnd
    have hs' := startsAt_congr (fun u hu => y.after_of_not_mem env (hvars u hu).1) hs
    obtain ⟨hquiet', hrest⟩ := ih hnd' (fun u hu => (hvars u hu).2) hs'
    have hkeep : ∀ v ∈ vs, y'.after (y.after env) v = y.after env v := by
      intro v hv
      refine y'.after_of_not_mem _ ?_
      rcases hfirst.supplied_mem v hv with hv | hv
      · exact (hvars v hv).2
      · exact fun hv' => hdis hv hv'
    obtain ⟨hquiet, hstart⟩ := hfirst.starts hnd (fun u hu => (hvars u hu).1) hs hkeep offsets
      supplied
    refine ⟨hquiet.append hquiet', ?_⟩
    rw [Code.after_append, hstart, hrest]
    rfl

structure TileRef (sizes start : List Int) (map : OperandMap) (r tile : Ref) : Prop where
  root : tile.root = r.root
  shape : tile.shape = map.map (span sizes)
  place : ∀ i, i.length = map.length →
    tile.place i = r.place (List.zipWith (· + ·) (KernelKind.indexAt map start) i)

theorem zipWith_zero_add {zeros i : List Int} (hz : ∀ z ∈ zeros, z = 0)
    (hl : zeros.length = i.length) : List.zipWith (· + ·) zeros i = i := by
  induction zeros generalizing i with
  | nil => rw [List.length_eq_zero_iff.1 hl.symm]; rfl
  | cons z zeros ih =>
    obtain ⟨x, xs, rfl⟩ := List.exists_cons_of_length_eq_add_one hl.symm
    obtain ⟨rfl, hz'⟩ := List.forall_mem_cons.1 hz
    rw [List.zipWith_cons_cons, Int.zero_add, ih hz' (by simpa using hl)]

theorem OperandOf.ref {nest : Nest} {operand v : ValueId} {type : BufferType} {map : OperandMap}
    {r : Ref} (h : OperandOf nest vars operand type map y v) (hnd : y.defined.Nodup)
    (hvars : ∀ u, some u ∈ vars → u ∉ y.defined) (hoperand : operand ∉ y.defined)
    (hs : List.Forall₂ (StartsAt env) vars start) (hr : env.ref? operand = some r)
    (hshape : r.shape = type.shape) : y.Quiet ∧ ∃ tile, (y.after env).ref? v = some tile ∧
      TileRef nest.sizes start map r tile := by
  cases h with
  | whole hvars' hsizes =>
    refine ⟨Code.quiet_nil, r, hr, rfl, hshape.trans hsizes.symm, fun i hi => ?_⟩
    rw [zipWith_zero_add _ ((KernelKind.length_indexAt _ _).trans hi.symm)]
    intro z hz
    obtain ⟨terms, hterms, rfl⟩ := List.mem_map.1 hz
    obtain ⟨bs, hbs, hsum⟩ := varsAlong_index hs terms
    rw [hvars' terms hterms] at hbs
    cases hbs
    exact hsum.symm
  | @window offsets supplied y v result op hoffsets hcut hresult =>
    simp only [Code.defined_append, Code.defined_node, Code.defined_nil, List.append_nil,
      List.mem_append, not_or, Node.defined, Node.value, Option.map_some, Option.toList_some,
      List.mem_singleton] at hnd hvars hoperand
    obtain ⟨hnd, -, hdis⟩ := List.nodup_append'.1 hnd
    obtain ⟨hquiet, hoffsets⟩ := hoffsets.starts hnd (fun u hu => (hvars u hu).1) hs
    have hstarts : (windowOf nest map offsets).starts (y.after env) supplied =
        some (KernelKind.indexAt map start) := hoffsets
    have hr' : (y.after env).ref? operand = some r :=
      (Env.ref?_congr (y.after_of_not_mem env hoperand.1)).trans hr
    refine ⟨hquiet.append fun _ => rfl, ⟨r.root, fun i => r.place
      ((windowOf nest map offsets).shift (KernelKind.indexAt map start) i),
      map.map (span nest.sizes)⟩, ?_, rfl, rfl, fun i hi => ?_⟩
    · rw [Code.after_append, Code.after, Code.after, Node.bind_value,
        Node.item_subView op v (.buffer result) hr' hstarts, Env.ref?, Env.set_self]
      rfl
    · exact congrArg r.place (Window.shift_of_ones (by simp [windowOf]) (by simp [windowOf, hi]))

theorem OperandOf.mem {nest : Nest} {operand v : ValueId} {type : BufferType} {map : OperandMap}
    (h : OperandOf nest vars operand type map y v) : v = operand ∨ v ∈ y.defined := by
  cases h with
  | whole => exact .inl rfl
  | window op => exact .inr (by simp [Node.defined, Node.value])

abbrev TileRefs (sizes start : List Int) (maps : List OperandMap) (refs tiles : List Ref) : Prop :=
  List.Forall₂ (fun x tile => TileRef sizes start x.2 x.1 tile) (refs.zip maps) tiles

theorem OperandsOf.refs {nest : Nest} {all : List (ValueId × BufferType × OperandMap)}
    {vs : List ValueId} {refs : List Ref} (h : OperandsOf nest vars all y vs)
    (hnd : y.defined.Nodup) (hvars : ∀ u, some u ∈ vars → u ∉ y.defined)
    (hall : ∀ x ∈ all, x.1 ∉ y.defined) (hs : List.Forall₂ (StartsAt env) vars start)
    (hrefs : List.Forall₂ (fun x r => env.ref? x.1 = some r ∧ r.shape = x.2.1.shape) all refs) :
    y.Quiet ∧ ∃ tiles, vs.mapM (y.after env).ref? = some tiles ∧
      TileRefs nest.sizes start (all.map (·.2.2)) refs tiles := by
  induction h generalizing env refs with
  | nil =>
    cases hrefs
    exact ⟨Code.quiet_nil, [], rfl, .nil⟩
  | @cons operand v type map rest y y' vs hfirst _ ih =>
    simp only [Code.defined_append, List.mem_append, not_or] at hnd hvars hall
    obtain ⟨hnd, hnd', hdis⟩ := List.nodup_append'.1 hnd
    obtain ⟨⟨hself, hself'⟩, hall⟩ := List.forall_mem_cons.1 hall
    cases hrefs with
    | @cons _ r _ refs hr hrefs =>
      obtain ⟨hquiet, tile, htile, hplace⟩ := hfirst.ref hnd (fun u hu => (hvars u hu).1) hself hs
        hr.1 hr.2
      have hs' := startsAt_congr (fun u hu => y.after_of_not_mem env (hvars u hu).1) hs
      have hrefs' : List.Forall₂ (fun x r => (y.after env).ref? x.1 = some r ∧
          r.shape = x.2.1.shape) rest refs := by
        refine List.forall₂_iff_get.2 ⟨hrefs.length_eq, fun i hi hi' => ?_⟩
        obtain ⟨hget, hshape⟩ := (List.forall₂_iff_get.1 hrefs).2 i hi hi'
        exact ⟨(Env.ref?_congr (y.after_of_not_mem env (hall _ (List.get_mem _ _)).1)).trans hget,
          hshape⟩
      obtain ⟨hquiet', tiles, htiles, hplaces⟩ := ih hnd' (fun u hu => (hvars u hu).2)
        (fun x hx => (hall x hx).2) hs' hrefs'
      have hv : v ∉ y'.defined := by
        rcases hfirst.mem with rfl | hv
        · exact hself'
        · exact hdis hv
      have hlast : (y'.after (y.after env)).ref? v = some tile :=
        (Env.ref?_congr (y'.after_of_not_mem _ hv)).trans htile
      refine ⟨hquiet.append hquiet', tile :: tiles, ?_, .cons hplace hplaces⟩
      rw [Code.after_append, List.mapM_cons, hlast, htiles]
      rfl

theorem TileRefs.shapes {sizes : List Int} {maps : List OperandMap} {refs tiles : List Ref}
    (h : TileRefs sizes start maps refs tiles) (hlen : refs.length = maps.length) :
    tiles.map (·.shape) = maps.map fun map => map.map (span sizes) := by
  induction maps generalizing refs tiles with
  | nil =>
    obtain rfl := List.length_eq_zero_iff.1 hlen
    cases h
    rfl
  | cons map maps ih =>
    obtain ⟨r, refs, rfl⟩ := List.exists_cons_of_length_eq_add_one hlen
    cases h with
    | cons hfirst hrest =>
      rw [List.map_cons, List.map_cons, hfirst.shape, ih hrest (by simpa using hlen)]

theorem TileRefs.cells {sizes point : List Int} {maps : List OperandMap} {refs tiles : List Ref}
    (h : TileRefs sizes start maps refs tiles) (hlen : refs.length = maps.length)
    (hpoint : start.length = point.length) :
    List.zipWith (fun r map => Ref.cell r (KernelKind.indexAt map point)) tiles maps =
      List.zipWith (fun r map => Ref.cell r
        (KernelKind.indexAt map (List.zipWith (· + ·) start point))) refs maps := by
  induction maps generalizing refs tiles with
  | nil =>
    obtain rfl := List.length_eq_zero_iff.1 hlen
    cases h
    rfl
  | cons map maps ih =>
    obtain ⟨r, refs, rfl⟩ := List.exists_cons_of_length_eq_add_one hlen
    cases h with
    | @cons _ tile _ tiles hfirst hrest =>
      have hcell : Ref.cell tile (KernelKind.indexAt map point) = Ref.cell r
          (KernelKind.indexAt map (List.zipWith (· + ·) start point)) := by
        rw [Ref.cell, Ref.cell, hfirst.root, hfirst.place _ (KernelKind.length_indexAt _ _),
          KernelKind.indexAt_add map hpoint]
      rw [List.zipWith_cons_cons, List.zipWith_cons_cons, hcell, ih hrest (by simpa using hlen)]

variable {kind : KernelKind} {sizes : List Int} {refs tiles : List Ref}

theorem TileRefs.updates (h : TileRefs sizes start kind.operandMaps refs tiles)
    (hlen : refs.length = 3) (hstart : start.length = sizes.length)
    (hsizes : kind.extentsOf (kind.operandMaps.map fun map => map.map (span sizes)) =
      .ok (some sizes)) :
    kind.updates tiles =
      (box sizes).map fun point => kind.updateAt refs (List.zipWith (· + ·) start point) := by
  rw [KernelKind.updates, h.shapes (by rw [hlen, KernelKind.length_operandMaps]),
    KernelKind.points, hsizes]
  refine List.map_congr_left fun point hp => ?_
  exact h.cells (by rw [hlen, KernelKind.length_operandMaps])
    (hstart.trans (length_of_mem_box hp).symm)

end Straight

section Loops

variable {nest : Nest} {env : Env} {vars vars' : LoopVars} {start : List Int}
  {gs : List (List Nat)} {loops : List Node}

def place (start : List Int) (dims : List Nat) (is : List Int) : List Int :=
  (dims.zip is).foldl (fun start (d, i) => start.set d i) start

def steps (nest : Nest) (d : Nat) : List Int := ((nest.ranges[d]?).map LoopRange.values).getD []

def startsOf (nest : Nest) : List (List Nat) → List Int → List (List Int)
  | [], start => [start]
  | dims :: gs, start =>
    (tuples (dims.map (steps nest))).flatMap fun is => startsOf nest gs (place start dims is)

theorem startsAt_set {v : ValueId} {i : Int} (hs : List.Forall₂ (StartsAt env) vars start)
    (hv : some v ∉ vars) (d : Nat) :
    List.Forall₂ (StartsAt (env.set v (some (.index i)))) (vars.set d (some v)) (start.set d i) := by
  induction hs generalizing d with
  | nil => exact .nil
  | @cons var x vars start hx hs ih =>
    simp only [List.mem_cons, not_or] at hv
    have hkeep : ∀ u, some u ∈ var :: vars → env.set v (some (.index i)) u = env u := by
      intro u hu
      refine env.set_of_ne _ ?_
      rintro rfl
      rcases List.mem_cons.1 hu with hu | hu
      · exact hv.1 hu
      · exact hv.2 hu
    cases d with
    | zero =>
      refine .cons (by simp [StartsAt, Env.index?, Item.index?]) ?_
      exact startsAt_congr (fun u hu => hkeep u (List.mem_cons_of_mem _ hu)) hs
    | succ d =>
      cases startsAt_congr hkeep (.cons hx hs) with
      | cons hx' _ => exact .cons hx' (ih hv.2 d)

theorem startsAt_assign {dims : List Nat} {vs : List ValueId} {is : List Int}
    (hs : List.Forall₂ (StartsAt env) vars start) (hvs : vs.length = dims.length)
    (his : is.length = dims.length) (hnd : vs.Nodup) (hfresh : ∀ u, some u ∈ vars → u ∉ vs) :
    List.Forall₂ (StartsAt (env.setAll vs is)) (assign vars dims vs) (place start dims is) := by
  induction dims generalizing env vars start vs is with
  | nil =>
    rw [List.length_eq_zero_iff.1 hvs, List.length_eq_zero_iff.1 his]
    exact hs
  | cons d dims ih =>
    obtain ⟨v, vs, rfl⟩ := List.exists_cons_of_length_eq_add_one hvs
    obtain ⟨i, is, rfl⟩ := List.exists_cons_of_length_eq_add_one his
    obtain ⟨hv, hnd⟩ := List.nodup_cons.1 hnd
    have hnot : some v ∉ vars := fun hmem => hfresh v hmem List.mem_cons_self
    refine ih (startsAt_set hs hnot d) (by simpa using hvs) (by simpa using his) hnd ?_
    intro u hu
    rcases List.mem_or_eq_of_mem_set hu with hu | hu
    · exact fun h => hfresh u hu (List.mem_cons_of_mem _ h)
    · cases hu
      exact hv

theorem mem_assign {dims : List Nat} {vs : List ValueId} {u : ValueId}
    (h : some u ∈ assign vars dims vs) : some u ∈ vars ∨ u ∈ vs := by
  induction dims generalizing vars vs with
  | nil => exact .inl h
  | cons d dims ih =>
    cases vs with
    | nil => exact .inl h
    | cons v vs =>
      rcases ih h with h | h
      · exact (List.mem_or_eq_of_mem_set h).imp_right fun h => by cases h; exact List.mem_cons_self
      · exact .inr (List.mem_cons_of_mem _ h)

theorem LoopsOf.mem_vars (h : LoopsOf nest gs vars loops vars') {u : ValueId}
    (hu : some u ∈ vars') : some u ∈ vars ∨ u ∈ loops.flatMap Node.defined := by
  induction h with
  | nil => exact .inl hu
  | cons op _ _ _ _ ih =>
    simp only [List.flatMap_cons, List.mem_append]
    rcases ih hu with h | h
    · exact (mem_assign h).imp_right .inl
    · exact .inr (.inr h)

theorem LoopsOf.isLoop (h : LoopsOf nest gs vars loops vars') : ∀ hd ∈ loops, hd.kind.isLoop := by
  induction h with
  | nil => simp
  | cons op hloop _ _ _ ih => exact List.forall_mem_cons.2 ⟨hloop, ih⟩

theorem iterations_eq {kind : OpKind} {dims : List Nat} (hloop : kind.isLoop = true)
    (hranges : kind.loopRanges.map some = dims.map fun d => nest.ranges[d]?) :
    kind.iterations = tuples (dims.map (steps nest)) := by
  have hmap := congrArg (List.map fun r : Option LoopRange => (r.map LoopRange.values).getD [])
    hranges
  rw [List.map_map, List.map_map] at hmap
  rw [OpKind.iterations, if_pos hloop]
  exact congrArg tuples hmap

theorem forall₂_flatMap {α β γ : Type} {R : β → γ → Prop} {xs : List α} {g : α → List β}
    {g' : α → List γ} (h : ∀ x ∈ xs, List.Forall₂ R (g x) (g' x)) :
    List.Forall₂ R (xs.flatMap g) (xs.flatMap g') := by
  induction xs with
  | nil => exact .nil
  | cons x xs ih =>
    rw [List.forall_mem_cons] at h
    exact List.rel_append h.1 (ih h.2)

theorem LoopsOf.envs (h : LoopsOf nest gs vars loops vars')
    (hnd : (loops.flatMap Node.defined).Nodup)
    (hfresh : ∀ u, some u ∈ vars → u ∉ loops.flatMap Node.defined)
    (hs : List.Forall₂ (StartsAt env) vars start) :
    List.Forall₂ (fun inner start' => List.Forall₂ (StartsAt inner) vars' start' ∧
      ∀ u ∉ loops.flatMap Node.defined, inner u = env u)
      (Code.envs loops env) (startsOf nest gs start) := by
  induction h generalizing env start with
  | nil => exact .cons ⟨hs, fun _ _ => rfl⟩ .nil
  | @cons dims gs vars vars' loops kind vs op hloop hranges hvars _ ih =>
    simp only [List.flatMap_cons, Node.defined, Node.loop, Option.map_none, Option.toList_none,
      List.nil_append, List.mem_append, not_or] at hnd hfresh ⊢
    obtain ⟨hndv, hnd, hdis⟩ := List.nodup_append'.1 hnd
    rw [Code.envs, iterations_eq hloop hranges, startsOf]
    refine forall₂_flatMap fun is his => ?_
    have hlen : is.length = dims.length := by
      simpa using (mem_tuples.1 his).length_eq
    have hassign := startsAt_assign hs hvars hlen hndv fun u hu => (hfresh u hu).1
    refine (ih hnd ?_ hassign).imp fun inner start' hinner => ⟨hinner.1, fun u hu => ?_⟩
    · intro u hu
      rcases mem_assign hu with hu | hu
      · exact (hfresh u hu).2
      · exact hdis hu
    · exact (hinner.2 u hu.2).trans (Env.setAll_of_not_mem env hu.1)

end Loops

section Nests

variable {t : Tiling} {plan : TilePlan} {operands : List ValueId} {nest : Nest} {y : Code}
  {env : Env} {refs : List Ref}

/-- The operands of a kernel are buffers of the shapes that its plan is for. -/
structure Bound (env : Env) (operands : List ValueId) (types : List BufferType)
    (refs : List Ref) : Prop where
  bound : List.Forall₂ (fun v r => env.ref? v = some r) operands refs
  shapes : List.Forall₂ (fun r type => r.shape = type.shape) refs types

theorem forall₂_ref?_congr {env' : Env}
    (h : List.Forall₂ (fun v r => env.ref? v = some r) operands refs)
    (hkeep : ∀ v ∈ operands, env' v = env v) :
    List.Forall₂ (fun v r => env'.ref? v = some r) operands refs := by
  refine List.forall₂_iff_get.2 ⟨h.length_eq, fun i hi hi' => ?_⟩
  have hget := (List.forall₂_iff_get.1 h).2 i hi hi'
  exact (Env.ref?_congr (hkeep _ (List.get_mem _ _))).trans hget

theorem Bound.congr {types : List BufferType} {env' : Env} (h : Bound env operands types refs)
    (hkeep : ∀ v ∈ operands, env' v = env v) : Bound env' operands types refs :=
  ⟨forall₂_ref?_congr h.bound hkeep, h.shapes⟩

theorem Bound.zip {types : List BufferType} {maps : List OperandMap}
    (h : Bound env operands types refs) (hlen : types.length = maps.length) :
    List.Forall₂ (fun x r => env.ref? x.1 = some r ∧ r.shape = x.2.1.shape)
      (operands.zip (types.zip maps)) refs ∧
        (operands.zip (types.zip maps)).map (·.2.2) = maps := by
  obtain ⟨hbound, hshapes⟩ := h
  induction hbound generalizing types maps with
  | nil =>
    cases hshapes
    exact ⟨.nil, (List.length_eq_zero_iff.1 hlen.symm).symm⟩
  | cons hr _ ih =>
    cases hshapes with
    | cons hshape hshapes =>
      obtain ⟨map, maps, rfl⟩ := List.exists_cons_of_length_eq_add_one hlen.symm
      obtain ⟨hall, hmaps⟩ := ih (by simpa using hlen) hshapes
      exact ⟨.cons ⟨hr, hshape⟩ hall, congrArg (map :: ·) hmaps⟩

theorem defined_within (loops : List Node) (x : Code) :
    (Code.within loops x).defined = loops.flatMap Node.defined ++ x.defined := by
  rw [Code.defined, Code.heads_within, List.flatMap_append]
  rfl

def zeros (plan : TilePlan) : List Int := plan.extents.map fun _ => 0

theorem startsAt_none (env : Env) (plan : TilePlan) :
    List.Forall₂ (StartsAt env) (plan.extents.map fun _ => none) (zeros plan) := by
  rw [zeros, List.forall₂_map_left_iff, List.forall₂_map_right_iff]
  exact List.forall₂_same.2 fun _ _ => rfl

theorem forall₂_flatMap_of_forall₂ {α β γ δ : Type} {R : α → β → Prop} {S : γ → δ → Prop}
    {xs : List α} {ys : List β} {g : α → List γ} {g' : β → List δ} (h : List.Forall₂ R xs ys)
    (hg : ∀ x y, R x y → List.Forall₂ S (g x) (g' y)) :
    List.Forall₂ S (xs.flatMap g) (ys.flatMap g') := by
  induction h with
  | nil => exact .nil
  | cons hx _ ih => exact List.rel_append (hg _ _ hx) ih

theorem LoopsOf.not_mem_vars {loops : List Node} {vars : LoopVars}
    (h : LoopsOf nest (t.groups plan) (plan.extents.map fun _ => none) loops vars)
    (hdis : (loops.flatMap Node.defined).Disjoint y.defined) : ∀ u, some u ∈ vars → u ∉ y.defined := by
  intro u hu
  rcases h.mem_vars hu with hu | hu
  · simp at hu
  · exact fun h => hdis hu h

theorem OperandsOf.tiles {vars : LoopVars} {tiled : List ValueId} {start : List Int}
    (h : OperandsOf nest vars (operands.zip (plan.operandTypes.zip t.kind.operandMaps)) y tiled)
    (hnd : y.defined.Nodup) (hvars : ∀ u, some u ∈ vars → u ∉ y.defined)
    (hops : ∀ v ∈ operands, v ∉ y.defined) (hs : List.Forall₂ (StartsAt env) vars start)
    (hb : Bound env operands plan.operandTypes refs) (hlen : plan.operandTypes.length = 3) :
    y.Quiet ∧ ∃ tiles, tiled.mapM (y.after env).ref? = some tiles ∧
      TileRefs nest.sizes start t.kind.operandMaps refs tiles := by
  obtain ⟨hall, hmaps⟩ := hb.zip (hlen.trans t.kind.length_operandMaps.symm)
  obtain ⟨hquiet, tiles, htiles, hplaces⟩ := h.refs hnd hvars
    (fun x hx => hops _ (List.of_mem_zip hx).1) hs hall
  exact ⟨hquiet, tiles, htiles, hmaps ▸ hplaces⟩

theorem LoopsOf.tiles {loops : List Node} {vars : LoopVars} {tiled : List ValueId}
    (hloops : LoopsOf nest (t.groups plan) (plan.extents.map fun _ => none) loops vars)
    (htiled : OperandsOf nest vars (operands.zip (plan.operandTypes.zip t.kind.operandMaps)) y tiled)
    (hnd : (loops.flatMap Node.defined ++ y.defined).Nodup)
    (hops : ∀ v ∈ operands, v ∉ loops.flatMap Node.defined ∧ v ∉ y.defined)
    (hb : Bound env operands plan.operandTypes refs) (hlen : plan.operandTypes.length = 3) :
    List.Forall₂ (fun inner start => y.Quiet ∧ ∃ tiles, tiled.mapM (y.after inner).ref? = some tiles ∧
        TileRefs nest.sizes start t.kind.operandMaps refs tiles)
      (Code.envs loops env) (startsOf nest (t.groups plan) (zeros plan)) := by
  obtain ⟨hndl, hndy, hdis⟩ := List.nodup_append'.1 hnd
  refine (hloops.envs hndl (by simp) (startsAt_none env plan)).imp fun inner start hinner => ?_
  exact htiled.tiles hndy (hloops.not_mem_vars hdis) (fun v hv => (hops v hv).2) hinner.1
    (hb.congr fun v hv => hinner.2 v (hops v hv).1) hlen

theorem trace_kernel {hd : Node} {x : Code} {kind : KernelKind} {env : Env} {refs : List Ref}
    (hkind : hd.kind = .kernel kind) (h : hd.operands.mapM env.ref? = some refs) :
    (Code.node hd x .nil).trace env = [.kernel kind refs] := by
  simp [Code.trace, Node.actions, hkind, h, OpKind.iterations, OpKind.isLoop]

theorem NestOf.trace (h : NestOf t plan operands nest y) (hnd : y.defined.Nodup)
    (hops : ∀ v ∈ operands, v ∉ y.defined) (hb : Bound env operands plan.operandTypes refs)
    (hlen : plan.operandTypes.length = 3) :
    List.Forall₂ (fun action start => ∃ tiles, action = .kernel t.kind tiles ∧
        TileRefs nest.sizes start t.kind.operandMaps refs tiles)
      (y.trace env) (startsOf nest (t.groups plan) (zeros plan)) := by
  cases h with
  | @intro loops vars y tiled op hloops htiled _ =>
    simp only [defined_within, Code.defined_append, List.mem_append, not_or] at hnd hops
    rw [← List.append_assoc] at hnd
    have hinner := hloops.tiles htiled (List.nodup_append'.1 hnd).1
      (fun v hv => ⟨(hops v hv).1, (hops v hv).2.1⟩) hb hlen
    rw [Code.trace_within hloops.isLoop, ← List.flatMap_singleton' (startsOf _ _ _)]
    refine forall₂_flatMap_of_forall₂ hinner ?_
    rintro inner start ⟨hquiet, tiles, htiles, hplaces⟩
    rw [Code.trace_append, hquiet, List.nil_append, trace_kernel rfl htiles]
    exact .cons ⟨tiles, rfl, hplaces⟩ .nil

end Nests

end Tiling

end KernelLowering
