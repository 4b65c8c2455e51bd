import KernelLowering.Proofs.Folding.Views
import KernelLowering.Proofs.Simulation.Values

namespace KernelLowering

theorem zipWith_add_assoc (xs ys zs : List Int) : List.zipWith (· + ·) xs (List.zipWith (· + ·) ys zs) =
    List.zipWith (· + ·) (List.zipWith (· + ·) xs ys) zs := by
  induction xs generalizing ys zs with
  | nil => rfl
  | cons x xs ih =>
    cases ys with
    | nil => rfl
    | cons y ys =>
      cases zs with
      | nil => rfl
      | cons z zs => simp only [List.zipWith_cons_cons, ih, Int.add_assoc]

theorem Window.starts_eq_some {w : Window} {env : Env} {supplied : List ValueId} {is : List Int} :
    w.starts env supplied = some is ↔
      List.Forall₂ (fun o i => startAt env o = some i) (Offset.supply w.offsets supplied) is := by
  rw [starts]
  generalize Offset.supply w.offsets supplied = sources
  induction sources generalizing is with
  | nil => cases is <;> simp
  | cons source sources ih =>
    cases is with
    | nil => simp [Option.bind_eq_some_iff]
    | cons i is => simp [Option.bind_eq_some_iff, ih]

theorem Code.after_of_bound {x : Code} {env : Env} (hun : x.Unbound env) {v : ValueId} {item : Item}
    (hv : env v = some item) : x.after env v = some item :=
  (x.after_of_not_mem env fun hm => by cases (hun v hm).symm.trans hv).trans hv

theorem Window.startAt_of_kept {env env' : Env} (hkeep : ∀ v item, env v = some item → env' v = some item)
    {o : SuppliedOffset ValueId} {i : Int} (h : startAt env o = some i) : startAt env' o = some i := by
  cases o with
  | supplied v => exact Env.index?_eq_some.2 (hkeep v _ (Env.index?_eq_some.1 h))
  | _ => exact h

namespace ViewFolding

variable {env : Env} {w w' : Window} {starts starts' : List Int}

theorem index?_shifted {op op' : OpId} {u c v : ValueId} {n shift : Int}
    (hun : (Code.node (.value op (.constant shift) [] c .index) .nil
      (.node (.value op' .addIndex [u, c] v .index) .nil .nil)).Unbound env)
    (hu : env.index? u = some n) :
    ((Code.node (.value op (.constant shift) [] c .index) .nil
      (.node (.value op' .addIndex [u, c] v .index) .nil .nil)).after env).index? v = some (n + shift) := by
  have hc : u ≠ c := by
    rintro rfl
    have hnone := hun u (by simp [Node.defined, Node.value])
    rw [Env.index?, hnone] at hu
    cases hu
  have hu' : (env.set c (some (.index shift))).index? u = some n :=
    (Env.index?_congr (env.set_of_ne _ hc)).trans hu
  have hc' : (env.set c (some (.index shift))).index? c = some shift :=
    Env.index?_eq_some.2 (env.set_self c _)
  refine Env.index?_eq_some.2 ((Env.set_self _ v _).trans ?_)
  show (Node.value op' .addIndex [u, c] v .index).item (env.set c (some (.index shift))) = _
  simp [Node.item, Node.value, hu', hc']

theorem Summed.startAt {o o' : SuppliedOffset ValueId} {y : Code} {offset : Offset} {vs : List ValueId}
    {n n' : Int} (h : Summed o o' y offset vs) (hun : y.Unbound env) (ho : Window.startAt env o = some n)
    (ho' : Window.startAt env o' = some n') {env' : Env}
    (hkeep : ∀ v item, y.after env v = some item → env' v = some item) (offsets : List Offset)
    (rest : List ValueId) :
    ∃ s, Offset.supply (offset :: offsets) (vs ++ rest) = s :: Offset.supply offsets rest ∧
      Window.startAt env' s = some (n + n') := by
  have hindex : ∀ {v i}, (y.after env).index? v = some i → env'.index? v = some i := fun hv =>
    Env.index?_eq_some.2 (hkeep _ _ (Env.index?_eq_some.1 hv))
  cases h with
  | static =>
    cases ho
    cases ho'
    exact ⟨_, rfl, rfl⟩
  | outer u =>
    cases ho'
    rw [Int.add_zero]
    exact ⟨_, rfl, hindex ho⟩
  | inner u =>
    cases ho
    rw [Int.zero_add]
    exact ⟨_, rfl, hindex ho'⟩
  | outerShifted op op' c v hb =>
    cases ho'
    exact ⟨_, rfl, hindex (index?_shifted hun ho)⟩
  | innerShifted op op' c v ha =>
    cases ho
    rw [Int.add_comm]
    exact ⟨_, rfl, hindex (index?_shifted hun ho')⟩
  | both u u' op v =>
    have hu : env.index? u = some n := ho
    have hu' : env.index? u' = some n' := ho'
    refine ⟨_, rfl, hindex (Env.index?_eq_some.2 ((env.set_self v _).trans ?_))⟩
    simp [Node.item, Node.value, hu, hu', Int.add_comm]

theorem SummedAll.startAt {dims : List (SuppliedOffset ValueId × SuppliedOffset ValueId)}
    {y : Code} {offsets : List Offset} {supplied : List ValueId} (h : SummedAll dims y offsets supplied)
    (hnd : y.defined.Nodup) (hun : y.Unbound env)
    (ho : List.Forall₂ (fun o i => Window.startAt env o = some i) (dims.map (·.1)) starts)
    (ho' : List.Forall₂ (fun o i => Window.startAt env o = some i) (dims.map (·.2)) starts') :
    List.Forall₂ (fun o i => Window.startAt (y.after env) o = some i) (Offset.supply offsets supplied)
      (List.zipWith (· + ·) starts starts') := by
  induction h generalizing env starts starts' with
  | nil =>
    cases ho
    cases ho'
    exact .nil
  | @cons o o' dims y y' offset offsets vs supplied hfirst _ ih =>
    obtain ⟨n, starts, hn, hstarts, rfl⟩ := List.forall₂_cons_left_iff.1 ho
    obtain ⟨n', starts', hn', hstarts', rfl⟩ := List.forall₂_cons_left_iff.1 ho'
    obtain ⟨huny, huny'⟩ := Code.unbound_append.1 hun
    have hunafter := Code.unbound_after huny' hnd
    rw [Code.defined_append] at hnd
    have hkeep : ∀ o i, Window.startAt env o = some i → Window.startAt (y.after env) o = some i :=
      fun o i => Window.startAt_of_kept fun v item => Code.after_of_bound huny
    rw [Code.after_append, List.zipWith_cons_cons]
    obtain ⟨s, hs, hat⟩ := hfirst.startAt huny hn hn' (fun v item => Code.after_of_bound hunafter)
      offsets supplied
    rw [hs]
    exact .cons hat (ih (List.nodup_append'.1 hnd).2.1 hunafter (hstarts.imp hkeep) (hstarts'.imp hkeep))

theorem shift_combined (hones : ∀ stride ∈ w'.strides, stride = 1)
    (hlen : starts.length ≤ w'.strides.length) (offsets : List Offset) (i : List Int) :
    w'.shift starts' (w.shift starts i) =
      (combined w offsets).shift (List.zipWith (· + ·) starts starts') i := by
  have hle : (w.shift starts i).length ≤ w'.strides.length := by
    rw [Window.shift, List.length_zipWith]
    exact (Nat.min_le_left _ _).trans hlen
  have hcomm : List.zipWith (· + ·) starts' starts = List.zipWith (· + ·) starts starts' :=
    List.zipWith_comm_of_comm Int.add_comm
  rw [Window.shift_of_ones hones hle, Window.shift, zipWith_add_assoc, hcomm]
  rfl

theorem embeds_combined {shape : Shape} (hones : ∀ stride ∈ w'.strides, stride = 1)
    (hlen : starts.length ≤ w'.strides.length) (hw : w.Embeds starts w'.sizes)
    (hw' : w'.Embeds starts' shape) (offsets : List Offset) :
    (combined w offsets).Embeds (List.zipWith (· + ·) starts starts') shape := by
  refine ⟨fun i hi => ?_, fun i hi j hj hij => ?_⟩
  · rw [← shift_combined hones hlen]
    exact hw'.inside _ (hw.inside i hi)
  · rw [← shift_combined hones hlen, ← shift_combined hones hlen] at hij
    exact hw.distinct i hi j hj (hw'.distinct _ (hw.inside i hi) _ (hw.inside j hj) hij)

section Rewriting

variable {f g : Function} {k : Spine} {b x z y c : Code} {hd inner : Node} {u source : ValueId}
  {supplied supplied' : List ValueId} {type : BufferType}

theorem equipped_of_typed {h : Node} (ht : h.Typed f) : Equipped f h := by
  intro w hkind
  obtain ⟨source, supplied, v, type, below, hops, hres, hbelow, -, hcount, -⟩ := ht.of_subView hkind
  exact ⟨source, supplied, v, type, below, hops, hres, hbelow, hcount⟩

theorem SummedAll.typed {dims : List (SuppliedOffset ValueId × SuppliedOffset ValueId)}
    {offsets : List Offset} {vs : List ValueId} (h : SummedAll dims y offsets vs)
    (hdims : ∀ d ∈ dims, (∀ u, d.1 = .supplied u → g.Has u) ∧ ∀ u, d.2 = .supplied u → g.Has u)
    (hy : ∀ v ∈ y.defined, g.Has v) : (∀ h ∈ y.heads, h.Typed g) ∧ ∀ v ∈ vs, g.Has v := by
  induction h with
  | nil => exact ⟨by simp [Code.heads], by simp⟩
  | cons hfirst _ ih =>
    rw [List.forall_mem_cons] at hdims
    rw [Code.defined_append, List.forall_mem_append] at hy
    rw [Code.heads_append, List.forall_mem_append, List.forall_mem_append]
    obtain ⟨hrest, hvs⟩ := ih hdims.2 hy.2
    obtain ⟨⟨ho, ho'⟩, -⟩ := hdims
    have hhas := hy.1
    cases hfirst with
    | static => exact ⟨⟨by simp [Code.heads], hrest⟩, by simp, hvs⟩
    | outer u => exact ⟨⟨by simp [Code.heads], hrest⟩, List.forall_mem_singleton.2 (ho u rfl), hvs⟩
    | inner u => exact ⟨⟨by simp [Code.heads], hrest⟩, List.forall_mem_singleton.2 (ho' u rfl), hvs⟩
    | outerShifted op op' c v =>
      simp only [Code.defined_node, Code.defined_nil, Node.defined, Node.value, List.append_nil,
        Option.map_some, Option.toList_some, List.nil_append, List.singleton_append,
        List.forall_mem_cons] at hhas
      simp only [Code.heads, List.nil_append, List.forall_mem_cons]
      exact ⟨⟨⟨.constant op _ c, .addIndex op' v (ho _ rfl) hhas.1, by simp⟩, hrest⟩,
        ⟨hhas.2.1, by simp⟩, hvs⟩
    | innerShifted op op' c v =>
      simp only [Code.defined_node, Code.defined_nil, Node.defined, Node.value, List.append_nil,
        Option.map_some, Option.toList_some, List.nil_append, List.singleton_append,
        List.forall_mem_cons] at hhas
      simp only [Code.heads, List.nil_append, List.forall_mem_cons]
      exact ⟨⟨⟨.constant op _ c, .addIndex op' v (ho' _ rfl) hhas.1, by simp⟩, hrest⟩,
        ⟨hhas.2.1, by simp⟩, hvs⟩
    | both u u' op v =>
      simp only [Code.defined_node, Code.defined_nil, Node.defined, Node.value, List.append_nil,
        Option.map_some, Option.toList_some, List.forall_mem_singleton] at hhas
      simp only [Code.heads, List.nil_append, List.forall_mem_cons]
      exact ⟨⟨⟨.addIndex op v (ho' _ rfl) (ho _ rfl), by simp⟩, hrest⟩, ⟨hhas, by simp⟩, hvs⟩

theorem Ready.chain (hready : Ready f c hd inner w w' u source supplied supplied' type)
    (hinformed : env.Informed f c) {r : Ref} (hr : env.ref? u = some r) :
    ∃ s starts', env.ref? source = some s ∧ w'.starts env supplied' = some starts' ∧
      w'.Embeds starts' s.shape ∧ r = ⟨s.root, fun i => s.place (w'.shift starts' i), w'.sizes⟩ := by
  obtain ⟨hinner, t, hres⟩ := Code.of_definer? hready.definer
  have hbound := Env.ref?_eq_some.1 hr
  have hitem := hinformed.computed inner hinner u t _ hres hbound
  have hfit := hinformed.made inner hinner u t hres (hbound ▸ Option.some_ne_none _)
  obtain ⟨source', us, s, starts', hops, hsource, hstarts, hembeds⟩ := hfit.shows w' hready.innerKind
  rw [hready.innerOperands, List.cons.injEq] at hops
  obtain ⟨rfl, rfl⟩ := hops
  refine ⟨s, starts', hsource, hstarts, hembeds, ?_⟩
  simp only [Node.item, hready.innerKind, hready.innerOperands, hsource, hstarts, Option.bind_eq_bind,
    Option.bind_some, Option.pure_def, Option.some.injEq, Item.buffer.injEq] at hitem
  exact hitem.symm

theorem Ready.starts_combined (hready : Ready f c hd inner w w' u source supplied supplied' type)
    (hinformed : env.Informed f c) (hinner : inner.Typed f)
    (hlength : w.offsets.length = w'.sizes.length) (hones : ∀ stride ∈ w'.strides, stride = 1)
    {offsets : List Offset} {vs : List ValueId}
    (hsums : SummedAll ((Offset.supply w.offsets supplied).zip (Offset.supply w'.offsets supplied')) y
      offsets vs) (hnd : y.defined.Nodup) (hun : y.Unbound env) {r : Ref} (hr : env.ref? u = some r)
    {starts : List Int} (hstarts : w.starts env supplied = some starts) :
    ∃ s sums, (y.after env).ref? source = some s ∧
      (combined w offsets).starts (y.after env) vs = some sums ∧
        (fun i => r.place (w.shift starts i)) =
          (fun i => s.place ((combined w offsets).shift sums i)) ∧ r.root = s.root ∧
            (w.Embeds starts r.shape → (combined w offsets).Embeds sums s.shape) := by
  obtain ⟨s, starts', hsource, hstarts', hembeds, rfl⟩ := hready.chain hinformed hr
  obtain ⟨-, -, -, -, -, -, -, -, -, -, hoffsets, hstrides, -⟩ := hinner.of_subView hready.innerKind
  rw [Window.starts_eq_some] at hstarts hstarts'
  have hlen : starts.length ≤ w'.strides.length := by
    rw [← hstarts.length_eq, Offset.length_supply, hlength, hstrides]
  have hdims : (Offset.supply w.offsets supplied).length = (Offset.supply w'.offsets supplied').length := by
    rw [Offset.length_supply, Offset.length_supply, hlength, hoffsets]
  have hsum := hsums.startAt hnd hun ((List.map_fst_zip hdims.le).symm ▸ hstarts)
    ((List.map_snd_zip hdims.ge).symm ▸ hstarts')
  refine ⟨s, _, Env.ref?_eq_some.2 (Code.after_of_bound hun (Env.ref?_eq_some.1 hsource)),
    Window.starts_eq_some.2 hsum, ?_, rfl, fun hw => embeds_combined hones hlen hw hembeds offsets⟩
  funext i
  exact congrArg s.place (shift_combined hones hlen offsets i)

theorem gives_refinement (hs : f.Sound (k.plug (b ++ .node hd x z))) :
    (Rule.viewFolding.apply f hd.op).Gives True fun g =>
      ∃ c, f.Improves g (k.plug (b ++ .node hd x z)) c := by
  rw [Rule.apply, Inspect.gives_bind]
  refine (gives_check hs.represents fun h hh => equipped_of_typed (hs.typed h hh)).mono ?_
  rintro - - ⟨inner, w, w', u, source, supplied, supplied', type, hready, hlength, hones⟩
  rw [Inspect.gives_lift]
  refine (yields_perform hs.represents hready).mono ?_
  rintro g - ⟨y, offsets, vs, op, v, result, hsums, hresult, hsplice⟩
  have hinner := hs.typed inner (Code.of_definer? hready.definer).1
  obtain ⟨u', us, r, t, -, hops, hres, -, hhas, -, hoffsets, hstrides, -⟩ :=
    hs.typed_at.of_subView hready.kind
  obtain ⟨source', us', -, -, -, hops', -, -, hhas', -, hoffsets', -⟩ :=
    hinner.of_subView hready.innerKind
  rw [hready.operands, List.cons.injEq] at hops
  rw [hready.innerOperands, List.cons.injEq] at hops'
  obtain ⟨⟨rfl, rfl⟩, rfl, rfl⟩ := And.intro hops hops'
  rw [hd.redirect_of_result hres] at hsplice
  set new : Node := .value op (.subView (combined w offsets)) (source :: vs) v (.buffer result) with hnew
  have hdefined : (y ++ .node new .nil .nil).defined = freshValues f.values.size g.values.size := by
    rw [← Code.defined_rename (Function.swapped r v)]
    exact hsplice.defined
  have hnd : y.defined.Nodup := by
    have hnodup := nodup_freshValues f.values.size g.values.size
    rw [← hdefined, Code.defined_append] at hnodup
    exact (List.nodup_append'.1 hnodup).1
  have hin : ∀ h ∈ (y ++ .node new .nil .nil).heads, h.rename (Function.swapped r v) ∈
      ((k.rename (Function.swapped r v)).plug (b.rename (Function.swapped r v) ++
        ((y ++ .node new .nil .nil).rename (Function.swapped r v) ++
          z.rename (Function.swapped r v)))).heads := fun h hh => by
    refine Spine.mem_heads_splice.2 (.inr ?_)
    rw [Code.heads_rename]
    exact List.mem_map_of_mem hh
  have htype : g.bufferType? v = .ok (some result) :=
    hsplice.represents.bufferType?_eq (t := .buffer result) (hin new (by simp [Code.heads])) rfl
  obtain ⟨htyped, hvs⟩ := hsums.typed (g := g) (fun d hd' => by
      obtain ⟨h₁, h₂⟩ := List.of_mem_zip hd'
      exact ⟨fun e he => hsplice.grows.has (hhas e (Offset.mem_of_supplied (he ▸ h₁))),
        fun e he => hsplice.grows.has (hhas' e (Offset.mem_of_supplied (he ▸ h₂)))⟩) fun e he => by
    have hmem : e ∈ (y ++ .node new .nil .nil).defined := by
      rw [Code.defined_append]
      exact List.mem_append_left _ he
    rw [hdefined, mem_freshValues] at hmem
    exact hmem.2
  have hcount : (combined w offsets).offsets.length = w.sizes.length := by
    show offsets.length = _
    rw [hsums.length, List.length_zip, Offset.length_supply, Offset.length_supply, hoffsets',
      ← hlength, Nat.min_self, hoffsets]
  have hcomputes : ∀ h ∈ y.heads, h.kind.computes = true ∧ h.kind.isLinalg = false ∧
      h.kind.window? = none := by
    intro h hh
    rcases hsums.kind_eq h hh with hk | ⟨i, hk⟩ <;> rw [hk] <;> exact ⟨rfl, rfl, rfl⟩
  refine ⟨_, hs.replace hsplice hres (by rw [hready.kind]; rfl) (Function.has_of_bufferType? htype)
    (fun _ _ => ⟨result, htype⟩) ?_ ?_ (fun env hinformed hun hfit => ?_)
    fun env item hinformed hun hitem => ?_⟩
  · rw [Code.heads_append, List.forall_mem_append]
    exact ⟨htyped, List.forall_mem_singleton.2 (.subView op v (hsplice.grows.bufferType? hready.source)
      hvs hsums.dynamicCount hcount hstrides (Window.of_resultType hresult).1)⟩
  · rw [Code.heads_append, List.forall_mem_append]
    exact ⟨fun h hh => (hcomputes h hh).1, List.forall_mem_singleton.2 rfl⟩
  · rw [Code.unbound_append] at hun
    obtain ⟨u₁, us₁, s₁, starts, hops, hsource, hstarts, hembeds⟩ := hfit.shows w hready.kind
    rw [hready.operands, List.cons.injEq] at hops
    obtain ⟨rfl, rfl⟩ := hops
    obtain ⟨s, sums, hs', hsums', -, -, hembeds'⟩ := hready.starts_combined hinformed hinner hlength hones
      hsums hnd hun.1 hsource hstarts
    refine Code.throughout_append.2 ⟨Code.throughout_fit (fun h hh => (hcomputes h hh).2) env,
      ⟨by simp [new, Node.value, OpKind.isLinalg], fun w₁ hk => ?_⟩, (fun _ hi => by cases hi), trivial⟩
    cases hk
    exact ⟨_, _, s, sums, rfl, hs', hsums', hembeds' hembeds⟩
  · rw [Code.unbound_append] at hun
    simp only [Node.item, hready.kind, hready.operands, Option.bind_eq_bind, Option.bind_eq_some_iff,
      Option.pure_def, Option.some.injEq] at hitem
    obtain ⟨s₁, hsource, starts, hstarts, rfl⟩ := hitem
    obtain ⟨s, sums, hs', hsums', hplace, hroot, -⟩ := hready.starts_combined hinformed hinner hlength hones
      hsums hnd hun.1 hsource hstarts
    rw [Code.after_append, hplace, hroot]
    exact (Env.set_self _ v _).trans (Node.item_subView op v _ hs' hsums')

end Rewriting

end ViewFolding

end KernelLowering
