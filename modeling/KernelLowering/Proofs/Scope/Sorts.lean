import KernelLowering.Proofs.Safety.Made
import KernelLowering.Proofs.Scope.Kernels

namespace KernelLowering

structure Node.SortsIn (g : Function) (h : Node) : Prop where
  result : ∀ {v t}, h.result = some (v, t) → g.sort? v = some t.sort
  var : ∀ {v}, v ∈ h.inductionVars → g.sort? v = some .index

theorem Function.Represents.sortsIn {g : Function} {c y : Code} (hr : g.Represents c)
    (hsub : ∀ h ∈ y.heads, h ∈ c.heads) : ∀ h ∈ y.heads, h.SortsIn g := fun h hh =>
  ⟨fun hres => hr.sort?_result (hsub h hh) hres, fun hv => hr.sort?_var (hsub h hh) hv⟩

theorem Node.Sorted.ofAddIndex {g : Function} {op : OpId} {u u' v : ValueId}
    (hu : g.sort? u = some .index) (hu' : g.sort? u' = some .index) :
    (Node.value op .addIndex [u, u'] v .index).Sorted g :=
  ⟨by simp [Node.value, hu, hu'], rfl⟩

theorem Node.Sorted.ofSubView {g : Function} {op : OpId} {w : Window} {source v : ValueId}
    {supplied : List ValueId} {type : BufferType} (hsource : g.sort? source = some .buffer)
    (hsupplied : ∀ u ∈ supplied, g.sort? u = some .index) (hcount : w.dynamicCount = supplied.length) :
    (Node.value op (.subView w) (source :: supplied) v (.buffer type)).Sorted g := by
  refine ⟨?_, rfl⟩
  rw [hcount]
  simp only [Node.value, List.map_cons, List.map_replicate, hsource]
  refine congrArg _ (List.eq_replicate_iff.2 ⟨List.length_map _, fun s hs => ?_⟩)
  obtain ⟨u, hu, rfl⟩ := List.mem_map.1 hs
  exact hsupplied u hu

namespace Tiling

variable {g : Function} {vars : LoopVars} {nest : Nest} {y : Code}

theorem SumOf.sorted {first last : ValueId} {rest : List ValueId} (h : SumOf first rest y last)
    (hy : ∀ h ∈ y.heads, h.SortsIn g) (hterms : ∀ v ∈ first :: rest, g.sort? v = some .index) :
    (∀ h ∈ y.heads, h.Sorted g) ∧ g.sort? last = some .index := by
  induction h with
  | done v => exact ⟨by simp [Code.heads], hterms v List.mem_cons_self⟩
  | more op _ ih =>
    simp only [Code.heads, List.nil_append, List.forall_mem_cons] at hy hterms ih ⊢
    obtain ⟨hrest, hlast⟩ := ih hy.2 ⟨hy.1.result rfl, hterms.2.2⟩
    exact ⟨⟨.ofAddIndex hterms.1 hterms.2.1, hrest⟩, hlast⟩

theorem OffsetsOf.sorted {map : OperandMap} {offsets : List Offset} {supplied : List ValueId}
    (h : OffsetsOf vars map offsets supplied y) (hy : ∀ h ∈ y.heads, h.SortsIn g)
    (hvars : ∀ u, some u ∈ vars → g.sort? u = some .index) :
    (∀ h ∈ y.heads, h.Sorted g) ∧ ∀ v ∈ supplied, g.sort? v = some .index := by
  induction h with
  | nil => simp [Code.heads]
  | cons hfirst _ ih =>
    simp only [Code.heads_append, List.forall_mem_append] at hy ⊢
    obtain ⟨hrest, hsupplied⟩ := ih hy.2
    cases hfirst with
    | static => exact ⟨⟨by simp [Code.heads], hrest⟩, by simp, hsupplied⟩
    | dynamic hv hsum =>
      obtain ⟨hsums, hlast⟩ := hsum.sorted hy.1 fun u hu =>
        hvars u (mem_vars_of_mem_varsAlong (hv ▸ hu))
      exact ⟨⟨hsums, hrest⟩, by simpa using hlast, hsupplied⟩

theorem OperandsOf.sorted {all : List (ValueId × BufferType × OperandMap)} {vs : List ValueId}
    (h : OperandsOf nest vars all y vs) (hy : ∀ h ∈ y.heads, h.SortsIn g)
    (hall : ∀ x ∈ all, g.sort? x.1 = some .buffer)
    (hvars : ∀ u, some u ∈ vars → g.sort? u = some .index) : ∀ h ∈ y.heads, h.Sorted g := by
  induction h with
  | nil => simp [Code.heads]
  | cons hfirst _ ih =>
    rw [List.forall_mem_cons] at hall
    simp only [Code.heads_append, List.forall_mem_append] at hy ⊢
    refine ⟨?_, ih hy.2 hall.2⟩
    cases hfirst with
    | whole => simp [Code.heads]
    | window op hoffsets _ _ =>
      simp only [Code.heads_append, Code.heads, List.append_nil, List.forall_mem_append,
        List.forall_mem_singleton] at hy ⊢
      obtain ⟨hsums, hsupplied⟩ := hoffsets.sorted hy.1.1 hvars
      exact ⟨hsums, .ofSubView hall.1 hsupplied hoffsets.count_dynamic⟩

variable {t : Tiling} {plan : TilePlan} {operands : List ValueId}

theorem NestsOf.sorted {ns : List Nest} (h : NestsOf t plan operands ns y)
    (hy : ∀ h ∈ y.heads, h.SortsIn g) (hops : ∀ v ∈ operands, g.sort? v = some .buffer) :
    ∀ h ∈ y.heads, h.Sorted g := by
  induction h with
  | nil => simp [Code.heads]
  | cons hfirst _ ih =>
    simp only [Code.heads_append, List.forall_mem_append] at hy ⊢
    refine ⟨?_, ih hy.2⟩
    cases hfirst with
    | intro op hloops htiled =>
      simp only [Code.heads_within, Code.heads_append, Code.heads, List.append_nil,
        List.forall_mem_append, List.forall_mem_singleton] at hy ⊢
      refine ⟨fun h hh => ?_, ?_, rfl⟩
      · obtain ⟨op, kind, vars, hkind, rfl⟩ := hloops.isLoopNode h hh
        cases kind <;> first | rfl | cases hkind
      · refine htiled.sorted hy.1.2.1 (fun x hx => hops _ (List.of_mem_zip hx).1) fun u hu => ?_
        obtain ⟨h, hh, hu⟩ := List.mem_flatMap.1 ((hloops.mem_vars hu).resolve_left (by simp))
        obtain ⟨op, kind, vars, hkind, rfl⟩ := hloops.isLoopNode h hh
        exact (hy.1.1 _ hh).var (by simpa [Node.defined, Node.loop] using hu)

end Tiling

theorem KernelKind.yields_iterationExtents (kind : KernelKind) (types : List BufferType) :
    Yields True (kind.iterationExtents types) fun _ => True := by
  have hwindow : ∀ extents, Yields True (windowExtent extents) fun _ => True := fun extents => by
    rw [windowExtent, Yields.bind_iff]
    exact (Yields.foldlM (fun _ _ => Checked.yields_fit _) _ _).mono fun _ _ _ =>
      Checked.yields_fit _
  simp only [iterationExtents, extentsOf]
  cases kind with
  | matmul => trivial
  | conv2d =>
    rw [Yields.bind_iff]
    have hconv : Yields True (conv2dExtents (types.map (·.shape))) fun _ => True := by
      unfold conv2dExtents
      split
      · split
        · trivial
        · simp only [Yields.bind_iff]
          refine (hwindow _).mono fun _ _ _ => ?_
          split
          · trivial
          · rw [Yields.bind_iff]
            refine (hwindow _).mono fun _ _ _ => ?_
            split <;> trivial
      · trivial
    exact hconv.mono fun _ _ _ => trivial

section Checks

variable {f g : Function} {k : Spine} {b x z : Code} {hd : Node}

theorem StageGuard.gives_checkKernel {p : Prop} (guard : StageGuard) (kind : KernelKind)
    (o : Operation) : (guard.checkKernel kind o).Gives p fun _ => True := by
  unfold checkKernel check
  by_cases hkind : o.kind = .kernel kind
  · by_cases hmarker : o.marker = some guard.current <;> simp [hkind, hmarker]
  · simp [hkind]

theorem Function.sort?_of_bufferType? {v : ValueId} {type : BufferType}
    (h : f.bufferType? v = .ok (some type)) : f.sort? v = some .buffer := by
  obtain ⟨⟨t, d⟩, ha, ht⟩ := Fault.map_eq_ok.1 h
  rw [sort?, value_eq_ok.1 ha]
  cases t with
  | index => cases ht
  | buffer => rfl

theorem Function.yields_bufferTypes? {p : Prop} {vs : List ValueId} (hvs : ∀ v ∈ vs, f.Has v) :
    Yields p (f.bufferTypes? vs) fun _ => True := by
  induction vs with
  | nil => trivial
  | cons v vs ih =>
    rw [List.forall_mem_cons] at hvs
    rw [bufferTypes?, bufferType?, value_eq_ok.2 (Array.getElem?_eq_getElem hvs.1), Yields.bind_iff,
      Yields.map_iff, Yields.ok_iff]
    split
    · rw [Yields.bind_iff]
      exact (ih hvs.2).mono fun _ _ _ => trivial
    · trivial

namespace Tiling

variable {t : Tiling}

theorem sort?_of_types {vs : List ValueId} {types : List BufferType}
    (h : List.Forall₂ (fun v type => f.bufferType? v = .ok (some type)) vs types) :
    ∀ v ∈ vs, f.sort? v = some .buffer := by
  induction h with
  | nil => simp
  | cons hv _ ih => exact List.forall_mem_cons.2 ⟨Function.sort?_of_bufferType? hv, ih⟩

theorem gives_check (hops : ∀ v ∈ hd.operands, f.Has v)
    (hr : f.Represents (k.plug (b ++ .node hd x z))) :
    (t.check f hd.op).Gives True fun _ => ∃ plan, (t.plan f hd.op).Answers plan := by
  have hplan : (t.plan f hd.op).Gives True fun _ => True := by
    simp only [plan, Inspect.gives_bind, Inspect.gives_lift, hr.record_at, Yields.ok_iff,
      Inspect.gives_orDecline]
    refine (Function.yields_bufferTypes? hops).mono fun _ _ _ types _ => ?_
    simp only [TilePlan.make, Inspect.gives_bind, Inspect.gives_lift, Inspect.gives_orDecline]
    refine (t.kind.yields_iterationExtents types).mono fun _ _ _ extents _ => ?_
    split
    · exact Inspect.gives_throw
    · simp
  have hcheck : (t.check f hd.op).Gives True fun _ => True := by
    rw [check, Inspect.gives_bind, Inspect.gives_lift, hr.record_at, Yields.ok_iff,
      Inspect.gives_bind]
    exact (t.guard.gives_checkKernel _ _).mono fun _ _ _ => Inspect.gives_discard.2 hplan
  exact hcheck.mono fun _ hanswers _ =>
    ((check_answers (Function.op_eq_ok.1 hr.record_at)).1 hanswers).2.2

theorem gives_splice (hops : ∀ v ∈ hd.operands, f.Has v)
    (hr : f.Represents (k.plug (b ++ .node hd x z))) :
    ((Rule.tiling t).apply f hd.op).Gives True fun g => ∃ plan ns y,
      List.Forall₂ (fun v type => f.bufferType? v = .ok (some type)) hd.operands plan.operandTypes ∧
        NestsOf t plan hd.operands ns y ∧ Splice f g k b y z := by
  rw [Rule.apply, Inspect.gives_bind]
  refine (gives_check hops hr).mono ?_
  rintro _ - ⟨plan, hplan⟩
  rw [Inspect.gives_lift, Rule.performAt, Yields.map_iff]
  refine ((yields_perform hr hplan).weaken fun _ => trivial).mono ?_
  rintro ⟨⟨⟩, g⟩ - ⟨ns, y, -, hnests, hsplice⟩
  exact ⟨plan, ns, y, ((plan_answers ⟨_, _, Function.op_eq_ok.1 hr.record_at⟩).1 hplan).1, hnests,
    hsplice⟩

theorem gives_sorted (h : f.Tidy) (hr : f.Represents (k.plug (b ++ .node hd x z))) (hs : f.Sorted) :
    ((Rule.tiling t).apply f hd.op).Gives True Function.Sorted := by
  refine (gives_splice (h.has hr hd (Spine.mem_heads_at k b x z hd)) hr).mono ?_
  rintro g - ⟨plan, ns, y, htypes, hnests, hsplice⟩
  refine hr.sorted_splice (σ := id) (by simpa using hsplice.represents) hs
    (fun v s hv => hsplice.grows.sort? hv) (hnests.sorted ?_ fun v hv => ?_)
  · refine hsplice.represents.sortsIn fun h' hh' => ?_
    simp [Spine.mem_heads_plug, hh']
  · exact hsplice.grows.sort? (sort?_of_types htypes v hv)

end Tiling

namespace ViewFolding

variable {y : Code}

theorem Summed.sorted {o o' : SuppliedOffset ValueId} {offset : Offset} {vs : List ValueId}
    (h : Summed o o' y offset vs) (hy : ∀ h ∈ y.heads, h.SortsIn g)
    (ho : ∀ u, o = .supplied u → g.sort? u = some .index)
    (ho' : ∀ u, o' = .supplied u → g.sort? u = some .index) :
    (∀ h ∈ y.heads, h.Sorted g) ∧ ∀ v ∈ vs, g.sort? v = some .index := by
  cases h with
  | static => simp [Code.heads]
  | outer u => exact ⟨by simp [Code.heads], List.forall_mem_singleton.2 (ho u rfl)⟩
  | inner u => exact ⟨by simp [Code.heads], List.forall_mem_singleton.2 (ho' u rfl)⟩
  | outerShifted op op' c v =>
    simp only [Code.heads, List.nil_append, List.forall_mem_cons] at hy ⊢
    exact ⟨⟨⟨rfl, rfl⟩, .ofAddIndex (ho _ rfl) (hy.1.result rfl), by simp⟩, hy.2.1.result rfl, by simp⟩
  | innerShifted op op' c v =>
    simp only [Code.heads, List.nil_append, List.forall_mem_cons] at hy ⊢
    exact ⟨⟨⟨rfl, rfl⟩, .ofAddIndex (ho' _ rfl) (hy.1.result rfl), by simp⟩, hy.2.1.result rfl, by simp⟩
  | both u u' op v =>
    simp only [Code.heads, List.nil_append, List.forall_mem_cons] at hy ⊢
    exact ⟨⟨.ofAddIndex (ho' u' rfl) (ho u rfl), by simp⟩, hy.1.result rfl, by simp⟩

theorem SummedAll.sorted {dims : List (SuppliedOffset ValueId × SuppliedOffset ValueId)}
    {offsets : List Offset} {supplied : List ValueId} (h : SummedAll dims y offsets supplied)
    (hy : ∀ h ∈ y.heads, h.SortsIn g)
    (hdims : ∀ d ∈ dims, (∀ u, d.1 = .supplied u → g.sort? u = some .index) ∧
      ∀ u, d.2 = .supplied u → g.sort? u = some .index) :
    (∀ h ∈ y.heads, h.Sorted g) ∧ ∀ v ∈ supplied, g.sort? v = some .index := by
  induction h with
  | nil => simp [Code.heads]
  | cons hfirst _ ih =>
    rw [List.forall_mem_cons] at hdims
    simp only [Code.heads_append, List.forall_mem_append] at hy ⊢
    obtain ⟨hy₁, hvs⟩ := hfirst.sorted hy.1 hdims.1.1 hdims.1.2
    obtain ⟨hy₂, hsupplied⟩ := ih hy.2 hdims.2
    exact ⟨⟨hy₁, hy₂⟩, hvs, hsupplied⟩

theorem gives_splice (hr : f.Represents (k.plug (b ++ .node hd x z)))
    (hm : ∀ h ∈ (k.plug (b ++ .node hd x z)).heads, h.Made f) :
    (Rule.viewFolding.apply f hd.op).Gives True fun g =>
      ∃ inner w w' u source supplied supplied' type y offsets vs op v result,
        Ready f (k.plug (b ++ .node hd x z)) hd inner w w' u source supplied supplied' type ∧
          (w.offsets.length = w'.sizes.length ∧ ∀ stride ∈ w'.strides, stride = 1) ∧
            SummedAll ((Offset.supply w.offsets supplied).zip (Offset.supply w'.offsets supplied')) y
              offsets vs ∧ (combined w offsets).resultType type = .ok result ∧
                Splice f g (k.rename (hd.redirect v)) (b.rename (hd.redirect v))
                  (.rename (hd.redirect v) (y ++ .node (.value op (.subView (combined w offsets))
                    (source :: vs) v (.buffer result)) .nil .nil)) (z.rename (hd.redirect v)) := by
  have hequipped : ∀ h ∈ (k.plug (b ++ .node hd x z)).heads, Equipped f h := by
    intro h hh w hkind
    obtain ⟨source, supplied, v, type, below, hops, hres, hbelow, hcount, -⟩ :=
      (hm h hh).operands_of_subView hkind
    exact ⟨source, supplied, v, type, below, hops, hres, hbelow, hcount⟩
  rw [Rule.apply, Inspect.gives_bind]
  refine (gives_check hr hequipped).mono ?_
  rintro - - ⟨inner, w, w', u, source, supplied, supplied', type, hready, hdense⟩
  rw [Inspect.gives_lift]
  refine (yields_perform hr hready).mono ?_
  rintro g - ⟨y, offsets, vs, op, v, result, h⟩
  exact ⟨inner, w, w', u, source, supplied, supplied', type, y, offsets, vs, op, v, result, hready,
    hdense, h⟩

theorem gives_sorted (hr : f.Represents (k.plug (b ++ .node hd x z))) (hs : f.Sorted) :
    (Rule.viewFolding.apply f hd.op).Gives True Function.Sorted := by
  refine (gives_splice hr (hs.made hr)).mono ?_
  rintro g - ⟨inner, w, w', u, source, supplied, supplied', type, y, offsets, vs, op, v, result,
    hready, -, hsums, -, hsplice⟩
  obtain ⟨source', supplied₁, r, t, hops, hsource, hsup, -, hres⟩ :=
    (hr.sorted_at hs).of_subView hready.kind
  obtain ⟨source₂, supplied₂, -, -, hops', hsource', hsup', -, -⟩ :=
    (hr.sorted_iff.1 hs inner (Code.of_definer? hready.definer).1).of_subView hready.innerKind
  rw [hready.operands, List.cons.injEq] at hops
  rw [hready.innerOperands, List.cons.injEq] at hops'
  obtain ⟨⟨rfl, rfl⟩, rfl, rfl⟩ := And.intro hops hops'
  have hin : ∀ h ∈ (y ++ .node (.value op (.subView (combined w offsets)) (source :: vs) v
      (.buffer result)) .nil .nil).heads, h.SortsIn g := by
    intro h hh
    have hren := hsplice.represents.sortsIn (y := (y ++ _).rename (hd.redirect v))
      (fun h' hh' => by
        simp only [Spine.mem_heads_plug, Code.heads_append, List.mem_append]
        exact .inl (.inr (.inl hh'))) (h.rename (hd.redirect v))
      (by rw [Code.heads_rename]; exact List.mem_map.2 ⟨h, hh, rfl⟩)
    exact ⟨hren.result, hren.var⟩
  simp only [Code.heads_append, List.forall_mem_append, Code.heads, List.nil_append,
    List.forall_mem_singleton] at hin
  obtain ⟨hy, hvs⟩ := hsums.sorted hin.1 fun d hd' => by
    obtain ⟨hd₁, hd₂⟩ := List.of_mem_zip hd'
    exact ⟨fun u' hu' => hsplice.grows.sort? (hsup u' (Offset.mem_of_supplied (hu' ▸ hd₁))),
      fun u' hu' => hsplice.grows.sort? (hsup' u' (Offset.mem_of_supplied (hu' ▸ hd₂)))⟩
  have hnew : g.sort? v = some (ValueType.buffer result).sort := hin.2.result rfl
  refine hr.sorted_redirect hsplice hs hres hnew ?_
  simp only [Code.heads_append, List.forall_mem_append, Code.heads, List.nil_append,
    List.forall_mem_singleton]
  exact ⟨hy, .ofSubView (hsplice.grows.sort? hsource') hvs hsums.dynamicCount⟩

end ViewFolding

namespace Promotion

variable {p : Promotion} {y : Code}

theorem TileOf.sorted {type : BufferType} {buffer tile : ValueId} (h : TileOf p type y buffer tile)
    (hy : ∀ h ∈ y.heads, h.SortsIn g) : ∀ h ∈ y.heads, h.Sorted g := by
  cases h with
  | placed op v => exact List.forall_mem_singleton.2 ⟨rfl, rfl⟩
  | @viewed size result op op' op'' v v' v'' =>
    simp only [Code.heads, List.nil_append, List.forall_mem_cons] at hy ⊢
    have hbuffer : g.sort? buffer = some .buffer := hy.1.result rfl
    exact ⟨⟨rfl, rfl⟩, ⟨by simp [Node.value, hbuffer], rfl⟩,
      .ofSubView (hy.2.1.result rfl) (by simp) (Window.dynamicCount_origin _), by simp⟩

theorem TilesOf.sorted {tiles : List (Nat × BufferType)} {operands buffers promoted : List ValueId}
    (h : TilesOf p tiles operands y buffers promoted) (hy : ∀ h ∈ y.heads, h.SortsIn g) :
    ∀ h ∈ y.heads, h.Sorted g := by
  induction h with
  | nil => simp [Code.heads]
  | cons hfirst _ ih =>
    simp only [Code.heads_append, List.forall_mem_append] at hy ⊢
    exact ⟨hfirst.sorted hy.1, ih hy.2⟩

theorem ActionsOf.sorted {as : List Action} (h : ActionsOf as y)
    (has : ∀ a ∈ as, a.1.sorts? = none) : ∀ h ∈ y.heads, h.Sorted g := by
  induction h with
  | nil => simp [Code.heads]
  | cons op _ ih =>
    rw [List.forall_mem_cons] at has
    simp only [Code.heads, List.nil_append, List.forall_mem_cons]
    refine ⟨?_, ih has.2⟩
    unfold Node.Sorted
    rw [show (Node.effect op _ _ _).kind.sorts? = none from has.1]
    rfl

theorem sorts?_of_mem_actions {positions : List Nat} {operands promoted buffers : List ValueId}
    {a : Action} (ha : a ∈ p.actions positions operands promoted buffers) : a.1.sorts? = none := by
  have hcopies : ∀ {positions sources destinations},
      a ∈ copies positions sources destinations → a.1.sorts? = none := by
    intro positions sources destinations hc
    obtain ⟨i, -, hi⟩ := List.mem_filterMap.1 hc
    obtain ⟨source, -, hi⟩ := Option.bind_eq_some_iff.1 hi
    obtain ⟨destination, -, hi⟩ := Option.bind_eq_some_iff.1 hi
    cases hi
    rfl
  simp only [actions, List.mem_append, List.mem_cons, List.mem_map] at ha
  rcases ha with ha | rfl | ha | ⟨buffer, -, rfl⟩
  · exact hcopies ha
  · rfl
  · exact hcopies ha
  · rfl

theorem PromotedOf.sorted {operands : List ValueId} {positions : List Nat}
    {tiles : List (Nat × BufferType)} (h : PromotedOf p operands positions tiles y)
    (hy : ∀ h ∈ y.heads, h.SortsIn g) : ∀ h ∈ y.heads, h.Sorted g := by
  cases h with
  | intro htiles hactions =>
    simp only [Code.heads_append, List.forall_mem_append] at hy ⊢
    exact ⟨htiles.sorted hy.1, hactions.sorted fun a => sorts?_of_mem_actions⟩

theorem gives_check {q : Prop} (hops : ∀ v ∈ hd.operands, f.Has v)
    (hr : f.Represents (k.plug (b ++ .node hd x z))) : (p.check f hd.op).Gives q fun _ => True := by
  rw [check, Inspect.gives_bind, Inspect.gives_lift, hr.record_at, Yields.ok_iff,
    Inspect.gives_bind]
  refine (p.guard.gives_checkKernel _ _).mono fun _ _ _ => ?_
  rw [Inspect.gives_bind, Inspect.gives_lift, candidates_eq hr (.of_has hops), Yields.ok_iff]
  split <;> simp

theorem gives_splice (hops : ∀ v ∈ hd.operands, f.Has v)
    (hr : f.Represents (k.plug (b ++ .node hd x z))) :
    ((Rule.promotion p).apply f hd.op).Gives True fun g => ∃ types y,
      TypesAt f hd.operands (p.promotable (k.plug (b ++ .node hd x z)) hd.operands) types ∧
        PromotedOf p hd.operands (p.promotable (k.plug (b ++ .node hd x z)) hd.operands)
          ((p.promotable (k.plug (b ++ .node hd x z)) hd.operands).zip types.reduceOption) y ∧
            Splice f g k b y z := by
  rw [Rule.apply, Inspect.gives_bind]
  refine (gives_check hops hr).mono fun _ _ _ => ?_
  rw [Inspect.gives_lift, Rule.performAt, Yields.map_iff]
  exact (yields_perform hr (.of_has hops) fun _ _ _ _ _ => trivial).mono fun _ _ h => h

theorem gives_sorted (h : f.Tidy) (hr : f.Represents (k.plug (b ++ .node hd x z))) (hs : f.Sorted) :
    ((Rule.promotion p).apply f hd.op).Gives True Function.Sorted := by
  refine (gives_splice (h.has hr hd (Spine.mem_heads_at k b x z hd)) hr).mono ?_
  rintro g - ⟨types, y, -, hpromoted, hsplice⟩
  refine hr.sorted_splice (σ := id) (by simpa using hsplice.represents) hs
    (fun v s hv => hsplice.grows.sort? hv) (hpromoted.sorted ?_)
  exact hsplice.represents.sortsIn fun h' hh' => by simp [Spine.mem_heads_plug, hh']

end Promotion

end Checks

end KernelLowering
