import KernelLowering.Proofs.Promotion.Effect
import KernelLowering.Proofs.Simulation.Refinement

namespace KernelLowering.Promotion

variable {p : Promotion} {y : Code} {env env' : Env} {operands buffers promoted : List ValueId}
  {positions : List Nat} {all : List (Nat × BufferType)} {refs tiles : List Ref} {f g : Function}

section Typed

variable (hnew : ∀ h ∈ y.heads, ∀ v type, h.result = some (v, .buffer type) →
  g.bufferType? v = .ok (some type))

include hnew

theorem TileOf.typed {type : BufferType} {buffer tile : ValueId} (h : TileOf p type y buffer tile) :
    ∀ hd ∈ y.heads, hd.Typed g := by
  cases h with
  | placed op => exact List.forall_mem_singleton.2 (.alloc op _ _)
  | @viewed size result op op' op'' v v' v'' hspace hsize hresult =>
    simp only [Code.heads, List.nil_append, List.forall_mem_cons] at hnew ⊢
    have hbytes := hnew.1 _ _ rfl
    have hwhole := hnew.2.1 _ _ rfl
    refine ⟨.alloc op buffer _, .view op' v' _ (Function.has_of_bufferType? hbytes),
      .subView op'' tile hwhole (by simp) (by simp [Window.dynamicCount_origin]) ?_ ?_
        (Window.of_resultType hresult).1, by simp⟩
    · simp [Window.origin]
    · simp [Window.origin]

theorem TilesOf.typed (h : TilesOf p all operands y buffers promoted) : ∀ hd ∈ y.heads, hd.Typed g := by
  induction h with
  | nil => simp [Code.heads]
  | cons hfirst _ ih =>
    simp only [Code.heads_append, List.forall_mem_append] at hnew ⊢
    exact ⟨hfirst.typed hnew.1, ih hnew.2⟩

end Typed

theorem length_of_mem_actions {a : Action} (ha : a ∈ p.actions positions operands promoted buffers)
    (hk : a.1 = .copy) : a.2.1.length = 2 := by
  have hcopies : ∀ {positions sources destinations}, a ∈ copies positions sources destinations →
      a.2.1.length = 2 := by
    intro positions sources destinations ha
    obtain ⟨i, -, hi⟩ := List.mem_filterMap.1 ha
    obtain ⟨source, -, hi⟩ := Option.bind_eq_some_iff.1 hi
    obtain ⟨destination, -, hi⟩ := Option.bind_eq_some_iff.1 hi
    cases hi
    rfl
  simp only [actions, List.mem_append, List.mem_cons, List.mem_map] at ha
  rcases ha with ha | rfl | ha | ⟨buffer, -, rfl⟩
  · exact hcopies ha
  · cases hk
  · exact hcopies ha
  · cases hk

theorem PromotedOf.typed (h : PromotedOf p operands positions all y)
    (hnew : ∀ h ∈ y.heads, ∀ v type, h.result = some (v, .buffer type) →
      g.bufferType? v = .ok (some type)) (hdef : ∀ v ∈ y.defined, g.Has v)
    (hops : ∀ v ∈ operands, g.Has v) : ∀ hd ∈ y.heads, hd.Typed g := by
  cases h with
  | @intro y y' buffers promoted htiles hactions =>
    simp only [Code.heads_append, List.forall_mem_append, Code.defined_append] at hnew hdef ⊢
    refine ⟨htiles.typed hnew.1, fun hd hh => ?_⟩
    obtain ⟨op, a, ha, rfl⟩ := hactions.exists_action hd hh
    refine .effect op a.2.2 ?_ ?_ (length_of_mem_actions ha) fun u hu => ?_
    · rcases cases_of_mem_actions ha with ⟨hk | hk, -⟩ | rfl
      · rw [hk]
        rfl
      · rw [hk]
        rfl
      · rfl
    · rcases cases_of_mem_actions ha with ⟨hk | hk, -⟩ | rfl
      · rw [hk]
        rfl
      · rw [hk]
        rfl
      · rfl
    · rcases mem_of_mem_actions ha hu with hu | hu | hu
      · exact hops u hu
      · exact (htiles.mem_promoted hu).elim (hops u) (hdef.1 u)
      · exact hdef.1 u (htiles.buffers_subset hu)

section Fit

theorem embeds_origin (shape : Shape) : (Window.origin shape).Embeds (shape.map fun _ => 0) shape := by
  refine ⟨fun i hi => ?_, fun i hi j hj hij => ?_⟩
  · exact (shift_origin hi).symm ▸ hi
  · have hi : i ∈ box shape := hi
    have hj : j ∈ box shape := hj
    rwa [shift_origin hi, shift_origin hj] at hij

theorem TileOf.fit {type : BufferType} {buffer tile : ValueId} (h : TileOf p type y buffer tile)
    (env : Env) : y.Throughout Node.Fit env := by
  cases h with
  | placed op =>
    exact Code.throughout_of_heads (List.forall_mem_singleton.2 fun env => Node.fit_of_plain rfl rfl env) env
  | @viewed size result op op' op'' v v' v'' hspace hsize hresult =>
    have hloop : ∀ kind : OpKind, kind.isPure = true → ∀ i, i ∉ kind.iterations := by
      intro kind hpure i hi
      cases kind <;> simp_all [OpKind.isPure, OpKind.iterations, OpKind.isLoop]
    refine ⟨Node.fit_of_plain rfl rfl env, fun i hi => (hloop _ rfl i hi).elim,
      Node.fit_of_plain rfl rfl _, fun i hi => (hloop _ rfl i hi).elim, ⟨fun hl => (by cases hl),
        fun w hw => ?_⟩, fun i hi => (hloop _ rfl i hi).elim, trivial⟩
    cases hw
    exact ⟨v', [], viewedRef type buffer, _, rfl, ref?_viewed env op op' type size buffer v',
      starts_origin _ _, embeds_origin type.shape⟩

theorem TilesOf.fit (h : TilesOf p all operands y buffers promoted) (env : Env) :
    y.Throughout Node.Fit env := by
  induction h generalizing env with
  | nil => trivial
  | cons hfirst _ ih => exact Code.throughout_append.2 ⟨hfirst.fit env, ih _⟩

theorem ActionsOf.fit {as : List Action} (h : ActionsOf as y)
    (hloop : ∀ a ∈ as, a.1.isLoop = false)
    (has : ∀ a ∈ as, ∀ op, (Node.effect op a.1 a.2.1 a.2.2).Fit env) : y.Throughout Node.Fit env := by
  induction h with
  | nil => trivial
  | cons op _ ih =>
    obtain ⟨hself, has⟩ := List.forall_mem_cons.1 has
    obtain ⟨hloop', hloop⟩ := List.forall_mem_cons.1 hloop
    refine ⟨hself op, fun i hi => ?_, ih hloop has⟩
    simp [Node.effect, OpKind.iterations, hloop'] at hi

theorem fit_of_copies {sources destinations : List ValueId} {rs ts : List Ref}
    (hsources : List.Forall₂ (fun v r => env.ref? v = some r) sources rs)
    (hdestinations : List.Forall₂ (fun v r => env.ref? v = some r) destinations ts)
    (hshapes : rs.map (·.shape) = ts.map (·.shape)) {a : Action}
    (ha : a ∈ copies positions sources destinations) (op : OpId) :
    (Node.effect op a.1 a.2.1 a.2.2).Fit env := by
  obtain ⟨i, -, hi⟩ := List.mem_filterMap.1 ha
  obtain ⟨source, hs, hi⟩ := Option.bind_eq_some_iff.1 hi
  obtain ⟨destination, hd, hi⟩ := Option.bind_eq_some_iff.1 hi
  cases hi
  rcases forall₂_getElem? hsources i with ⟨hnone, -⟩ | ⟨_, r, hs', hr, hsource⟩
  · cases hs.symm.trans hnone
  rcases forall₂_getElem? hdestinations i with ⟨hnone, -⟩ | ⟨_, t, hd', ht, hdestination⟩
  · cases hd.symm.trans hnone
  obtain rfl := Option.some.inj (hs.symm.trans hs')
  obtain rfl := Option.some.inj (hd.symm.trans hd')
  refine ⟨fun _ => ⟨.copy r t, by simp [Node.actions, Node.effect, hsource, hdestination], ?_⟩,
    fun w hw => by cases hw⟩
  have hshape := congrArg (fun shapes => shapes[i]?) hshapes
  show r.shape = t.shape
  simpa [hr, ht] using hshape

theorem Localizes.fit {kind : KernelKind} (h : Localizes buffers positions refs tiles)
    (hfit : (KernelLowering.Action.kernel kind refs).Fit) :
    (KernelLowering.Action.kernel kind tiles).Fit := by
  obtain ⟨hextents, hnd, hdistinct⟩ := hfit
  have hlen : tiles.length = refs.length := by simpa using congrArg List.length h.shapes
  refine ⟨h.shapes ▸ hextents, ?_, fun z hz => ?_⟩
  · rw [List.Nodup, List.pairwise_iff_getElem] at hnd ⊢
    intro i j hi hj hij
    simp only [List.length_map] at hi hj
    simp only [List.getElem_map]
    have hi' := List.getElem?_eq_getElem hi
    have hj' := List.getElem?_eq_getElem hj
    by_cases hpi : i ∈ positions
    · exact h.apart hij.ne hpi hi' hj'
    by_cases hpj : j ∈ positions
    · exact (h.apart hij.ne' hpj hj' hi').symm
    rw [h.kept i hpi, List.getElem?_eq_getElem (hlen ▸ hi), Option.some.injEq] at hi'
    rw [h.kept j hpj, List.getElem?_eq_getElem (hlen ▸ hj), Option.some.injEq] at hj'
    have hne := hnd i j (by simpa [hlen] using hi) (by simpa [hlen] using hj) hij
    rw [List.getElem_map, List.getElem_map] at hne
    rwa [← hi', ← hj']
  · by_cases hp : kind.outputOperand ∈ positions
    · exact (h.moved hp hz).2
    · exact hdistinct z ((h.kept _ hp).symm.trans hz)

theorem isLoop_of_mem_actions {a : Action} (ha : a ∈ p.actions positions operands promoted buffers) :
    a.1.isLoop = false := by
  rcases cases_of_mem_actions ha with ⟨hk | hk, -⟩ | rfl
  · rw [hk]
    rfl
  · rw [hk]
    rfl
  · rfl

theorem PromotedOf.fit (h : PromotedOf p operands positions all y) (hnd : y.defined.Nodup)
    (hops : ∀ v ∈ operands, v ∉ y.defined)
    (hrefs : List.Forall₂ (fun v r => env.ref? v = some r) operands refs)
    (hroots : ∀ r ∈ refs, r.root ∉ y.defined)
    (hshapes : ∀ a ∈ all, ∀ shape, (refs.map (·.shape))[a.1]? = some shape → shape = a.2.shape)
    (hfit : (KernelLowering.Action.kernel p.kind refs).Fit) : y.Throughout Node.Fit env := by
  cases h with
  | @intro y y' buffers promoted htiles hactions =>
    simp only [Code.defined_append, List.mem_append, not_or] at hnd hops hroots
    obtain ⟨-, hbuffers, tiles, hpromoted, hL⟩ := htiles.localizes (List.nodup_append'.1 hnd).1
      (fun v hv => (hops v hv).1) hrefs (fun r hr => (hroots r hr).1) hshapes
    have hrefs' := Tiling.forall₂_ref?_congr hrefs fun v hv => y.after_of_not_mem env (hops v hv).1
    refine Code.throughout_append.2 ⟨htiles.fit env,
      hactions.fit (fun a => isLoop_of_mem_actions) fun a ha op => ?_⟩
    simp only [actions, List.mem_append, List.mem_cons, List.mem_map] at ha
    rcases ha with ha | rfl | ha | ⟨buffer, -, rfl⟩
    · exact fit_of_copies hrefs' hpromoted hL.shapes.symm ha op
    · refine ⟨fun _ => ⟨.kernel p.kind tiles, ?_, hL.fit hfit⟩,
        fun w hw => by cases hw⟩
      simp [Node.actions, Node.effect, Env.mapM_ref?_eq_some.2 hpromoted]
    · exact fit_of_copies hpromoted hrefs' hL.shapes ha op
    · exact Node.fit_of_plain rfl rfl _

theorem TilesOf.loopless (h : TilesOf p all operands y buffers promoted) :
    ∀ h ∈ y.heads, h.kind.isLoop = false := by
  induction h with
  | nil => simp [Code.heads]
  | cons hfirst _ ih =>
    rw [Code.heads_append, List.forall_mem_append]
    refine ⟨?_, ih⟩
    cases hfirst <;> simp [Code.heads, Node.value, OpKind.isLoop]

end Fit

section Hole

variable {hidden : ValueId → Prop} {extents : List Int}

theorem of_mem_transfers {sources destinations : List Ref} {a : KernelLowering.Action}
    (ha : a ∈ transfers positions sources destinations) : ∃ i ∈ positions, ∃ r t,
      sources[i]? = some r ∧ destinations[i]? = some t ∧ a = .copy r t := by
  obtain ⟨i, hi, ha⟩ := List.mem_filterMap.1 ha
  obtain ⟨r, hr, ha⟩ := Option.bind_eq_some_iff.1 ha
  obtain ⟨t, ht, ha⟩ := Option.bind_eq_some_iff.1 ha
  exact ⟨i, hi, r, t, hr, ht, (Option.some.inj ha).symm⟩

theorem Localizes.cases (h : Localizes buffers positions refs tiles) {i : Nat} {t : Ref}
    (ht : tiles[i]? = some t) : t.root ∈ buffers ∨ refs[i]? = some t := by
  by_cases hi : i ∈ positions
  · exact .inl (h.moved hi ht).1
  · exact .inr ((h.kept i hi).symm.trans ht)

theorem among_cases {rs rs' : List Ref} (h : ∀ r ∈ rs, r.root ∈ buffers ∨ r ∈ rs') {c : Ref.Cell}
    (hc : Ref.Among rs c) : c.1 ∈ buffers ∨ Ref.Among rs' c := by
  obtain ⟨r, hr, i, hi, rfl⟩ := hc
  exact (h r hr).imp id fun hr => ⟨r, hr, i, hi, rfl⟩

theorem Localizes.reaches {kind : KernelKind} {back : List Nat} (h : Localizes buffers positions refs tiles)
    (hback : ∀ i ∈ back, i = kind.outputOperand) {a : KernelLowering.Action}
    (ha : a ∈ buffers.map .alloc ++ (transfers positions refs tiles ++ .kernel kind tiles ::
      transfers back tiles refs)) :
    (∀ r ∈ a.buffers, r.root ∈ buffers ∨ r ∈ refs) ∧
      ∀ r ∈ a.outputs, r.root ∈ buffers ∨ r ∈ (KernelLowering.Action.kernel kind refs).outputs := by
  have hsame : ∀ {i : Nat} {r t : Ref}, refs[i]? = some r → tiles[i]? = some t → { t with shape := r.shape } = t :=
    fun hr ht => by rw [← h.shape hr ht]
  have hsame' : ∀ {i : Nat} {r t : Ref}, refs[i]? = some r → tiles[i]? = some t → { r with shape := t.shape } = r :=
    fun hr ht => by rw [h.shape hr ht]
  have htile : ∀ {i : Nat} {t : Ref}, tiles[i]? = some t → t.root ∈ buffers ∨ t ∈ refs := fun ht =>
    (h.cases ht).imp id List.mem_of_getElem?
  simp only [List.mem_append, List.mem_cons, List.mem_map] at ha
  rcases ha with ⟨v, -, rfl⟩ | ha | rfl | ha
  · exact ⟨fun r hr => (nomatch hr), fun r hr => (nomatch hr)⟩
  · obtain ⟨i, hi, r, t, hr, ht, rfl⟩ := of_mem_transfers ha
    simp only [KernelLowering.Action.buffers, KernelLowering.Action.outputs, hsame hr ht,
      List.forall_mem_cons, List.not_mem_nil, false_implies, implies_true, and_true]
    exact ⟨⟨.inr (List.mem_of_getElem? hr), htile ht⟩, .inl (h.moved hi ht).1⟩
  · refine ⟨fun r hr => ?_, fun r hr => ?_⟩
    · obtain ⟨i, hi⟩ := List.mem_iff_getElem?.1 hr
      exact htile hi
    · exact (h.cases (Option.mem_toList.1 hr)).imp id Option.mem_toList.2
  · obtain ⟨i, hi, t, r, ht, hr, rfl⟩ := of_mem_transfers ha
    obtain rfl := hback i hi
    simp only [KernelLowering.Action.buffers, KernelLowering.Action.outputs, hsame' hr ht,
      List.forall_mem_cons, List.not_mem_nil, false_implies, implies_true, and_true]
    exact ⟨⟨htile ht, .inr (List.mem_of_getElem? hr)⟩, .inr (Option.mem_toList.2 hr)⟩

theorem PromotedOf.mimics (h : PromotedOf p operands positions all y) (hpositions : all.map (·.1) = positions)
    (hnd : y.defined.Nodup) (hops : ∀ v ∈ operands, v ∉ y.defined)
    (hrefs : List.Forall₂ (fun v r => env.ref? v = some r) operands refs)
    (hroots : ∀ r ∈ refs, r.root ∉ y.defined)
    (hshapes : ∀ a ∈ all, ∀ shape, (refs.map (·.shape))[a.1]? = some shape → shape = a.2.shape)
    (hfit : (KernelLowering.Action.kernel p.kind refs).Fit) (hshown : ∀ r ∈ refs, ¬ hidden r.root)
    (hnew : ∀ v ∈ y.defined, hidden v) :
    Mimics (.keep hidden) (y.trace env) [.kernel p.kind refs] := by
  obtain ⟨buffers, tiles, hbuffers, hL, htrace⟩ := h.trace hnd hops hrefs hroots hshapes
  rw [hpositions] at hL
  have houtput : ∀ i ∈ p.outputs positions, i = p.kind.outputOperand := fun i hi => by
    unfold outputs at hi
    split at hi
    · exact List.mem_singleton.1 hi
    · cases hi
  rw [htrace]
  refine ⟨fun m m' m₁' hm hrun => ?_, fun c hc => ?_, fun c hc => ?_⟩
  · have hself : List.Forall₂ (Standing.keep hidden).stands refs refs :=
      List.forall₂_same.2 fun r hr => ⟨rfl, hshown r hr⟩
    obtain ⟨m₁, hrun₁, hm₁⟩ := ((Standing.Acts.kernel p.kind hself).mimics hfit).follows m m' _ hm
      ⟨_, rfl, rfl⟩
    refine ⟨m₁, hrun₁, ?_⟩
    rintro c _ ⟨rfl, hc⟩
    obtain ⟨⟨extents, hextents⟩, hndroots, hdistinct⟩ := hfit
    have hdisjoint : refs.Pairwise Ref.Disjoint :=
      (List.pairwise_map.1 hndroots).imp fun hne => .of_root_ne hne
    rw [hL.preserves (fun r hr hm => hroots r hr (hbuffers hm)) hextents hdisjoint (fun _ => hdistinct)
      (List.Subset.refl _) ⟨_, rfl, rfl⟩ hrun fun hm => hc (hnew _ (hbuffers hm))]
    exact hm₁ c c ⟨rfl, hc⟩
  · obtain ⟨a, ha, hc⟩ := hc
    refine (among_cases (hL.reaches houtput ha).1 hc).imp
      (fun hc => List.mem_append_left _ (List.mem_map_of_mem hc)) fun hc => ?_
    obtain ⟨r, hr, i, -, rfl⟩ := id hc
    exact ⟨_, ⟨rfl, hshown r hr⟩, _, List.mem_singleton_self _, hc⟩
  · obtain ⟨a, ha, hc⟩ := hc
    refine (among_cases (hL.reaches houtput ha).2 hc).imp
      (fun hc => List.mem_append_left _ (List.mem_map_of_mem hc)) fun hc => ?_
    obtain ⟨r, hr, i, -, rfl⟩ := id hc
    exact ⟨_, ⟨rfl, hshown r (List.mem_of_getElem? (Option.mem_toList.1 hr))⟩, _,
      List.mem_singleton_self _, hc⟩

theorem PromotedOf.passes {c x : Code} {hd : Node} {found : List (Option BufferType)}
    (h : PromotedOf p hd.operands positions (positions.zip found.reduceOption) y)
    (hfound : TypesAt f hd.operands positions found) (hkind : hd.kind = .kernel p.kind)
    (hnd : y.defined.Nodup) (hfresh : ∀ v ∈ y.defined, ¬ f.Has v) (hhas : ∀ v ∈ hd.operands, f.Has v)
    (hloops : ∀ h ∈ y.heads, h.kind.isLoop = false) :
    (Passage.plain id (fun _ => True) (fun v => ¬ f.Has v ∨ v ∈ x.defined) (Env.Informed f c)).Passes
      (.node hd x .nil) y where
  allocated := by
    rintro c _ ⟨rfl, hshown⟩ hm
    exact (hshown (.inr (Code.mem_body_of_allocated (by simp [Node.allocated, hkind]) hm))).elim
  steps env env' hun hun' hlinks hbefore := by
    obtain ⟨⟨hfit, hinformed⟩, -⟩ := hbefore
    obtain ⟨refs, hrefs, hfit⟩ := hfit.kernel hkind
    obtain ⟨hb, hshown⟩ := Passage.plain_refs hlinks hrefs
    obtain ⟨types, htypes, hshapes⟩ := hinformed.typed.types hrefs
    obtain ⟨hpositions, hall⟩ := hfound.zip htypes
    have hops : ∀ v ∈ hd.operands, v ∉ y.defined := fun v hv hm => hfresh v hm (hhas v hv)
    have hroots : ∀ r ∈ refs, r.root ∉ y.defined := fun r hr hm => hshown r hr (.inl (hfresh _ hm))
    have hsizes : ∀ a ∈ positions.zip found.reduceOption, ∀ shape,
        (refs.map (·.shape))[a.1]? = some shape → shape = a.2.shape := by
      intro a ha shape hs
      rw [hshapes, List.getElem?_map, hall a ha, Option.map_some, Option.some.injEq] at hs
      exact hs.symm
    refine ⟨h.fit hnd hops hb hroots hsizes hfit, ?_, fun _ => Code.raceFree_of_loopless hloops env',
      Passage.plain_links hlinks (by simp [Node.item, hkind]) hun'⟩
    rw [Tiling.trace_kernel hkind hrefs]
    show Mimics (.keep fun v => ¬ f.Has v ∨ v ∈ x.defined) _ _
    exact h.mimics hpositions hnd hops hb hroots hsizes hfit hshown fun v hv => .inl (hfresh v hv)

end Hole

section Rule

variable {k : Spine} {b x z : Code} {hd : Node}

theorem PromotedOf.loopless (h : PromotedOf p operands positions all y) :
    ∀ h ∈ y.heads, h.kind.isLoop = false := by
  cases h with
  | intro htiles hactions =>
    rw [Code.heads_append, List.forall_mem_append]
    refine ⟨htiles.loopless, fun h hh => ?_⟩
    obtain ⟨op, a, ha, rfl⟩ := hactions.exists_action h hh
    exact isLoop_of_mem_actions ha

theorem yields_refinement (hs : f.Sound (k.plug (b ++ .node hd x z)))
    (hcheck : (p.check f hd.op).Answers ()) :
    Yields True ((Rule.promotion p).performAt f hd.op) fun g => ∃ c',
      f.Improves g (k.plug (b ++ .node hd x z)) c' := by
  have hr := hs.represents
  have hkind := kind_of_answers hr hcheck
  have hhas := hs.typed_at.has
  rw [Rule.performAt, Yields.map_iff]
  refine (yields_perform hr (.of_has hhas) fun _ _ _ _ _ => trivial).mono ?_
  rintro ⟨_, g⟩ - ⟨found, y, hfound, hpromoted, hsplice⟩
  have hnd : y.defined.Nodup := hsplice.defined ▸ nodup_freshValues _ _
  have hfresh : ∀ v ∈ y.defined, ¬ f.Has v := fun v hmem hv =>
    Nat.not_lt_of_le (hsplice.size_le hmem) hv
  have hdef : ∀ v ∈ y.defined, g.Has v := by
    intro v hv
    rw [hsplice.defined, mem_freshValues] at hv
    exact hv.2
  have htyped := hpromoted.typed (fun h hh v type hv => hsplice.represents.bufferType?_eq
    (Spine.mem_heads_plug.2 (.inl (by simp [hh]))) hv) hdef fun v hv => hsplice.grows.has (hhas v hv)
  have h := Function.Sound.splice (σ := id) hs (by simpa using hsplice.represents) hsplice.grows
    hsplice.grows.respects htyped (fun _ _ _ _ => trivial) (fun v hv => ⟨rfl, ?_⟩)
    (hpromoted.passes hfound hkind hnd hfresh hhas hpromoted.loopless)
  · exact ⟨_, by simpa using h⟩
  · obtain ⟨hhas, -, hout⟩ := hr.stays hv
    exact fun h => h.elim (fun hn => hn hhas) hout

end Rule

end KernelLowering.Promotion
