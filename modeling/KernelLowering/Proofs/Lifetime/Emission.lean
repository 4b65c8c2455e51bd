import KernelLowering.Proofs.Convergence.Staging
import KernelLowering.Proofs.Lifetime.Replacements
import KernelLowering.Proofs.Promotion.Locals

namespace KernelLowering

variable {f g : Function} {k : Spine} {b x y z c : Code} {hd : Node} {hs hs' : List Node}
  {Beside Beside' : Node → Node → Prop}

namespace Function

theorem Inherits.of_kernel (hr : f.Represents (k.plug (b ++ .node hd .nil z))) (hs : f.Sorted)
    (hhas : ∀ h ∈ (k.plug (b ++ .node hd .nil z)).heads, ∀ v ∈ h.operands, f.Has v)
    (hold : Tended (k.plug (b ++ .node hd .nil z)).heads (k.plug (b ++ .node hd .nil z)).Beside)
    {kind : KernelKind} (hkind : hd.kind = .kernel kind) (hdefined : hd.defined = [])
    (hsplice : Splice f g k b y z) (hy : y.Scoped hd.operands)
    (hviews : ∀ n ∈ y.heads, n.kind = .view → n.operands ⊆ y.defined) :
    f.Inherits g k b .nil z hd id y y.heads := by
  have hhd := Spine.mem_heads_at k b .nil z hd
  have hreplaces : f.Replaces g k b .nil z id y.heads := hsplice.replaces_id
  have hfresh : ∀ v ∈ y.defined, ¬ f.Has v := fun v hv hhas => by
    obtain ⟨n, hn, hdef⟩ := List.mem_flatMap.1 hv
    exact hreplaces.values n hn v hdef hhas
  have hops : ∀ n ∈ y.heads, ∀ u ∈ n.operands, f.Has u → u ∈ hd.operands := fun n hn u hv hu =>
    (List.mem_append.1 (hy.mem_operands hn hv)).resolve_left fun hdef => hfresh u hdef hu
  refine ⟨hr, hs, hhas, by simpa using hsplice.represents, hreplaces, by simp [hkind],
    fun _ _ => rfl, fun _ _ _ _ he => .inl he, by simp, fun _ _ h => (by cases h), ?_, ?_, ?_, ?_, ?_⟩
  · rintro n hn - w hw u hu rfl
    exact hfresh u (List.mem_flatMap.2 ⟨n, hn, hw⟩) hu
  · rintro n hn hview w hw u hu rfl
    exact hfresh u (hviews n hn hview hw) hu
  · refine fun n hn u hv hu => ⟨⟨hd, hhd, by simp [hkind], by simp [hkind], hops n hn u hv hu⟩, ?_⟩
    intro view hview hk hdef
    have hwindow := (hold.held view hview hk hd hhd ⟨u, hops n hn u hv hu, hdef⟩).window
    rw [hkind] at hwindow
    cases hwindow
  · exact fun n hn u hv hu v _ hshows => ⟨u, hops n hn u hv hu, hshows⟩
  · simp [hdefined]

end Function

namespace Tiling

variable {t : Tiling} {plan : TilePlan} {operands : List ValueId} {ns : List Nest}

theorem NestsOf.plain (h : NestsOf t plan operands ns y) :
    ∀ n ∈ y.heads, n.kind ≠ .alloc ∧ n.kind ≠ .dealloc ∧ n.kind ≠ .view := by
  induction h with
  | nil => simp [Code.heads]
  | cons hfirst _ ih =>
    rw [Code.heads_append, List.forall_mem_append]
    refine ⟨?_, ih⟩
    cases hfirst with
    | intro op hloops htiled =>
      simp only [Code.heads_within, Code.heads_append, Code.heads, List.append_nil,
        List.forall_mem_append, List.forall_mem_singleton]
      refine ⟨fun n hn => ?_, fun n hn => ?_, by simp [Node.effect]⟩
      · obtain ⟨op, kind, vars, hkind, rfl⟩ := hloops.isLoopNode n hn
        cases kind <;> simp_all [Node.loop, OpKind.isLoop]
      · rcases htiled.eq_value n hn with ⟨op, terms, v, rfl⟩ | ⟨op, w, terms, v, t, rfl⟩ <;>
          simp [Node.value]

end Tiling

namespace Promotion

variable {p : Promotion} {tiles : List (Nat × BufferType)} {positions : List Nat}
  {operands buffers promoted : List ValueId} {as : List Action}

theorem TilesOf.tops_eq (h : TilesOf p tiles operands y buffers promoted) : y.tops = y.heads := by
  induction h with
  | nil => rfl
  | cons hfirst _ ih =>
    rw [Code.tops_append, Code.heads_append, ih]
    cases hfirst <;> rfl

theorem ActionsOf.tops_eq (h : ActionsOf as y) : y.tops = y.heads := by
  induction h with
  | nil => rfl
  | cons op _ ih => rw [Code.tops, Code.heads, ih, Code.heads, List.nil_append]

theorem ActionsOf.pairwise {R : Action → Action → Prop} (h : ActionsOf as y) (has : as.Pairwise R) :
    y.heads.Pairwise fun d later => ∃ a a', R a a' ∧ d.kind = a.1 ∧ d.operands = a.2.1 ∧
      later.kind = a'.1 ∧ later.operands = a'.2.1 := by
  induction h with
  | nil => exact .nil
  | cons op hrest ih =>
    rw [List.pairwise_cons] at has
    rw [Code.heads, Code.heads, List.nil_append, List.pairwise_cons]
    refine ⟨fun later hlater => ?_, ih has.2⟩
    obtain ⟨op', a, ha, rfl⟩ := hrest.exists_action later hlater
    exact ⟨_, a, has.1 a ha, rfl, rfl, rfl, rfl⟩

theorem TilesOf.buffers_sublist (h : TilesOf p tiles operands y buffers promoted) :
    buffers.Sublist y.defined := by
  induction h with
  | nil => exact .refl _
  | cons hfirst _ ih =>
    rw [Code.defined_append]
    exact (List.singleton_sublist.2 hfirst.mem_defined.1).append ih

theorem TilesOf.exists_alloc (h : TilesOf p tiles operands y buffers promoted) {v : ValueId}
    (hv : v ∈ buffers) : ∃ a ∈ y.heads, a.kind = .alloc ∧ ∃ t, a.result = some (v, t) := by
  induction h with
  | nil => cases hv
  | cons hfirst _ ih =>
    rw [Code.heads_append]
    rcases List.mem_cons.1 hv with rfl | hv
    · cases hfirst <;> exact ⟨_, List.mem_append_left _ List.mem_cons_self, rfl, _, rfl⟩
    · obtain ⟨a, ha, h⟩ := ih hv
      exact ⟨a, List.mem_append_right _ ha, h⟩

theorem TilesOf.mem_buffers (h : TilesOf p tiles operands y buffers promoted) {a : Node}
    (ha : a ∈ y.heads) (halloc : a.kind = .alloc) : ∃ v t, a.result = some (v, t) ∧ v ∈ buffers := by
  induction h with
  | nil => cases ha
  | cons hfirst _ ih =>
    rw [Code.heads_append, List.mem_append] at ha
    rcases ha with ha | ha
    · cases hfirst <;>
        simp only [Code.heads, List.nil_append, List.mem_cons, List.not_mem_nil, or_false] at ha
      · subst ha
        exact ⟨_, _, rfl, List.mem_cons_self⟩
      · rcases ha with rfl | rfl | rfl
        · exact ⟨_, _, rfl, List.mem_cons_self⟩
        · cases halloc
        · cases halloc
    · obtain ⟨v, t, hres, hv⟩ := ih ha
      exact ⟨v, t, hres, List.mem_cons_of_mem _ hv⟩

theorem TileOf.not_uses {type : BufferType} {buffer tile : ValueId} (h : TileOf p type y buffer tile)
    {n below : Node} (hn : n ∈ y.heads) (hbelow : y.defined.Disjoint below.defined) : ¬ n.Uses below := by
  rintro ⟨v, hv, hdef⟩
  have htidy : y.Tidy [] := h.tidy.1
  exact hbelow (by simpa using htidy.inScope.mem_operands hn hv) hdef

theorem TilesOf.not_uses (h : TilesOf p tiles operands y buffers promoted) {n below : Node}
    (hn : n ∈ y.heads) (hbelow : y.defined.Disjoint below.defined) : ¬ n.Uses below := by
  induction h with
  | nil => cases hn
  | cons hfirst _ ih =>
    rw [Code.defined_append, List.disjoint_append_left] at hbelow
    rw [Code.heads_append, List.mem_append] at hn
    exact hn.elim (fun hn => hfirst.not_uses hn hbelow.1) fun hn => ih hn hbelow.2

structure Veiled (x : Code) (buffers tiles : List ValueId) (view : Node) : Prop where
  held : ∀ tile ∈ x.heads, tile.Uses view → Held x.heads x.Beside view tile
  not_buffer : ∀ v ∈ buffers, v ∉ view.defined
  not_tile : ∀ v ∈ tiles, v ∉ view.defined
  not_shown : ∀ alloc ∈ x.heads, view.On alloc → ∀ v ∈ tiles, v ∉ alloc.defined

theorem TileOf.veiled {type : BufferType} {buffer tile : ValueId} (h : TileOf p type y buffer tile)
    (hnd : y.defined.Nodup) {view : Node} (hview : view ∈ y.heads) (hkind : view.kind = .view) :
    Veiled y [buffer] [tile] view := by
  cases h with
  | placed op v =>
    rw [List.mem_singleton.1 hview] at hkind
    cases hkind
  | viewed op op' op'' v v' v'' =>
    simp only [Code.defined_node, Code.defined_nil, Node.value, Node.defined, Option.map_some,
      Option.toList_some, List.append_nil, List.nil_append, List.cons_append, List.nodup_cons, List.mem_cons,
      List.not_mem_nil, or_false, not_or, not_false_eq_true, List.nodup_nil, and_true] at hnd
    obtain ⟨⟨h₁, h₂⟩, h₃⟩ := hnd
    simp only [Code.heads, List.nil_append, List.mem_cons, List.not_mem_nil, or_false] at hview
    rcases hview with rfl | rfl | rfl
    · cases hkind
    · refine ⟨fun tile htile hu => ?_, ?_, ?_, ?_⟩
      · simp only [Code.heads, List.nil_append, List.mem_cons, List.not_mem_nil, or_false] at htile
        rcases htile with rfl | rfl | rfl
        · simp [Node.Uses, Node.value] at hu
        · simp [Node.Uses, Node.value, Node.defined, h₁] at hu
        refine ⟨rfl, rfl, ?_, ?_, ?_⟩
        · simp [Code.heads, Node.Uses, Node.value, Node.defined, h₁, Ne.symm h₁]
        · simp [Code.heads, Node.Uses, Node.On, Node.value, Node.defined, h₁, Ne.symm h₁]
        · simp [Code.heads, Code.Beside, Code.tops, Node.On, Node.value, h₁, h₂]
      · simpa [Node.value, Node.defined] using h₁
      · simpa [Node.value, Node.defined] using Ne.symm h₃
      · simp [Code.heads, Node.On, Node.value, Node.defined, h₂, h₃, Ne.symm h₂]
    · cases hkind

theorem TilesOf.veiled (h : TilesOf p tiles operands y buffers promoted) (hnd : y.defined.Nodup)
    (hops : ∀ v ∈ operands, v ∉ y.defined) {view : Node} (hview : view ∈ y.heads)
    (hkind : view.kind = .view) : Veiled y buffers promoted view := by
  induction h with
  | nil => cases hview
  | @cons position type rest operands buffers promoted y y' buffer tile hfirst hrest ih =>
    simp only [Code.defined_append, List.mem_append, not_or] at hnd hops
    obtain ⟨hnd, hnd', hdis⟩ := List.nodup_append'.1 hnd
    obtain ⟨hbuffer, htile⟩ := hfirst.mem_defined
    have hops' : ∀ v ∈ operands.set position tile, v ∉ y'.defined := by
      intro v hv
      rcases List.mem_or_eq_of_mem_set hv with hv | rfl
      · exact (hops v hv).2
      · exact hdis htile
    have hapart : ∀ {n n' : Node}, n ∈ y.heads → n' ∈ y'.heads → ¬ n.Uses n' ∧ ¬ n'.Uses n := by
      intro n n' hn hn'
      have hsub : n.defined ⊆ y.defined := fun v hv => List.mem_flatMap.2 ⟨n, hn, hv⟩
      have hsub' : n'.defined ⊆ y'.defined := fun v hv => List.mem_flatMap.2 ⟨n', hn', hv⟩
      exact ⟨hfirst.not_uses hn (List.disjoint_of_subset_right hsub' hdis),
        hrest.not_uses hn' (List.disjoint_of_subset_right hsub hdis.symm)⟩
    have hkept : ∀ {n : Node}, n ∈ y.heads → tile ∉ n.defined → ∀ v ∈ promoted, v ∉ n.defined := by
      intro n hn hnot v hv hdef
      have hin : v ∈ y.defined := List.mem_flatMap.2 ⟨n, hn, hdef⟩
      rcases hrest.mem_promoted hv with hv | hv
      · rcases List.mem_or_eq_of_mem_set hv with hv | rfl
        · exact (hops v hv).1 hin
        · exact hnot hdef
      · exact hdis hin hv
    rw [Code.heads_append, List.mem_append] at hview
    rcases hview with hview | hview
    · obtain ⟨hheld, hbuffers, htiles, hshown⟩ := hfirst.veiled hnd hview hkind
      refine ⟨fun n hn hu => ?_, List.forall_mem_cons.2 ⟨hbuffers _ List.mem_cons_self, fun v hv hdef => ?_⟩,
        hkept hview (htiles _ List.mem_cons_self), fun alloc ha hon => ?_⟩
      · rw [Code.heads_append, List.mem_append] at hn
        refine (hheld n (hn.resolve_right fun hn => (hapart hview hn).2 hu) hu).extend (fun n' hn' => ?_)
          fun a d hab => Code.beside_append.2 (.inl hab)
        rw [Code.heads_append, List.mem_append] at hn'
        exact hn'.imp_right fun hn' => ⟨(hapart hview hn').2, fun hon => (hapart hview hn').1 hon.uses,
          fun alloc ha _ _ hu => ((hapart ha hn').2 hu).elim⟩
      · exact hdis (List.mem_flatMap.2 ⟨view, hview, hdef⟩) (hrest.buffers_sublist.mem hv)
      · rw [Code.heads_append, List.mem_append] at ha
        have hin := ha.resolve_right fun ha => (hapart hview ha).1 hon.uses
        exact hkept hin (hshown alloc hin hon _ List.mem_cons_self)
    · obtain ⟨hheld, hbuffers, htiles, hshown⟩ := ih hnd' hops' hview
      refine ⟨fun n hn hu => ?_, List.forall_mem_cons.2 ⟨fun hdef => ?_, hbuffers⟩, htiles,
        fun alloc ha hon => ?_⟩
      · rw [Code.heads_append, List.mem_append] at hn
        refine (hheld n (hn.resolve_left fun hn => (hapart hn hview).1 hu) hu).extend (fun n' hn' => ?_)
          fun a d hab => Code.beside_append.2 (.inr (.inl hab))
        rw [Code.heads_append, List.mem_append] at hn'
        exact hn'.symm.imp_right fun hn' => ⟨(hapart hn' hview).1, fun hon => (hapart hn' hview).2 hon.uses,
          fun alloc ha _ _ hu => ((hapart hn' ha).1 hu).elim⟩
      · exact hdis hbuffer (List.mem_flatMap.2 ⟨view, hview, hdef⟩)
      · rw [Code.heads_append, List.mem_append] at ha
        exact hshown alloc (ha.resolve_left fun ha => (hapart ha hview).2 hon.uses) hon

theorem TilesOf.not_dealloc (h : TilesOf p tiles operands y buffers promoted) :
    ∀ n ∈ y.heads, n.kind ≠ .dealloc := by
  induction h with
  | nil => simp [Code.heads]
  | cons hfirst _ ih =>
    rw [Code.heads_append, List.forall_mem_append]
    refine ⟨?_, ih⟩
    cases hfirst <;> simp [Code.heads, Node.value]

theorem TilesOf.views (h : TilesOf p tiles operands y buffers promoted) :
    ∀ n ∈ y.heads, n.kind = .view → n.operands ⊆ y.defined := by
  induction h with
  | nil => simp [Code.heads]
  | cons hfirst _ ih =>
    rw [Code.heads_append, Code.defined_append, List.forall_mem_append]
    refine ⟨?_, fun n hn hk => List.subset_append_of_subset_right _ (ih n hn hk)⟩
    cases hfirst <;> simp [Code.heads, Node.value, Node.defined]

theorem frees_or_works {a : Action} (ha : a ∈ p.actions positions operands promoted buffers) :
    (∃ v ∈ buffers, a = (.dealloc, [v], none)) ∨ (a.1 ≠ .alloc ∧ a.1 ≠ .dealloc ∧ a.1 ≠ .view) ∧
      ∀ v ∈ a.2.1, v ∈ operands ∨ v ∈ promoted := by
  simp only [actions, List.mem_append, List.mem_cons, List.mem_map] at ha
  rcases ha with ha | rfl | ha | ⟨v, hv, rfl⟩
  · exact .inr ⟨by simp [(of_mem_copies ha).1], fun v hv => mem_of_mem_copies ha hv⟩
  · exact .inr ⟨by simp, fun v hv => .inr hv⟩
  · exact .inr ⟨by simp [(of_mem_copies ha).1], fun v hv => (mem_of_mem_copies ha hv).symm⟩
  · exact .inl ⟨v, hv, rfl⟩

theorem pairwise_actions (hnd : buffers.Nodup) :
    (p.actions positions operands promoted buffers).Pairwise fun a later => a.1 = .dealloc →
      ∃ v, ∃ u ∈ buffers, u ≠ v ∧ a.2.1 = [v] ∧ later.2.1 = [u] := by
  have hcopies : ∀ {positions sources destinations}, ∀ a ∈ copies positions sources destinations,
      a.1 ≠ .dealloc := fun a ha => by simp [(of_mem_copies ha).1]
  rw [actions, List.pairwise_append, List.pairwise_cons, List.pairwise_append, List.pairwise_map]
  refine ⟨List.pairwise_of_forall_mem_list fun a ha _ _ hk => (hcopies a ha hk).elim,
    ⟨fun _ _ hk => (by cases hk),
      List.pairwise_of_forall_mem_list fun a ha _ _ hk => (hcopies a ha hk).elim, ?_,
        fun a ha _ _ hk => (hcopies a ha hk).elim⟩, fun a ha _ _ hk => (hcopies a ha hk).elim⟩
  exact hnd.imp_of_mem fun hv hu hne _ => ⟨_, _, hu, hne.symm, rfl, rfl⟩

theorem PromotedOf.tended (h : PromotedOf p operands positions tiles y) (hr : g.Represents c)
    (hsub : y.heads ⊆ c.heads) (hnd : y.defined.Nodup) (hops : ∀ v ∈ operands, v ∉ y.defined) :
    Tended y.heads y.Beside := by
  cases h with
  | @intro y y' buffers promoted htiles hactions =>
    simp only [Code.defined_append, List.mem_append, not_or] at hnd hops
    have hnd := (List.nodup_append'.1 hnd).1
    have hdefined : ∀ {n : Node}, n ∈ y.heads → n.defined ⊆ y.defined := fun hn v hv =>
      List.mem_flatMap.2 ⟨_, hn, hv⟩
    rw [Code.heads_append] at hsub ⊢
    refine ⟨fun d hd' hkind => ?_, List.pairwise_append.2 ⟨?_, ?_, ?_⟩, fun a ha halloc n _ _ => ?_,
      fun view hview hkind => ?_⟩
    · obtain ⟨op, a, ha, rfl⟩ := hactions.exists_action d
        ((List.mem_append.1 hd').resolve_left fun hd' => htiles.not_dealloc d hd' hkind)
      rcases frees_or_works ha with ⟨v, hv, rfl⟩ | ⟨⟨-, hfree, -⟩, -⟩
      · obtain ⟨a, ha, halloc, t, hres⟩ := htiles.exists_alloc hv
        exact ⟨a, List.mem_append_left _ ha, halloc, v, t, hres, rfl⟩
      · exact (hfree hkind).elim
    · exact List.pairwise_of_forall_mem_list fun d hd' _ _ hkind => (htiles.not_dealloc d hd' hkind).elim
    · refine (hactions.pairwise (pairwise_actions (hnd.sublist htiles.buffers_sublist))).imp ?_
      rintro d later ⟨a, a', hpair, hkind, hops, -, hops'⟩ hfree v hv ⟨u, hu, hshows⟩
      obtain ⟨v', u', hu', hne, he, he'⟩ := hpair (hkind ▸ hfree)
      obtain rfl : v = v' := by simpa [hops, he] using hv
      obtain rfl : u = u' := by simpa [hops', he'] using hu
      obtain ⟨a, ha, halloc, t, hres⟩ := htiles.exists_alloc hu'
      exact hne ((hshows.mono hsub).eq_of_alloc hr (hsub (List.mem_append_left _ ha)) halloc hres).symm
    · exact fun d hd' _ _ hkind => (htiles.not_dealloc d hd' hkind).elim
    · have hin : a ∈ y.heads := by
        refine (List.mem_append.1 ha).resolve_right fun ha => ?_
        obtain ⟨op, action, haction, rfl⟩ := hactions.exists_action a ha
        rcases frees_or_works haction with ⟨v, -, rfl⟩ | ⟨⟨hnot, -⟩, -⟩
        · cases halloc
        · exact hnot halloc
      obtain ⟨v, t, hres, hv⟩ := htiles.mem_buffers hin halloc
      obtain ⟨op, hd'⟩ := hactions.mem_heads (a := (.dealloc, [v], none)) (by simp [actions, hv])
      exact ⟨_, List.mem_append_right _ hd', rfl,
        ⟨v, List.mem_singleton_self v, by simp [Node.defined, hres]⟩,
        Code.beside_append.2 (.inr (.inr ⟨htiles.tops_eq ▸ hin, hactions.tops_eq ▸ hd'⟩))⟩
    · have hin : view ∈ y.heads := by
        refine (List.mem_append.1 hview).resolve_right fun hview => ?_
        obtain ⟨op, a, ha, rfl⟩ := hactions.exists_action view hview
        rcases frees_or_works ha with ⟨v, -, rfl⟩ | ⟨⟨-, -, hnot⟩, -⟩
        · cases hkind
        · exact hnot hkind
      obtain ⟨hheld, hbuffers, htiles', hshown⟩ :=
        htiles.veiled hnd (fun v hv => (hops v hv).1) hin hkind
      have hout : ∀ n ∈ y'.heads, ¬ n.Uses view := by
        rintro n hn ⟨v, hv, hdef⟩
        obtain ⟨op, a, ha, rfl⟩ := hactions.exists_action n hn
        rcases frees_or_works ha with ⟨u, hu, rfl⟩ | ⟨-, hworks⟩
        · exact hbuffers v (List.mem_singleton.1 hv ▸ hu) hdef
        · exact (hworks v hv).elim (fun hv => (hops v hv).1 (hdefined hin hdef))
            fun hv => htiles' v hv hdef
      intro tile htile hu
      refine (hheld tile ((List.mem_append.1 htile).resolve_right fun htile => hout tile htile hu) hu).extend
        (fun n hn => (List.mem_append.1 hn).imp_right fun hn => ⟨hout n hn, ?_, ?_⟩)
          fun a d hab => Code.beside_append.2 (.inl hab)
      · rintro ⟨v, -, hres⟩
        obtain ⟨op, a, -, rfl⟩ := hactions.exists_action n hn
        cases hres
      · rintro alloc ha - hon ⟨v, hv, hdef⟩
        obtain ⟨op, a, ha', rfl⟩ := hactions.exists_action n hn
        rcases frees_or_works ha' with ⟨u, -, rfl⟩ | ⟨-, hworks⟩
        · rfl
        · exact ((hworks v hv).elim (fun hv => (hops v hv).1 (hdefined ha hdef))
            fun hv => hshown alloc ha hon v hv hdef).elim

theorem PromotedOf.views (h : PromotedOf p operands positions tiles y) :
    ∀ n ∈ y.heads, n.kind = .view → n.operands ⊆ y.defined := by
  cases h with
  | @intro y y' buffers promoted htiles hactions =>
    rw [Code.heads_append, Code.defined_append, List.forall_mem_append]
    refine ⟨fun n hn hk => List.subset_append_of_subset_left _ (htiles.views n hn hk), fun n hn hk => ?_⟩
    obtain ⟨op, a, ha, rfl⟩ := hactions.exists_action n hn
    rcases frees_or_works ha with ⟨v, -, rfl⟩ | ⟨⟨-, -, hnot⟩, -⟩
    · cases hk
    · exact (hnot hk).elim

end Promotion

namespace KernelPlan

variable {plan : KernelPlan} {step : Step}

theorem gives_tended_code (hops : ∀ v ∈ hd.operands, f.Has v)
    (hr : f.Represents (k.plug (b ++ .node hd x z))) :
    ((plan.rule step).apply f hd.op).Gives True fun g => ∃ y, Splice f g k b y z ∧
      y.Scoped hd.operands ∧ (∀ n ∈ y.heads, n.kind = .view → n.operands ⊆ y.defined) ∧
        Tended y.heads y.Beside := by
  have htiling : ∀ t : Tiling, ((Rule.tiling t).apply f hd.op).Gives True fun g => ∃ y,
      Splice f g k b y z ∧ y.Scoped hd.operands ∧
        (∀ n ∈ y.heads, n.kind = .view → n.operands ⊆ y.defined) ∧ Tended y.heads y.Beside := by
    intro t
    refine (Tiling.gives_splice hops hr).mono ?_
    rintro g - ⟨tiles, ns, y, -, hnests, hsplice⟩
    exact ⟨y, hsplice, (hnests.tidy fun v hv => hv).inScope,
      fun n hn hk => ((hnests.plain n hn).2.2 hk).elim, .of_plain hnests.plain⟩
  have hpromotion : ∀ p : Promotion, ((Rule.promotion p).apply f hd.op).Gives True fun g => ∃ y,
      Splice f g k b y z ∧ y.Scoped hd.operands ∧
        (∀ n ∈ y.heads, n.kind = .view → n.operands ⊆ y.defined) ∧ Tended y.heads y.Beside := by
    intro p
    refine (Promotion.gives_splice hops hr).mono ?_
    rintro g - ⟨types, y, -, hpromoted, hsplice⟩
    refine ⟨y, hsplice, (hpromoted.tidy fun v hv => hv).inScope, hpromoted.views,
      hpromoted.tended hsplice.represents (fun n hn => ?_) (hsplice.defined ▸ nodup_freshValues _ _)
        fun v hv hdef => Nat.not_lt.2 (hsplice.size_le hdef) (hops v hv)⟩
    simp [Spine.mem_heads_plug, hn]
  cases htransition : step.transition <;> simp only [rule, htransition]
  · exact htiling _
  · exact hpromotion _
  · exact htiling _
  · exact hpromotion _

theorem gives_tended (h : f.Orderly) (ht : f.TendsBuffers) (hr : f.Represents (k.plug (b ++ .node hd x z)))
    (hstep : step ∈ plan.steps) :
    ((plan.rule step).apply f hd.op).Gives True fun g => (g.Orderly ∧ g.TendsBuffers) ∧ f.Grows g := by
  have hhd := Spine.mem_heads_at k b x z hd
  have hchange := (Staged.mk h (by simp) : plan.Staged 0 f).change hr hstep
  refine (gives_tended_code (h.has hr hd hhd) hr).mono ?_
  rintro g happly ⟨y, hsplice, hy, hviews, htended⟩
  obtain ⟨rfl, hdefined, -, -, horderly, -⟩ := hchange.of_answers happly
  rw [Rule.apply, Inspect.answers_bind] at happly
  obtain ⟨⟨⟩, hcheck, -⟩ := happly
  obtain ⟨hkind, -⟩ := of_check (hr.exists_record hhd) hcheck
  have hold := ht
  rw [Function.TendsBuffers, hr.code_eq] at hold
  have hinherits := Function.Inherits.of_kernel hr h.sorted (h.has hr) hold hkind hdefined hsplice hy hviews
  exact ⟨⟨horderly, hinherits.tended hold htended⟩, hsplice.grows⟩

theorem keeps_tended (plan : KernelPlan) : Greedy.Keeps (· = .overflow)
    (fun f => f.Orderly ∧ f.TendsBuffers) plan.stageRules where
  wellFormed _ h := h.1.tidy.wellFormed
  sheds _ _ _ _ _ _ _ h hs := by
    obtain rfl := h.1.body_eq_nil hs
    exact ⟨h.1.shed hs, hs.tended h.2⟩
  rule rule hrule _ _ _ _ _ _ h hr := by
    obtain ⟨step, hstep, rfl⟩ := List.mem_map.1 hrule
    exact ends_overflow.2 <| Yields.mono (gives_tended h.1 h.2 hr hstep) fun _ _ hgives g hg =>
      have hchange := hgives g hg
      ⟨hchange.1, hchange.2.ops⟩

end KernelPlan

end KernelLowering
