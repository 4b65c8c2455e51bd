import KernelLowering.Proofs.Arena.Check
import KernelLowering.Proofs.Promotion.Locals
import KernelLowering.Proofs.Tiling.Updates

namespace KernelLowering.Promotion

variable {p : Promotion} {fresh buffers : List ValueId} {positions ps : List Nat}
  {refs tiles : List Ref} {m m' : Memory}

theorem runs_allocs (h : Runs (buffers.map .alloc) m m') {c : Ref.Cell} (hc : c.1 ∉ buffers) :
    m' c = m c := by
  induction buffers generalizing m with
  | nil => exact congrFun h c
  | cons buffer buffers ih =>
    obtain ⟨m₁, hstep, hrest⟩ := h
    rw [List.mem_cons, not_or] at hc
    exact (ih hrest hc.2).trans (hstep c hc.1)

theorem transfers_cons {i : Nat} {r t : Ref} (hr : refs[i]? = some r) (ht : tiles[i]? = some t) :
    transfers (i :: ps) refs tiles = .copy r t :: transfers ps refs tiles := by
  simp [transfers, hr, ht]

theorem runs_transfers_cons {i : Nat} (h : Runs (transfers (i :: ps) refs tiles) m m') :
    Runs (transfers ps refs tiles) m m' ∨ ∃ r t, refs[i]? = some r ∧ tiles[i]? = some t ∧
      Runs (transfers ps refs tiles) (m.copy r t) m' := by
  cases hr : refs[i]? with
  | none => exact .inl (by simpa [transfers, hr] using h)
  | some r =>
    cases ht : tiles[i]? with
    | none => exact .inl (by simpa [transfers, hr, ht] using h)
    | some t =>
      rw [transfers_cons hr ht] at h
      obtain ⟨_, rfl, hrest⟩ := h
      exact .inr ⟨r, t, rfl, rfl, hrest⟩

theorem runs_transfers_of_ne (h : Runs (transfers ps refs tiles) m m') {c : Ref.Cell}
    (hc : ∀ i ∈ ps, ∀ t, tiles[i]? = some t → t.root ≠ c.1) : m' c = m c := by
  induction ps generalizing m with
  | nil => exact congrFun h c
  | cons i ps ih =>
    obtain ⟨hi, hps⟩ := List.forall_mem_cons.1 hc
    rcases runs_transfers_cons h with h | ⟨r, t, -, ht, h⟩
    · exact ih h hps
    · rw [ih h hps]
      exact Memory.copy_of_ne fun j _ e => hi t ht (congrArg Prod.fst e)

namespace Localizes

theorem shape (h : Localizes fresh positions refs tiles) {i : Nat} {r t : Ref}
    (hr : refs[i]? = some r) (ht : tiles[i]? = some t) : t.shape = r.shape := by
  have hshapes := congrArg (fun shapes => shapes[i]?) h.shapes
  simpa [hr, ht] using hshapes

theorem runs_transfers (h : Localizes fresh positions refs tiles)
    (hroots : ∀ r ∈ refs, r.root ∉ fresh) (hps : ps ⊆ positions)
    (hruns : Runs (transfers ps refs tiles) m m') {i : Nat} {r t : Ref} (hi : i ∈ ps)
    (hr : refs[i]? = some r) (ht : tiles[i]? = some t) {j : List Int} (hj : j ∈ box r.shape) :
    m' (t.cell j) = m (r.cell j) := by
  induction ps generalizing m with
  | nil => cases hi
  | cons k ps ih =>
    obtain ⟨hk, hsub⟩ := List.cons_subset.1 hps
    by_cases hmem : i ∈ ps
    · rcases runs_transfers_cons hruns with hruns | ⟨r', t', -, ht', hruns⟩
      · exact ih hsub hruns hmem
      · rw [ih hsub hruns hmem]
        refine Memory.copy_of_ne fun j' _ e => hroots r (List.mem_of_getElem? hr) ?_
        have hroot : t'.root = r.root := congrArg Prod.fst e
        exact hroot ▸ (h.moved hk ht').1
    · obtain rfl := (List.mem_cons.1 hi).resolve_right hmem
      rw [transfers_cons hr ht] at hruns
      obtain ⟨_, rfl, hruns⟩ := hruns
      rw [runs_transfers_of_ne hruns fun k hk' s hs =>
        h.apart (fun e : k = i => hmem (e ▸ hk')) (hsub hk') hs ht]
      refine Memory.copy_cell (h.shape hr ht).symm (h.moved hk ht).2 (.of_root_ne fun e => ?_) hj
      exact hroots r (List.mem_of_getElem? hr) (e ▸ (h.moved hk ht).1)

theorem disjoint (h : Localizes fresh positions refs tiles) {i j : Nat} {r s t u : Ref}
    (hij : i ≠ j) (hr : refs[i]? = some r) (hs : refs[j]? = some s)
    (ht : tiles[i]? = some t) (hu : tiles[j]? = some u) (hdisjoint : r.Disjoint s) :
    t.Disjoint u := by
  by_cases hi : i ∈ positions
  · exact .of_root_ne (h.apart hij hi ht hu)
  by_cases hj : j ∈ positions
  · exact .of_root_ne (h.apart hij.symm hj hu ht).symm
  rw [h.kept i hi, hr, Option.some.injEq] at ht
  rw [h.kept j hj, hs, Option.some.injEq] at hu
  rwa [← ht, ← hu]

theorem holds (h : Localizes fresh positions refs tiles) (hroots : ∀ r ∈ refs, r.root ∉ fresh)
    (hbuffers : buffers ⊆ fresh)
    (hruns : Runs (buffers.map .alloc ++ transfers positions refs tiles) m m') :
    (∀ c : Ref.Cell, c.1 ∉ fresh → m' c = m c) ∧
      ∀ (i : Nat) (r t : Ref), refs[i]? = some r → tiles[i]? = some t →
        ∀ j ∈ box r.shape, m' (t.cell j) = m (r.cell j) := by
  obtain ⟨m₁, hallocs, hin⟩ := runs_append.1 hruns
  have hfirst : ∀ c : Ref.Cell, c.1 ∉ fresh → m₁ c = m c := fun c hc =>
    runs_allocs hallocs fun hmem => hc (hbuffers hmem)
  have hframe : ∀ c : Ref.Cell, c.1 ∉ fresh → m' c = m c := fun c hc => by
    rw [runs_transfers_of_ne hin fun i hi t ht e => hc (e ▸ (h.moved hi ht).1), hfirst c hc]
  refine ⟨hframe, fun i r t hr ht j hj => ?_⟩
  have hroot := hroots r (List.mem_of_getElem? hr)
  by_cases hi : i ∈ positions
  · rw [h.runs_transfers hroots (List.Subset.refl _) hin hi hr ht hj, hfirst _ hroot]
  · rw [h.kept i hi, hr, Option.some.injEq] at ht
    rw [← ht, hframe _ hroot]

theorem preserves {kind : KernelKind} {extents : List Int} {m'' : Memory}
    (h : Localizes fresh positions refs tiles) (hroots : ∀ r ∈ refs, r.root ∉ fresh)
    (hextents : kind.extentsOf (refs.map (·.shape)) = .ok (some extents))
    (hdisjoint : refs.Pairwise Ref.Disjoint)
    (hdistinct : kind.outputOperand ∈ positions → ∀ z, refs[kind.outputOperand]? = some z → z.Distinct)
    (hbuffers : buffers ⊆ fresh) (hkernel : Runs [.kernel kind refs] m m')
    (hruns : Runs (buffers.map .alloc ++ (transfers positions refs tiles ++ .kernel kind tiles ::
      transfers (if kind.outputOperand ∈ positions then [kind.outputOperand] else []) tiles refs)) m m'')
    {c : Ref.Cell} (hc : c.1 ∉ fresh) : m'' c = m' c := by
  obtain ⟨mx, my, mz, hmaps⟩ : ∃ a b c : OperandMap, kind.operandMaps = [a, b, c] := by
    cases kind <;> exact ⟨_, _, _, rfl⟩
  have hlen : refs.length = 3 := by
    simpa using (KernelKind.extentsOf_eq_ok.1 hextents).1.length_shapes
  have hlen' : tiles.length = 3 := by
    simpa [hlen] using congrArg List.length h.shapes
  obtain ⟨x, y, z, rfl⟩ := List.length_eq_three.1 hlen
  obtain ⟨x', y', z', rfl⟩ := List.length_eq_three.1 hlen'
  obtain ⟨_, rfl, rfl⟩ := hkernel
  rw [← List.append_assoc] at hruns
  obtain ⟨m₂, hin, _, rfl, hout⟩ := runs_append.1 hruns
  obtain ⟨hframe, hheld⟩ := h.holds hroots hbuffers hin
  simp only [List.pairwise_cons, List.mem_cons, List.not_mem_nil, or_false, forall_eq_or_imp,
    forall_eq, false_implies, implies_true, List.Pairwise.nil, and_true] at hdisjoint
  obtain ⟨⟨-, hxz⟩, hyz⟩ := hdisjoint
  have hextents' : kind.extentsOf [x'.shape, y'.shape, z'.shape] = .ok (some extents) := by
    rw [← hextents, ← h.shapes]
    rfl
  have hzx' : z'.Disjoint x' := h.disjoint (i := 2) (j := 0) (by decide) rfl rfl rfl rfl hxz.symm
  have hzy' : z'.Disjoint y' := h.disjoint (i := 2) (j := 1) (by decide) rfl rfl rfl rfl hyz.symm
  have hsum := Memory.foldl_updates hmaps hextents hxz.symm hyz.symm m
  have hsum' := Memory.foldl_updates hmaps hextents' hzx' hzy' m₂
  have hgain : ∀ d d', (∀ i ∈ box z.shape, z'.cell i = d' ↔ z.cell i = d) →
      m₂.gain extents x' y' z' mx my mz d' = m.gain extents x y z mx my mz d := fun d d' hd =>
    Memory.gain_congr hmaps hextents (hheld 0 x x' rfl rfl) (hheld 1 y y' rfl rfl) hd
  by_cases hmem : kind.outputOperand ∈ positions
  · rw [if_pos hmem] at hout
    obtain ⟨_, rfl, rfl⟩ := hout
    obtain ⟨hroot, hdistinct'⟩ := h.moved (t := z') hmem rfl
    have hroot' : z.root ∉ fresh := hroots z (by simp)
    have hshape : z'.shape = z.shape := h.shape (i := 2) rfl rfl
    by_cases hex : ∃ j ∈ box z.shape, z.cell j = c
    · obtain ⟨j, hj, rfl⟩ := hex
      rw [Memory.copy_cell hshape (hdistinct hmem z rfl)
        (.of_root_ne fun e => hroot' (e ▸ hroot)) (hshape ▸ hj), hsum', hsum,
        hheld 2 z z' rfl rfl j hj, hgain (z.cell j) (z'.cell j)]
      refine fun i hi => ⟨fun e => ?_, fun e => ?_⟩
      · rw [hdistinct' i (hshape ▸ hi) j (hshape ▸ hj) e]
      · rw [hdistinct hmem z rfl i hi j hj e]
    · have hz : ∀ i ∈ box z.shape, z.cell i ≠ c := fun i hi e => hex ⟨i, hi, e⟩
      rw [Memory.copy_of_ne (hshape ▸ hz), hsum', hsum, hframe c hc, hgain c c]
      refine fun i hi => ⟨fun e => absurd (congrArg Prod.fst e) fun e => ?_, fun e => absurd e (hz i hi)⟩
      exact hc (e ▸ hroot)
  · rw [if_neg hmem] at hout
    obtain rfl : z = z' := Option.some.inj (h.kept kind.outputOperand hmem).symm
    obtain rfl : m'' = _ := hout
    rw [hsum', hsum, hframe c hc, hgain c c fun _ _ => .rfl]

end Localizes

def kernelsOf (x : Code) : List (KernelKind × List ValueId) :=
  x.heads.filterMap fun h => h.kind.kernel?.map fun kind => (kind, h.operands)

theorem kernelsOf_append (x y : Code) : kernelsOf (x ++ y) = kernelsOf x ++ kernelsOf y := by
  rw [kernelsOf, Code.heads_append, List.filterMap_append]
  rfl

variable {operands promoted : List ValueId} {y : Code} {g : Function} {types : List BufferType}

theorem TilesOf.kernelsOf_eq_nil {all : List (Nat × BufferType)}
    (h : TilesOf p all operands y buffers promoted) : kernelsOf y = [] := by
  induction h with
  | nil => rfl
  | cons hfirst _ ih =>
    rw [kernelsOf_append, ih]
    cases hfirst <;> rfl

theorem ActionsOf.kernelsOf_eq {as : List Action} (h : ActionsOf as y) :
    kernelsOf y = as.filterMap fun a => a.1.kernel?.map fun kind => (kind, a.2.1) := by
  induction h with
  | nil => rfl
  | cons op _ ih =>
    rw [List.filterMap_cons, ← ih]
    rfl

theorem kernels_actions (positions : List Nat) (operands promoted buffers : List ValueId) :
    (p.actions positions operands promoted buffers).filterMap
      (fun a => a.1.kernel?.map fun kind => (kind, a.2.1)) = [(p.kind, promoted)] := by
  have hcopies : ∀ positions sources destinations, (copies positions sources destinations).filterMap
      (fun a => a.1.kernel?.map fun kind => (kind, a.2.1)) = [] := by
    intro positions sources destinations
    refine List.filterMap_eq_nil_iff.2 fun a ha => ?_
    rw [(of_mem_copies ha).1]
    rfl
  rw [actions, List.filterMap_append, List.filterMap_cons, List.filterMap_append, hcopies, hcopies]
  simp [OpKind.kernel?]

theorem TilesOf.kept {all : List (Nat × BufferType)} (h : TilesOf p all operands y buffers promoted)
    {i : Nat} (hi : i ∉ all.map (·.1)) : promoted[i]? = operands[i]? := by
  induction h with
  | nil => rfl
  | cons _ _ ih =>
    rw [List.map_cons, List.mem_cons, not_or] at hi
    rw [ih hi.2, List.getElem?_set_ne (Ne.symm hi.1)]

theorem TileOf.type {type : BufferType} {buffer tile : ValueId} (h : TileOf p type y buffer tile) :
    ∃ hd ∈ y.heads, ∃ result, hd.result = some (tile, .buffer result) ∧ result.shape = type.shape := by
  cases h with
  | placed op v => exact ⟨_, List.mem_singleton_self _, _, rfl, rfl⟩
  | viewed op op' op'' v v' v'' hspace hsize hresult =>
    exact ⟨_, .tail _ (.tail _ (.head _)), _, rfl, (Window.of_resultType hresult).1⟩

theorem TilesOf.exists_types {all : List (Nat × BufferType)}
    (h : TilesOf p all operands y buffers promoted)
    (htypes : List.Forall₂ (fun v type => g.bufferType? v = .ok (some type)) operands types)
    (hshapes : ∀ a ∈ all, ∀ shape, (types.map (·.shape))[a.1]? = some shape → shape = a.2.shape)
    (hnew : ∀ hd ∈ y.heads, ∀ v type, hd.result = some (v, .buffer type) →
      g.bufferType? v = .ok (some type)) :
    ∃ types', List.Forall₂ (fun v type => g.bufferType? v = .ok (some type)) promoted types' ∧
      types'.map (·.shape) = types.map (·.shape) := by
  induction h generalizing types with
  | nil => exact ⟨types, htypes, rfl⟩
  | @cons position type rest operands buffers promoted y y' buffer tile hfirst _ ih =>
    rw [Code.heads_append, List.forall_mem_append] at hnew
    obtain ⟨hself, hrest⟩ := List.forall_mem_cons.1 hshapes
    obtain ⟨hd, hhd, result, hresult, hshape⟩ := hfirst.type
    have hsame : (types.set position result).map (·.shape) = types.map (·.shape) :=
      map_set_eq_self fun shape hs => (hself shape hs).trans hshape.symm
    rw [← hsame]
    exact ih (forall₂_set htypes (hnew.1 hd hhd _ _ hresult) position) (hsame ▸ hrest) hnew.2

theorem TypesAt.zip {f : Function} {found : List (Option BufferType)}
    (h : TypesAt f operands positions found)
    (htypes : List.Forall₂ (fun v type => f.bufferType? v = .ok (some type)) operands types) :
    (positions.zip found.reduceOption).map (·.1) = positions ∧
      ∀ a ∈ positions.zip found.reduceOption, types[a.1]? = some a.2 := by
  induction h with
  | nil => exact ⟨rfl, by simp⟩
  | @cons i type positions found hfirst _ ih =>
    obtain ⟨v, hv, htype⟩ := hfirst
    rcases forall₂_getElem? htypes i with ⟨hnone, -⟩ | ⟨u, type', hu, htype', hsome⟩
    · rw [hv] at hnone
      cases hnone
    · rw [hv, Option.some.injEq] at hu
      subst u
      obtain rfl : type = some type' := Except.ok.inj (htype.symm.trans hsome)
      have hcons : (some type' :: found).reduceOption = type' :: found.reduceOption := rfl
      rw [hcons, List.zip_cons_cons, List.map_cons, List.forall_mem_cons, ih.1]
      exact ⟨rfl, htype', ih.2⟩

theorem TilesOf.bufferTypes?_eq {f : Function} {k : Spine} {b z y' : Code} {all : List (Nat × BufferType)}
    (h : TilesOf p all operands y buffers promoted) (hall : ∀ a ∈ all, types[a.1]? = some a.2)
    (htypes : List.Forall₂ (fun v type => f.bufferType? v = .ok (some type)) operands types)
    (hsplice : Splice f g k b (y ++ y') z) : ∃ types', g.bufferTypes? promoted = .ok (some types') ∧
      types'.map (·.shape) = types.map (·.shape) := by
  obtain ⟨types', htypes', hshapes⟩ := h.exists_types
    (htypes.imp fun _ _ hv => hsplice.grows.bufferType? hv)
    (fun a ha shape hs => by
      rw [List.getElem?_map, hall a ha, Option.map_some, Option.some.injEq] at hs
      exact hs.symm)
    fun h hh v type hv => by
      refine hsplice.represents.bufferType?_eq (Spine.mem_heads_plug.2 (.inl ?_)) hv
      simp only [Code.heads_append, List.mem_append]
      exact .inr (.inl (.inl hh))
  exact ⟨types', Tiling.bufferTypes?_eq_some.2 htypes', hshapes⟩

section Rule

variable {f : Function} {op : OpId} {o : Operation} {extents : List Int}

/-- From any memory, the second run leaves in the buffers of these roots what the first leaves there. -/
def SameEffect (roots : ValueId → Prop) (as bs : List KernelLowering.Action) : Prop :=
  ∀ m m' m'', Runs as m m' → Runs bs m m'' → ∀ c : Ref.Cell, roots c.1 → m'' c = m' c

theorem mem_types (htypes : List.Forall₂ (fun v type => f.bufferType? v = .ok (some type)) operands types)
    {v : ValueId} {type : BufferType} (hv : v ∈ operands) (htype : f.bufferType? v = .ok (some type)) :
    type ∈ types := by
  obtain ⟨i, hi, rfl⟩ := List.mem_iff_getElem.1 hv
  have hi' := htypes.length_eq ▸ hi
  have hget := (List.forall₂_iff_get.1 htypes).2 i hi hi'
  obtain rfl : type = types[i] := Option.some.inj (Except.ok.inj (htype.symm.trans hget))
  exact List.getElem_mem hi'

theorem PromotedOf.sameEffect {all : List (Nat × BufferType)} {hd : Node} {x : Code} {env : Env}
    (h : PromotedOf p hd.operands positions all y) (hpositions : all.map (·.1) = positions)
    (hkind : hd.kind = .kernel p.kind) (hextents : p.kind.iterationExtents types = .ok (some extents))
    (hshapes : ∀ a ∈ all, ∀ shape, (types.map (·.shape))[a.1]? = some shape → shape = a.2.shape)
    (hnd : y.defined.Nodup) (hhas : ∀ v ∈ hd.operands, f.Has v) (hfresh : ∀ v, f.Has v → v ∉ y.defined)
    (hb : Tiling.Bound env hd.operands types refs) (hroots : ∀ r ∈ refs, f.Has r.root)
    (hdisjoint : refs.Pairwise Ref.Disjoint) (hdistinct : p.kind.outputOperand ∈ positions →
      ∀ r, refs[p.kind.outputOperand]? = some r → r.Distinct) :
    SameEffect f.Has ((Code.node hd x .nil).trace env) (y.trace env) := by
  intro m m' m'' hruns hruns' c hc
  have hsame : refs.map (·.shape) = types.map (·.shape) := by
    rw [← List.forall₂_eq_eq_eq, List.forall₂_map_left_iff, List.forall₂_map_right_iff]
    exact hb.shapes
  have hfresh' : ∀ r ∈ refs, r.root ∉ y.defined := fun r hr => hfresh _ (hroots r hr)
  obtain ⟨buffers, tiles, hbuffers, hL, htrace⟩ := h.trace hnd (fun v hv => hfresh v (hhas v hv))
    hb.bound hfresh' (hsame ▸ hshapes)
  rw [htrace] at hruns'
  rw [Tiling.trace_kernel hkind (Env.mapM_ref?_eq_some.2 hb.bound)] at hruns
  rw [KernelKind.iterationExtents, ← hsame] at hextents
  exact (hpositions ▸ hL).preserves (fun r hr hm => hfresh' r hr (hbuffers hm)) hextents hdisjoint
    hdistinct (List.Subset.refl _) hruns hruns' fun hm => hfresh _ hc (hbuffers hm)

theorem performAt_sameEffect (hf : f.WellFormed) (hop : f.op op = .ok o)
    (hlive : f.isLive op = .ok true) (hcheck : (p.check f op).Answers ())
    (htypes : f.bufferTypes? o.operands = .ok (some types))
    (hextents : p.kind.iterationExtents types = .ok (some extents)) :
    ∃ k b hd x z positions, f.code = Spine.plug k (b ++ .node hd x z) ∧ hd.op = op ∧
      p.candidates f op = .ok positions ∧
      Yields (∃ type ∈ types, p.Overflows type) ((Rule.promotion p).performAt f op) fun g =>
        ∃ y promoted types', g.code = k.plug (b ++ (y ++ z)) ∧ kernelsOf y = [(p.kind, promoted)] ∧
          g.bufferTypes? promoted = .ok (some types') ∧
          p.kind.iterationExtents types' = .ok (some extents) ∧
          (∀ i ∉ positions, promoted[i]? = o.operands[i]?) ∧
          ∀ env refs, Tiling.Bound env o.operands types refs → (∀ r ∈ refs, f.Has r.root) →
            refs.Pairwise Ref.Disjoint →
            (p.kind.outputOperand ∈ positions →
              ∀ r, refs[p.kind.outputOperand]? = some r → r.Distinct) →
            SameEffect f.Has ((Code.node hd x .nil).trace env) (y.trace env) := by
  obtain ⟨k, b, hd, x, z, hcode, rfl⟩ := Tiling.exists_spine_of_isLive hf hlive
  have hrep : f.Represents (k.plug (b ++ .node hd x z)) := hcode ▸ hf
  obtain rfl : o = hd.record k.parent x.roots := Except.ok.inj (hop.symm.trans hrep.record_at)
  have hkind := kind_of_answers hrep hcheck
  have htypes' := Tiling.bufferTypes?_eq_some.1 htypes
  have hhas : ∀ v ∈ hd.operands, f.Has v := Tiling.index_lt_of_types htypes'
  refine ⟨k, b, hd, x, z, _, hcode, rfl, candidates_eq hrep (.of_has hhas), ?_⟩
  rw [Rule.performAt, Yields.map_iff]
  refine (yields_perform hrep (.of_has hhas) fun v hv type htype hover =>
    ⟨type, mem_types htypes' hv htype, hover⟩).mono ?_
  generalize p.promotable (k.plug (b ++ .node hd x z)) hd.operands = positions
  rintro ⟨_, g⟩ - ⟨found, y, hfound, hpromoted, hsplice⟩
  obtain ⟨hpositions, hall⟩ := hfound.zip htypes'
  generalize positions.zip found.reduceOption = all at hpositions hall hpromoted
  have hshapes : ∀ a ∈ all, ∀ shape, (types.map (·.shape))[a.1]? = some shape → shape = a.2.shape := by
    intro a ha shape hs
    rw [List.getElem?_map, hall a ha, Option.map_some, Option.some.injEq] at hs
    exact hs.symm
  have hnd : y.defined.Nodup := hsplice.defined ▸ nodup_freshValues _ _
  have hfresh : ∀ v, f.Has v → v ∉ y.defined := fun v hv hmem =>
    Nat.not_lt_of_le (hsplice.size_le hmem) hv
  cases hpromoted with
  | @intro y y' buffers promoted htiles hactions =>
    have hkernels : kernelsOf (y ++ y') = [(p.kind, promoted)] := by
      rw [kernelsOf_append, htiles.kernelsOf_eq_nil, hactions.kernelsOf_eq, kernels_actions]
      rfl
    obtain ⟨types', htypes', hsame⟩ := htiles.bufferTypes?_eq hall htypes' hsplice
    exact ⟨y ++ y', promoted, types', hsplice.represents.code_eq, hkernels, htypes',
      by rwa [KernelKind.iterationExtents, hsame],
      fun i hi => htiles.kept (hpositions ▸ hi), fun _ _ => (PromotedOf.intro htiles hactions).sameEffect
        hpositions hkind hextents hshapes hnd hhas hfresh⟩

end Rule

section Example

def rowsWindow (stride : Int) : Window := ⟨[.static 0, .static 0], [2, 1], [stride, 1]⟩

def rowsView (stride : Int) : BufferType :=
  ⟨[2, 1], .sint32, .strided (some 0) [stride, 1], .global⟩

def rowsOver (stride : Int) : Function where
  name := "rows"
  ops := #[⟨.subView (rowsWindow stride), [⟨2⟩], some ⟨3⟩, none, [], [], none, true⟩,
    ⟨.kernel .matmul, [⟨0⟩, ⟨1⟩, ⟨3⟩], none, some .selected, [], [], none, true⟩]
  values := #[⟨.buffer (.rowMajor [2, 1] .sint32 .global), .argument 0⟩,
    ⟨.buffer (.rowMajor [1, 1] .sint32 .global), .argument 1⟩,
    ⟨.buffer (.rowMajor [2, 1] .sint32 .global), .argument 2⟩,
    ⟨.buffer (rowsView stride), .result ⟨0⟩⟩]
  arity := 3
  body := [⟨0⟩, ⟨1⟩]

def rowsTypes (stride : Int) : List BufferType :=
  [.rowMajor [2, 1] .sint32 .global, .rowMajor [1, 1] .sint32 .global, rowsView stride]

def rowsSum (stride : Int) : Ref := ⟨⟨2⟩, fun i => (rowsWindow stride).shift [0, 0] i, [2, 1]⟩

def rowsRefs (stride : Int) : List Ref :=
  [.whole ⟨0⟩ [2, 1], .whole ⟨1⟩ [1, 1], rowsSum stride]

def sumPromotion (positions : List Nat) (space : Option MemorySpace) : Promotion :=
  ⟨.matmul, ⟨some positions, space⟩, ⟨.selected, .promotedMid, by decide⟩⟩

theorem rowsOver_bound (stride : Int) :
    Tiling.Bound ((rowsOver stride).code.after (Env.entry (rowsOver stride))) [⟨0⟩, ⟨1⟩, ⟨3⟩]
      (rowsTypes stride) (rowsRefs stride) :=
  ⟨.cons rfl (.cons rfl (.cons rfl .nil)), .cons rfl (.cons rfl (.cons rfl .nil))⟩

theorem performAt_sameEffect_rows : ∃ g k b hd x z y promoted,
    (Rule.promotion (sumPromotion [2, 7, 2] none)).performAt (rowsOver 1) ⟨1⟩ = .ok g ∧ hd.op = ⟨1⟩ ∧
      (rowsOver 1).code = Spine.plug k (b ++ .node hd x z) ∧ g.code = k.plug (b ++ (y ++ z)) ∧
      kernelsOf y = [(.matmul, promoted)] ∧
      SameEffect (rowsOver 1).Has
        ((Code.node hd x .nil).trace ((rowsOver 1).code.after (Env.entry (rowsOver 1))))
        (y.trace ((rowsOver 1).code.after (Env.entry (rowsOver 1)))) := by
  have hf : (rowsOver 1).WellFormed := by decide +kernel
  have hcheck : ((sumPromotion [2, 7, 2] none).check (rowsOver 1) ⟨1⟩).Answers () := rfl
  have hcandidates : (sumPromotion [2, 7, 2] none).candidates (rowsOver 1) ⟨1⟩ = .ok [2, 2] := rfl
  have hop : (rowsOver 1).op ⟨1⟩ =
    .ok ⟨.kernel .matmul, [⟨0⟩, ⟨1⟩, ⟨3⟩], none, some .selected, [], [], none, true⟩ := rfl
  have htypes : (rowsOver 1).bufferTypes? [⟨0⟩, ⟨1⟩, ⟨3⟩] = .ok (some (rowsTypes 1)) := rfl
  have hextents : KernelKind.matmul.iterationExtents (rowsTypes 1) = .ok (some [2, 1, 1]) := rfl
  have hthm := performAt_sameEffect hf hop rfl hcheck htypes hextents
  have hok : ((Rule.promotion (sumPromotion [2, 7, 2] none)).performAt (rowsOver 1) ⟨1⟩).isOk = true := by
    decide +kernel
  generalize hrun : (Rule.promotion (sumPromotion [2, 7, 2] none)).performAt (rowsOver 1) ⟨1⟩ = run
    at hok hthm
  cases run with
  | error fault => cases hok
  | ok g =>
    obtain ⟨k, b, hd, x, z, positions, hcode, hop', hpositions, hyields⟩ := hthm
    rw [hcandidates, Except.ok.injEq] at hpositions
    subst hpositions
    obtain ⟨y, promoted, types', hg, hkernels, -, -, -, heffect⟩ := hyields
    refine ⟨g, k, b, hd, x, z, y, promoted, rfl, hop', hcode, hg, hkernels, ?_⟩
    refine heffect _ _ (rowsOver_bound 1) (by decide) (by decide +kernel) fun _ r hr => ?_
    cases hr
    decide +kernel

def promotedRows : Code :=
  .node (.value ⟨2⟩ .alloc [] ⟨4⟩ (.buffer (.rowMajor [2, 1] .sint32 .l1))) .nil
    (.node (.effect ⟨3⟩ .copy [⟨3⟩, ⟨4⟩] none) .nil
      (.node (.effect ⟨4⟩ (.kernel .matmul) [⟨0⟩, ⟨1⟩, ⟨4⟩] (some .promotedMid)) .nil
        (.node (.effect ⟨5⟩ .copy [⟨4⟩, ⟨3⟩] none) .nil
          (.node (.effect ⟨6⟩ .dealloc [⟨4⟩] none) .nil .nil))))

def ones : Memory := fun c => if c.1 = ⟨2⟩ then 0 else 1

theorem performAt_loses_rows : ∃ g k b hd x z y,
    (rowsOver 0).WellFormed ∧ ((sumPromotion [2] (some .l1)).check (rowsOver 0) ⟨1⟩).Answers () ∧
      (rowsOver 0).code = Spine.plug k (b ++ .node hd x z) ∧ hd.op = ⟨1⟩ ∧
      (rowsOver 0).bufferTypes? hd.operands = .ok (some (rowsTypes 0)) ∧
      KernelKind.matmul.iterationExtents (rowsTypes 0) = .ok (some [2, 1, 1]) ∧
      (Rule.promotion (sumPromotion [2] (some .l1))).performAt (rowsOver 0) ⟨1⟩ = .ok g ∧
      g.code = k.plug (b ++ (y ++ z)) ∧ ∃ env refs,
        Tiling.Bound env hd.operands (rowsTypes 0) refs ∧ (∀ r ∈ refs, (rowsOver 0).Has r.root) ∧
        refs.Pairwise Ref.Disjoint ∧
        ¬ SameEffect (rowsOver 0).Has ((Code.node hd x .nil).trace env) (y.trace env) := by
  have hcode : (rowsOver 0).code = .node (.value ⟨0⟩ (.subView (rowsWindow 0)) [⟨2⟩] ⟨3⟩
      (.buffer (rowsView 0))) .nil
      (.node (.effect ⟨1⟩ (.kernel .matmul) [⟨0⟩, ⟨1⟩, ⟨3⟩] (some .selected)) .nil .nil) := rfl
  have hrun : ((Rule.promotion (sumPromotion [2] (some .l1))).performAt (rowsOver 0) ⟨1⟩).toOption.map
      (·.code) = some (.node (.value ⟨0⟩ (.subView (rowsWindow 0)) [⟨2⟩] ⟨3⟩
        (.buffer (rowsView 0))) .nil promotedRows) := by
    decide +kernel
  obtain ⟨g, hrun, hg⟩ := Fault.toOption_map_eq_some.1 hrun
  refine ⟨g, .body, .node _ .nil .nil, _, .nil, .nil, promotedRows, by decide +kernel, rfl, hcode, rfl,
    rfl, rfl, hrun, hg, _, _, rowsOver_bound 0, by decide, by decide +kernel, fun h => ?_⟩
  have hkernel : Runs [.kernel .matmul (rowsRefs 0)] ones
      ((KernelKind.matmul.updates (rowsRefs 0)).foldl Memory.accumulate ones) := ⟨_, rfl, rfl⟩
  let tile : Ref := .whole ⟨4⟩ [2, 1]
  let tiles : List Ref := [.whole ⟨0⟩ [2, 1], .whole ⟨1⟩ [1, 1], tile]
  have hpromoted : Runs [.alloc ⟨4⟩, .copy (rowsSum 0) tile, .kernel .matmul tiles,
      .copy tile (rowsSum 0)] ones (((KernelKind.matmul.updates tiles).foldl Memory.accumulate
        (ones.copy (rowsSum 0) tile)).copy tile (rowsSum 0)) :=
    ⟨ones, fun _ _ => rfl, _, rfl, _, rfl, _, rfl, rfl⟩
  exact absurd (h _ _ _ hkernel hpromoted (⟨2⟩, [0, 0]) (by decide)) (by decide +kernel)

end Example

end KernelLowering.Promotion
