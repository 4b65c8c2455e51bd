import KernelLowering.Proofs.Arena.Replacement
import KernelLowering.Proofs.Layout.Windows
import KernelLowering.Proofs.Inspection
import KernelLowering.Proofs.Simulation.Lookup
import KernelLowering.Rule.Promotion

namespace KernelLowering.Promotion

def tileType (type : BufferType) : BufferType := .rowMajor type.shape type.element .global

inductive TileOf (p : Promotion) (type : BufferType) : Code → ValueId → ValueId → Prop
  | placed {space : MemorySpace} (op : OpId) (v : ValueId) (hspace : p.options.space = some space) :
      TileOf p type
        (.node (.value op .alloc [] v (.buffer { tileType type with space := space })) .nil .nil) v v
  | viewed {size : Int} {result : BufferType} (op op' op'' : OpId) (v v' v'' : ValueId)
      (hspace : p.options.space = none) (hsize : (tileType type).bytes = .ok size)
      (hresult : (Window.origin type.shape).resultType (tileType type) = .ok result) :
      TileOf p type
        (.node (.value op .alloc [] v (.buffer (.rowMajor [size] .uint8 .global))) .nil
          (.node (.value op' .view [v] v' (.buffer (tileType type))) .nil
            (.node (.value op'' (.subView (.origin type.shape)) [v'] v'' (.buffer result)) .nil .nil)))
        v v''

/-- The positions in a local buffer for a tile of this type are no 64-bit integers, or its size in
bytes is none. -/
def Overflows (p : Promotion) (type : BufferType) : Prop :=
  p.options.space = none ∧
    ((tileType type).bytes = .error .overflow ∨ ¬ (tileType type).Addressable)

inductive TilesOf (p : Promotion) :
    List (Nat × BufferType) → List ValueId → Code → List ValueId → List ValueId → Prop
  | nil (operands : List ValueId) : TilesOf p [] operands .nil [] operands
  | cons {position : Nat} {type : BufferType} {rest : List (Nat × BufferType)}
      {operands buffers promoted : List ValueId} {y y' : Code} {buffer tile : ValueId}
      (hfirst : TileOf p type y buffer tile)
      (hrest : TilesOf p rest (operands.set position tile) y' buffers promoted) :
      TilesOf p ((position, type) :: rest) operands (y ++ y') (buffer :: buffers) promoted

abbrev Action := OpKind × List ValueId × Option Stage

inductive ActionsOf : List Action → Code → Prop
  | nil : ActionsOf [] .nil
  | cons {kind : OpKind} {operands : List ValueId} {marker : Option Stage} {rest : List Action}
      {y : Code} (op : OpId) (hrest : ActionsOf rest y) :
      ActionsOf ((kind, operands, marker) :: rest) (.node (.effect op kind operands marker) .nil y)

def copies (positions : List Nat) (sources destinations : List ValueId) : List Action :=
  positions.filterMap fun i => do
    let source ← sources[i]?
    let destination ← destinations[i]?
    some (.copy, [source, destination], none)

def outputs (p : Promotion) (positions : List Nat) : List Nat :=
  if p.kind.outputOperand ∈ positions then [p.kind.outputOperand] else []

def actions (p : Promotion) (positions : List Nat) (operands promoted buffers : List ValueId) :
    List Action :=
  copies positions operands promoted ++
    ((.kernel p.kind, promoted, some p.guard.next) ::
      (copies (p.outputs positions) promoted operands ++
        buffers.map fun buffer => (.dealloc, [buffer], none)))

theorem mem_of_mem_copies {positions : List Nat} {sources destinations : List ValueId} {a : Action}
    (ha : a ∈ copies positions sources destinations) {v : ValueId} (hv : v ∈ a.2.1) :
    v ∈ sources ∨ v ∈ destinations := by
  obtain ⟨i, -, hi⟩ := List.mem_filterMap.1 ha
  obtain ⟨source, hsource, hi⟩ := Option.bind_eq_some_iff.1 hi
  obtain ⟨destination, hdestination, hi⟩ := Option.bind_eq_some_iff.1 hi
  cases hi
  rcases List.mem_pair.1 hv with rfl | rfl
  · exact .inl (List.mem_of_getElem? hsource)
  · exact .inr (List.mem_of_getElem? hdestination)

theorem mem_of_mem_actions {p : Promotion} {positions : List Nat}
    {operands promoted buffers : List ValueId} {a : Action}
    (ha : a ∈ p.actions positions operands promoted buffers) {v : ValueId} (hv : v ∈ a.2.1) :
    v ∈ operands ∨ v ∈ promoted ∨ v ∈ buffers := by
  simp only [actions, List.mem_append, List.mem_cons, List.mem_map] at ha
  rcases ha with ha | rfl | ha | ⟨buffer, hbuffer, rfl⟩
  · exact (mem_of_mem_copies ha hv).imp_right .inl
  · exact .inr (.inl hv)
  · exact (mem_of_mem_copies ha hv).elim (fun hv => .inr (.inl hv)) .inl
  · exact .inr (.inr (List.mem_singleton.1 hv ▸ hbuffer))

theorem of_mem_copies {positions : List Nat} {sources destinations : List ValueId} {a : Action}
    (ha : a ∈ copies positions sources destinations) : a.1 = .copy ∧ a.2.2 = none := by
  obtain ⟨i, -, hi⟩ := List.mem_filterMap.1 ha
  obtain ⟨source, -, hi⟩ := Option.bind_eq_some_iff.1 hi
  obtain ⟨destination, -, hi⟩ := Option.bind_eq_some_iff.1 hi
  cases hi
  exact ⟨rfl, rfl⟩

theorem cases_of_mem_actions {p : Promotion} {positions : List Nat}
    {operands promoted buffers : List ValueId} {a : Action}
    (ha : a ∈ p.actions positions operands promoted buffers) :
    (a.1 = .copy ∨ a.1 = .dealloc) ∧ a.2.2 = none ∨
      a = (.kernel p.kind, promoted, some p.guard.next) := by
  simp only [actions, List.mem_append, List.mem_cons, List.mem_map] at ha
  rcases ha with ha | rfl | ha | ⟨buffer, -, rfl⟩
  · exact .inl ((of_mem_copies ha).imp_left .inl)
  · exact .inr rfl
  · exact .inl ((of_mem_copies ha).imp_left .inl)
  · exact .inl ⟨.inr rfl, rfl⟩

inductive PromotedOf (p : Promotion) (operands : List ValueId) (positions : List Nat)
    (tiles : List (Nat × BufferType)) : Code → Prop
  | intro {y y' : Code} {buffers promoted : List ValueId}
      (htiles : TilesOf p tiles operands y buffers promoted)
      (hactions : ActionsOf (p.actions positions operands promoted buffers) y') :
      PromotedOf p operands positions tiles (y ++ y')

namespace TilesOf

variable {p : Promotion} {tiles : List (Nat × BufferType)} {operands buffers promoted : List ValueId}
  {y : Code}

theorem length_promoted (h : TilesOf p tiles operands y buffers promoted) :
    promoted.length = operands.length := by
  induction h with
  | nil => rfl
  | cons _ _ ih => rw [ih, List.length_set]

end TilesOf

namespace ActionsOf

theorem append {as as' : List Action} {y y' : Code} (h : ActionsOf as y) (h' : ActionsOf as' y') :
    ActionsOf (as ++ as') (y ++ y') := by
  induction h with
  | nil => exact h'
  | cons op _ ih => exact .cons op ih

variable {as : List Action} {y : Code} (h : ActionsOf as y)

include h

theorem exists_action : ∀ h ∈ y.heads, ∃ op, ∃ a ∈ as, h = .effect op a.1 a.2.1 a.2.2 := by
  induction h with
  | nil => simp [Code.heads]
  | @cons kind operands marker rest y op _ ih =>
    simp only [Code.heads, List.nil_append, List.forall_mem_cons]
    refine ⟨⟨op, _, List.mem_cons_self, rfl⟩, fun h hh => ?_⟩
    obtain ⟨op, a, ha, he⟩ := ih h hh
    exact ⟨op, a, List.mem_cons_of_mem _ ha, he⟩

theorem mem_heads {a : Action} (ha : a ∈ as) : ∃ op, Node.effect op a.1 a.2.1 a.2.2 ∈ y.heads := by
  induction h with
  | nil => cases ha
  | cons op _ ih =>
    rw [Code.heads, Code.heads, List.nil_append]
    rcases List.mem_cons.1 ha with rfl | ha
    · exact ⟨op, List.mem_cons_self⟩
    · obtain ⟨op', hop⟩ := ih ha
      exact ⟨op', List.mem_cons_of_mem _ hop⟩

end ActionsOf

section Building

variable {s : Builder} {k : Spine} {b z : Code} {p : Promotion} {q : Prop}

theorem yields_allocate (h : Cursor s k b z) {type : BufferType} (hq : p.Overflows type → q) :
    Yields q ((p.allocate type).run s) fun r =>
      ∃ y, Writes s r.2 k b y z ∧ TileOf p type y r.1.1 r.1.2 := by
  unfold allocate
  cases hspace : p.options.space with
  | some space =>
    simp only [Build.yields_bind, Build.yields_pure]
    refine (h.yields_value .alloc [] _ rfl).mono ?_
    rintro ⟨v, s'⟩ - ⟨op, hw⟩
    exact ⟨_, hw, .placed op v hspace⟩
  | none =>
    have hbytes : Yields q (tileType type).bytes fun _ => True := by
      rcases (tileType type).yields_bytes.cases with ⟨hover, -⟩ | ⟨size, hsize, -⟩
      · exact hover ▸ Yields.error_iff.2 ⟨rfl, hq ⟨hspace, .inl hover⟩⟩
      · exact hsize ▸ trivial
    have htype : Yields q ((Window.origin type.shape).resultType (tileType type)) fun _ => True :=
      (Window.yields_resultType_of_zero (by simp [Window.origin]) (by simp [Window.origin])).weaken
        fun hover => hq ⟨hspace, .inr hover⟩
    simp only [Build.yields_bind, Build.yields_lift, Build.yields_pure]
    refine hbytes.mono fun size hsize _ => ?_
    refine (h.yields_value .alloc [] _ rfl).mono ?_
    rintro ⟨v, s₁⟩ - ⟨op, hw⟩
    refine (hw.cursor.yields_value .view [v] (.buffer (tileType type)) rfl).mono ?_
    rintro ⟨v', s₂⟩ - ⟨op', hw'⟩
    have hmem : Node.value op' .view [v] v' (.buffer (tileType type)) ∈ s₂.function.code.heads := by
      rw [hw'.cursor.represents.code_eq]
      simp [Spine.mem_heads_plug, Code.heads]
    have hwhole : s₂.function.bufferType? v' = .ok (some (tileType type)) :=
      hw'.cursor.represents.wellFormed.bufferType?_eq hmem rfl
    refine (hw'.cursor.yields_subView (by simp [Window.dynamicCount_origin]) hwhole htype).mono ?_
    rintro ⟨v'', s₃⟩ - ⟨op'', result, hresult, hw''⟩
    exact ⟨_, hw.trans (hw'.trans (Code.append_assoc .. ▸ hw'')),
      .viewed op op' op'' v v' v'' hspace hsize hresult⟩

theorem yields_allocateAll (h : Cursor s k b z) {tiles : List (Nat × BufferType)}
    (hq : ∀ tile ∈ tiles, p.Overflows tile.2 → q) (operands : List ValueId) : Yields q ((p.allocateAll tiles operands).run s) fun r =>
      ∃ y, Writes s r.2 k b y z ∧ TilesOf p tiles operands y r.1.1 r.1.2 := by
  induction tiles generalizing s b operands with
  | nil => exact ⟨.nil, .nil h, .nil operands⟩
  | cons tile tiles ih =>
    obtain ⟨position, type⟩ := tile
    obtain ⟨hfirst, hq⟩ := List.forall_mem_cons.1 hq
    simp only [allocateAll, Build.yields_bind, Build.yields_pure]
    refine (yields_allocate h hfirst).mono ?_
    rintro ⟨⟨buffer, tile⟩, s₁⟩ - ⟨y, hw, htile⟩
    refine (ih hw.cursor hq _).mono ?_
    rintro ⟨⟨buffers, promoted⟩, s₂⟩ - ⟨y', hw', hrest⟩
    exact ⟨y ++ y', hw.trans hw', .cons htile hrest⟩

theorem yields_copies (h : Cursor s k b z) {positions : List Nat}
    {sources destinations : List ValueId} (hsources : ∀ i ∈ positions, i < sources.length)
    (hdestinations : ∀ i ∈ positions, i < destinations.length) :
    Yields q ((positions.forM fun i => do
      discard (Build.copy (← operandAt sources i) (← operandAt destinations i)) :
        Build Unit).run s) fun r =>
      ∃ y, Writes s r.2 k b y z ∧ ActionsOf (copies positions sources destinations) y := by
  induction positions generalizing s b with
  | nil => exact ⟨.nil, .nil h, .nil⟩
  | cons i positions ih =>
    obtain ⟨hi, hsources⟩ := List.forall_mem_cons.1 hsources
    obtain ⟨hi', hdestinations⟩ := List.forall_mem_cons.1 hdestinations
    rw [List.forM]
    simp only [Build.yields_bind, Build.yields_lift, Build.yields_discard, operandAt,
      List.getElem?_eq_getElem hi, List.getElem?_eq_getElem hi', Fault.require_some, Yields.ok_iff]
    refine (h.yields_effect .copy [sources[i], destinations[i]] none rfl).mono ?_
    rintro ⟨op, s₁⟩ - hw
    refine (ih hw.cursor hsources hdestinations).mono ?_
    rintro ⟨⟨⟩, s₂⟩ - ⟨y, hw', hactions⟩
    have hcopies : copies (i :: positions) sources destinations =
        (.copy, [sources[i], destinations[i]], none) :: copies positions sources destinations := by
      simp [copies, List.getElem?_eq_getElem hi, List.getElem?_eq_getElem hi']
    exact ⟨_, hw.trans hw', hcopies ▸ .cons op hactions⟩

theorem yields_copyBack {α : Type} (h : Cursor s k b z) {positions : List Nat}
    {operands promoted : List ValueId} (hoperands : ∀ i ∈ positions, i < operands.length)
    (hpromoted : ∀ i ∈ positions, i < promoted.length) {rest : Build α} {r : α × Builder → Prop}
    (hrest : ∀ s' y, Writes s s' k b y z →
      ActionsOf (copies (p.outputs positions) promoted operands) y → Yields q (rest.run s') r) :
    Yields q ((do
      if p.kind.outputOperand ∈ positions then
        discard (Build.copy (← operandAt promoted p.kind.outputOperand)
          (← operandAt operands p.kind.outputOperand))
      rest : Build α).run s) r := by
  unfold outputs at hrest
  split at hrest
  · rename_i hmem
    have hcopy : Yields q _ _ := yields_copies h (List.forall_mem_singleton.2 (hpromoted _ hmem))
      (List.forall_mem_singleton.2 (hoperands _ hmem))
    rw [if_pos hmem]
    simp only [List.forM, Build.yields_bind, Build.yields_pure] at hcopy ⊢
    refine hcopy.mono fun _ _ hr => hr.mono fun _ _ hr => hr.mono ?_
    rintro _ - ⟨y, hw, hactions⟩
    exact hrest _ y hw hactions
  · rename_i hmem
    rw [if_neg hmem]
    exact hrest s .nil (.nil h) .nil

theorem yields_deallocs (h : Cursor s k b z) (buffers : List ValueId) :
    Yields q ((buffers.forM fun buffer => discard (Build.dealloc buffer)).run s) fun r =>
      ∃ y, Writes s r.2 k b y z ∧
        ActionsOf (buffers.map fun buffer => (.dealloc, [buffer], none)) y := by
  induction buffers generalizing s b with
  | nil => exact ⟨.nil, .nil h, .nil⟩
  | cons buffer buffers ih =>
    rw [List.forM]
    simp only [Build.yields_bind, Build.yields_discard]
    refine (h.yields_effect .dealloc [buffer] none rfl).mono ?_
    rintro ⟨op, s₁⟩ - hw
    refine (ih hw.cursor).mono ?_
    rintro ⟨⟨⟩, s₂⟩ - ⟨y, hw', hactions⟩
    exact ⟨_, hw.trans hw', .cons op hactions⟩

end Building

section Perform

variable {f : Function} {k : Spine} {b x z c : Code} {hd : Node} {p : Promotion}

section Filter

variable {α : Type} {xs : List α} {g : α → Except Fault Bool}

theorem filterM_eq_ok {q : α → Bool} (h : ∀ x ∈ xs, g x = .ok (q x)) :
    xs.filterM g = .ok (xs.filter q) := by
  have haux : ∀ acc, xs.filterAuxM g acc = .ok ((xs.filter q).reverse ++ acc) := by
    induction xs with
    | nil => exact fun acc => rfl
    | cons x xs ih =>
      obtain ⟨hx, hxs⟩ := List.forall_mem_cons.1 h
      intro acc
      rw [List.filterAuxM, hx, Fault.ok_bind, ih hxs, List.filter_cons]
      cases q x <;> simp
  rw [List.filterM, haux, Fault.ok_bind, List.append_nil, List.reverse_reverse]
  rfl

theorem eq_ok_of_filterM {ys : List α} (h : xs.filterM g = .ok ys) : ∀ x ∈ xs, ∃ q, g x = .ok q := by
  have haux : ∀ acc zs, xs.filterAuxM g acc = .ok zs → ∀ x ∈ xs, ∃ q, g x = .ok q := by
    clear h
    induction xs with
    | nil => simp
    | cons x xs ih =>
      intro acc zs hzs
      obtain ⟨q, hq, hzs⟩ := Fault.bind_eq_ok.1 hzs
      exact List.forall_mem_cons.2 ⟨⟨q, hq⟩, ih _ zs hzs⟩
  obtain ⟨zs, hzs, -⟩ := Fault.bind_eq_ok.1 h
  exact haux [] zs hzs

end Filter

def isWindow (c : Code) (operands : List ValueId) (i : Nat) : Bool :=
  (((operands[i]?).bind c.definer?).bind (·.kind.window?)).isSome

theorem isTile_eq (hr : f.Represents c) {operands : List ValueId} {i : Nat}
    (hhas : ∀ v, operands[i]? = some v → f.Has v) :
    isTile f operands i = .ok (isWindow c operands i) := by
  unfold isTile isWindow
  split
  · rename_i v hv
    rw [hr.definingKind?_eq (hhas v hv), Fault.ok_bind, hv]
    cases hdef : c.definer? v <;> simp [pure, Except.pure, hdef]
  · rename_i hv
    rw [hv]
    rfl

def promotable (p : Promotion) (c : Code) (operands : List ValueId) : List Nat :=
  (p.options.positions.getD (List.range operands.length)).filter (isWindow c operands)

def Reads (p : Promotion) (f : Function) (operands : List ValueId) : Prop :=
  ∀ i ∈ p.options.positions.getD (List.range operands.length), ∀ v, operands[i]? = some v → f.Has v

theorem Reads.of_has {operands : List ValueId} (h : ∀ v ∈ operands, f.Has v) : p.Reads f operands :=
  fun _ _ v hv => h v (List.mem_of_getElem? hv)

theorem candidates_eq (hr : f.Represents (k.plug (b ++ .node hd x z))) (hreads : p.Reads f hd.operands) :
    p.candidates f hd.op = .ok (p.promotable (k.plug (b ++ .node hd x z)) hd.operands) := by
  rw [candidates, hr.record_at, Fault.ok_bind]
  exact filterM_eq_ok fun i hi => isTile_eq hr (hreads i hi)

theorem reads_of_check (hr : f.Represents (k.plug (b ++ .node hd x z)))
    (h : (p.check f hd.op).Answers ()) : p.Reads f hd.operands := by
  simp only [check, Inspect.answers_bind, Inspect.answers_lift, candidates, hr.record_at,
    Fault.ok_bind] at h
  obtain ⟨-, -, -, -, ps, hps, -⟩ := h
  intro i hi v hv
  obtain ⟨q, hq⟩ := eq_ok_of_filterM hps i hi
  rw [isTile, show (hd.record k.parent x.roots).operands = hd.operands from rfl, hv] at hq
  obtain ⟨kind, hkind, -⟩ := Fault.bind_eq_ok.1 hq
  obtain ⟨op, hop, -⟩ := Fault.bind_eq_ok.1 hkind
  exact Function.has_of_definition? hop

theorem mem_promotable {operands : List ValueId} {i : Nat} (hi : i ∈ p.promotable c operands) :
    ∃ v h w, operands[i]? = some v ∧ c.definer? v = some h ∧ h.kind = .subView w := by
  obtain ⟨w, hw⟩ := Option.isSome_iff_exists.1 (List.mem_filter.1 hi).2
  obtain ⟨h, hh, hkind⟩ := Option.bind_eq_some_iff.1 hw
  obtain ⟨v, hv, hdef⟩ := Option.bind_eq_some_iff.1 hh
  exact ⟨v, h, w, hv, hdef, OpKind.window?_eq_some.1 hkind⟩

def TypesAt (f : Function) (operands : List ValueId) :
    List Nat → List (Option BufferType) → Prop :=
  List.Forall₂ fun i type => ∃ v, operands[i]? = some v ∧ f.bufferType? v = .ok type

theorem exists_types {operands : List ValueId} {positions : List Nat}
    (hops : ∀ i ∈ positions, ∃ v, operands[i]? = some v ∧ f.Has v) (s : Builder) :
    ∃ types, (positions.mapM fun i => do f.bufferType? (← operandAt operands i) :
        Build (List (Option BufferType))).run s = .ok (types, s) ∧
      TypesAt f operands positions types := by
  induction positions with
  | nil => exact ⟨[], rfl, .nil⟩
  | cons i positions ih =>
    obtain ⟨⟨v, hv, hhas⟩, hops⟩ := List.forall_mem_cons.1 hops
    obtain ⟨types, hruns, htypes⟩ := ih hops
    have htype : f.bufferType? v = .ok f.values[v.index].type.buffer? := by
      rw [Function.bufferType?, Function.value_eq_ok.2 (Array.getElem?_eq_getElem hhas)]
      rfl
    refine ⟨_ :: types, ?_, .cons ⟨v, hv, htype⟩ htypes⟩
    rw [List.mapM_cons, Build.run_bind_eq_ok]
    refine ⟨_, s, ?_, Build.run_bind_eq_ok.2 ⟨types, s, hruns, rfl⟩⟩
    refine Build.run_bind_eq_ok.2 ⟨v, s, Build.run_lift_eq_ok.2 ⟨?_, rfl⟩,
      Build.run_lift_eq_ok.2 ⟨htype, rfl⟩⟩
    rw [operandAt, hv, Fault.require_some]

theorem yields_perform {q : Prop} (hr : f.Represents (k.plug (b ++ .node hd x z)))
    (hreads : p.Reads f hd.operands)
    (hq : ∀ v ∈ hd.operands, ∀ type, f.bufferType? v = .ok (some type) → p.Overflows type → q) :
    Yields q ((p.perform hd.op).runOn f (.before hd.op)) fun r => ∃ types y,
      TypesAt f hd.operands (p.promotable (k.plug (b ++ .node hd x z)) hd.operands) types ∧
      PromotedOf p hd.operands (p.promotable (k.plug (b ++ .node hd x z)) hd.operands)
        ((p.promotable (k.plug (b ++ .node hd x z)) hd.operands).zip types.reduceOption) y ∧
      Splice f r.2 k b y z := by
  have hcursor : Cursor ⟨f, .before hd.op⟩ k b (.node hd x z) := ⟨hr, rfl⟩
  have hcandidates := candidates_eq hr hreads
  have hpositions : ∀ i ∈ p.promotable (k.plug (b ++ .node hd x z)) hd.operands,
      ∃ v, hd.operands[i]? = some v ∧ f.Has v := by
    intro i hi
    obtain ⟨v, -, -, hv, -, -⟩ := mem_promotable hi
    exact ⟨v, hv, hreads i (List.mem_filter.1 hi).1 v hv⟩
  generalize p.promotable (k.plug (b ++ .node hd x z)) hd.operands = positions at *
  have hlt : ∀ i ∈ positions, i < hd.operands.length := fun i hi => by
    obtain ⟨v, hv, -⟩ := hpositions i hi
    exact (List.getElem?_eq_some_iff.1 hv).1
  obtain ⟨types, hrun, htypes⟩ := exists_types hpositions ⟨f, .before hd.op⟩
  simp only [perform, Build.yields_runOn, Build.yields_bind, Build.yields_function,
    Build.yields_lift, hcandidates, hr.record_at, Node.record, hrun, Yields.ok_iff]
  have hfit : ∀ tile ∈ positions.zip types.reduceOption, p.Overflows tile.2 → q := by
    intro tile htile hover
    obtain ⟨type, hmem, rfl⟩ := List.mem_filterMap.1 (List.of_mem_zip htile).2
    obtain ⟨i, hi, hget⟩ := List.mem_iff_getElem.1 hmem
    obtain ⟨v, hv, htype⟩ := (List.forall₂_iff_get.1 htypes).2 i (htypes.length_eq ▸ hi) hi
    rw [List.get_eq_getElem, hget] at htype
    exact hq v (List.mem_of_getElem? hv) _ htype hover
  refine (yields_allocateAll hcursor hfit hd.operands).mono ?_
  rintro ⟨⟨buffers, promoted⟩, s₁⟩ - ⟨y₁, hw₁, htiles⟩
  have hlen := htiles.length_promoted
  refine (yields_copies hw₁.cursor hlt fun i hi => hlen ▸ hlt i hi).mono ?_
  rintro ⟨⟨⟩, s₂⟩ - ⟨y₂, hw₂, hin⟩
  simp only [Build.yields_discard]
  refine (hw₂.cursor.yields_effect (.kernel p.kind) promoted (some p.guard.next) rfl).mono ?_
  rintro ⟨op, s₃⟩ - hw₃
  refine yields_copyBack hw₃.cursor hlt (fun i hi => hlen ▸ hlt i hi) fun s₄ y₄ hw₄ hback => ?_
  rw [Build.yields_bind]
  refine (yields_deallocs hw₄.cursor buffers).mono ?_
  rintro ⟨⟨⟩, s₅⟩ - ⟨y₅, hw₅, hends⟩
  have hw := hw₁.trans (hw₂.trans (hw₃.trans (hw₄.trans hw₅)))
  exact hw.yields_erase.mono fun _ _ hsplice =>
    ⟨types, _, htypes, .intro htiles (hin.append (.cons op (hback.append hends))), hsplice⟩

theorem kind_of_answers (hr : f.Represents (k.plug (b ++ .node hd x z)))
    (h : (p.check f hd.op).Answers ()) : hd.kind = .kernel p.kind := by
  by_contra hkind
  simp [check, StageGuard.checkKernel, hr.record_at, Node.record, hkind] at h

end Perform

end KernelLowering.Promotion
