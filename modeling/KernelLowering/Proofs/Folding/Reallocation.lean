import KernelLowering.Proofs.Folding.Views
import KernelLowering.Proofs.Safety.Made

namespace KernelLowering

namespace Node

def Uses (h below : Node) : Prop := ∃ v ∈ h.operands, v ∈ below.defined

def On (h below : Node) : Prop :=
  ∃ v ∈ h.operands.head?, below.result.map (·.1) = some v

instance (h below : Node) : Decidable (h.Uses below) :=
  inferInstanceAs (Decidable (∃ v ∈ h.operands, v ∈ below.defined))

instance (h below : Node) : Decidable (h.On below) :=
  inferInstanceAs (Decidable (∃ v ∈ h.operands.head?, below.result.map (·.1) = some v))

variable {f : Function} {h below : Node}

theorem On.uses (hon : h.On below) : h.Uses below := by
  obtain ⟨v, hv, hres⟩ := hon
  exact ⟨v, List.mem_of_mem_head? hv, by simp [defined, hres]⟩

theorem Sorted.of_view (hs : h.Sorted f) (hk : h.kind = .view) : ∃ source v type,
    h.operands = [source] ∧ f.sort? source = some .buffer ∧ h.result = some (v, .buffer type) := by
  simp only [Sorted, hk, OpKind.sorts?, List.map_cons, List.map_nil, List.map_eq_cons_iff,
    List.map_eq_nil_iff, Option.map_eq_some_iff] at hs
  obtain ⟨⟨source, -, hops, hsource, rfl⟩, ⟨v, t⟩, hres, ht⟩ := hs
  cases t with
  | index => cases ht
  | buffer type => exact ⟨source, v, type, hops, hsource, hres⟩

theorem Sorted.of_alloc (hs : h.Sorted f) (hk : h.kind = .alloc) :
    h.operands = [] ∧ ∃ v type, h.result = some (v, .buffer type) := by
  simp only [Sorted, hk, OpKind.sorts?, List.map_nil, List.map_eq_nil_iff,
    Option.map_eq_some_iff] at hs
  obtain ⟨hops, ⟨v, t⟩, hres, ht⟩ := hs
  cases t with
  | index => cases ht
  | buffer type => exact ⟨hops, v, type, hres⟩

end Node

structure Code.Tile (c : Code) (tile view alloc : Node) : Prop where
  tile_mem : tile ∈ c.heads
  view_mem : view ∈ c.heads
  alloc_mem : alloc ∈ c.heads
  tile_kind : tile.kind.window?.isSome = true
  view_kind : view.kind = .view
  alloc_kind : alloc.kind = .alloc
  tile_on : tile.On view
  view_on : view.On alloc

namespace Reallocation

variable {f : Function} {k : Spine} {b x z : Code} {hd view alloc : Node} {a v : ValueId}
  {t : ValueType} {type : BufferType} {space : MemorySpace}

theorem yields_definingOpOfKind {c : Code} {kind : OpKind} (hr : f.Represents c) (hv : f.Has v) :
    Yields True (definingOpOfKind f v kind) fun o => ∀ op, o = some op →
      ∃ h ∈ c.heads, h.op = op ∧ h.kind = kind ∧ h.result.map (·.1) = some v := by
  rw [definingOpOfKind, hr.definingOp?_eq hv, Fault.ok_bind]
  cases hd : c.definer? v with
  | none => exact fun op e => by cases e
  | some h =>
    obtain ⟨hh, t, hres⟩ := Code.of_definer? hd
    obtain ⟨parent, region, hop⟩ := hr.exists_record hh
    simp only [Option.map_some, Function.op_eq_ok.2 hop, Fault.ok_bind, Node.record]
    intro op e
    split at e
    · rename_i hkind
      cases e
      exact ⟨h, hh, rfl, hkind, by rw [hres]; rfl⟩
    · cases e

theorem gives_allocationOf (hr : f.Represents (k.plug (b ++ .node hd x z)))
    (hm : ∀ h ∈ (k.plug (b ++ .node hd x z)).heads, h.Made f) :
    (allocationOf f hd.op).Gives True fun op => ∃ view alloc,
      (k.plug (b ++ .node hd x z)).Tile hd view alloc ∧ alloc.op = op := by
  rw [allocationOf, Inspect.gives_bind, Inspect.gives_lift, hr.record_at, Yields.ok_iff]
  simp only [Operation.window, Inspect.gives_bind, Inspect.gives_discard, Inspect.gives_orDecline,
    Node.record, OpKind.window?_eq_some, Inspect.gives_lift]
  intro w hkind
  obtain ⟨source, supplied, -, -, below, hops, -, hbelow, -⟩ :=
    (hm hd (Spine.mem_heads_at k b x z hd)).operands_of_subView hkind
  simp only [Operation.operand, hops, List.getElem?_cons_zero, Fault.require_some, Yields.ok_iff]
  refine (yields_definingOpOfKind hr (Function.has_of_bufferType? hbelow)).mono fun o _ hview => ?_
  rintro _ rfl
  obtain ⟨view, hmem, rfl, hview, hres⟩ := hview _ rfl
  obtain ⟨parent, region, hop⟩ := hr.exists_record hmem
  obtain ⟨below, hops', hbelow⟩ := (hm view hmem).operands_of_view hview
  simp only [Function.op_eq_ok.2 hop, Node.record, hops', List.getElem?_cons_zero,
    Fault.require_some, Yields.ok_iff]
  refine (yields_definingOpOfKind hr hbelow).mono fun o _ halloc => ?_
  intro op e
  obtain ⟨alloc, hmem', rfl, halloc, hres'⟩ := halloc op e
  exact ⟨view, alloc, ⟨Spine.mem_heads_at k b x z hd, hmem, hmem', by simp [hkind, OpKind.window?],
    hview, halloc, ⟨source, by simp [hops], hres⟩, ⟨below, by simp [hops'], hres'⟩⟩, rfl⟩

def merged (tile bytes new : ValueId) : ValueId → ValueId :=
  Function.swapped bytes new ∘ Function.swapped tile new

def made (op : OpId) (v : ValueId) (type : BufferType) (space : MemorySpace) : Node :=
  .value op .alloc [] v (.buffer (.rowMajor type.shape type.element space))

theorem yields_perform {p : Prop} (hr : f.Represents (k.plug (b ++ .node hd x z)))
    (halloc : alloc ∈ (k.plug (b ++ .node hd x z)).heads) (hbytes : alloc.result = some (a, t))
    (hres : hd.result = some (v, .buffer type))
    (hans : (allocationOf f hd.op).Answers alloc.op) :
    Yields p ((Rule.reallocation space).performAt f hd.op) fun g => ∃ op new,
      Splice f g (k.rename (merged v a new)) (b.rename (merged v a new))
        (.node (made op new type space) .nil .nil) (z.rename (merged v a new)) := by
  have hcursor : Cursor ⟨f, .before hd.op⟩ k b (.node hd x z) := ⟨hr, rfl⟩
  have hat := Spine.mem_heads_at k b x z hd
  rw [Rule.performAt, Yields.map_iff, Build.yields_runOn]
  simp only [Rule.perform, perform, Build.yields_bind, Build.yields_function, Build.yields_lift,
    Inspect.relyOn_eq_ok.2 hans, Yields.ok_iff, ViewFolding.result_eq hr halloc hbytes,
    ViewFolding.result_eq hr hat hres, hr.bufferType?_eq hat hres, ValueType.buffer?,
    Fault.require_some]
  refine (hcursor.yields_value .alloc [] _ rfl).mono ?_
  rintro ⟨new, s₁⟩ - ⟨op, hw⟩
  refine (hw.yields_replaceOp hres new).mono ?_
  rintro ⟨⟨⟩, s₂⟩ - hsplice
  rw [Build.replaceUses, Build.yields_edit]
  have hrep := hsplice.represents.replaceUses a new
  simp only [Spine.rename_plug, Code.rename_append, Spine.rename_rename, Code.rename_rename] at hrep
  have hsame := Function.sameValues_replaceUses s₂.function a new
  refine ⟨op, new, hrep, hsplice.grows.trans hsame.grows, hsplice.ops, ?_⟩
  rw [← show s₂.function.values.size = _ from congrArg Array.size hsame.values.symm]
  exact hsplice.defined

end Reallocation

end KernelLowering
