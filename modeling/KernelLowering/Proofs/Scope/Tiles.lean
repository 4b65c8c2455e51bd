import KernelLowering.Proofs.Folding.Reallocation
import KernelLowering.Proofs.Scope.Tidy

namespace KernelLowering

def Node.Idle (c : Code) (h : Node) : Prop := h.kind = .view ∧ ∀ h' ∈ c.heads, ¬ h'.Uses h

namespace Code

structure Owned (c : Code) : Prop where
  shown : ∀ {tile view alloc}, c.Tile tile view alloc → ∀ h ∈ c.heads, h.Uses view → h = tile
  freed : ∀ {tile view alloc}, c.Tile tile view alloc → ∀ h ∈ c.heads, h.Uses alloc →
    h = view ∨ h.kind = .dealloc
  last : ∀ {tile view alloc}, c.Tile tile view alloc → ∀ h ∈ c.heads, h.Uses tile →
    h.kind.window? = none ∧ h.kind ≠ .view

theorem Tile.mono {c c' : Code} (hsub : c.heads ⊆ c'.heads) {tile view alloc : Node}
    (h : c.Tile tile view alloc) : c'.Tile tile view alloc :=
  { h with tile_mem := hsub h.tile_mem, view_mem := hsub h.view_mem, alloc_mem := hsub h.alloc_mem }

theorem Owned.mono {c c' : Code} (hsub : c'.heads ⊆ c.heads) (h : c.Owned) : c'.Owned where
  shown ht h' hh := h.shown (ht.mono hsub) h' (hsub hh)
  freed ht h' hh := h.freed (ht.mono hsub) h' (hsub hh)
  last ht h' hh := h.last (ht.mono hsub) h' (hsub hh)

def FreedBehind (c : Code) (h : Node) (known : List ValueId) : Prop :=
  h.kind = .dealloc → ∀ {tile view alloc}, c.Tile tile view alloc → h.Uses alloc →
    tile.defined ⊆ known

def Placed (c : Code) (h : Node) (known : List ValueId) : Prop :=
  (¬ h.Idle c → ∀ v ∈ h.operands, v ∈ known) ∧ c.FreedBehind h known

end Code

instance (c : Code) (tile view alloc : Node) : Decidable (c.Tile tile view alloc) :=
  decidable_of_iff (tile ∈ c.heads ∧ view ∈ c.heads ∧ alloc ∈ c.heads ∧
      tile.kind.window?.isSome = true ∧ view.kind = .view ∧ alloc.kind = .alloc ∧ tile.On view ∧
        view.On alloc)
    ⟨fun ⟨h₁, h₂, h₃, h₄, h₅, h₆, h₇, h₈⟩ => ⟨h₁, h₂, h₃, h₄, h₅, h₆, h₇, h₈⟩,
      fun h => ⟨h.1, h.2, h.3, h.4, h.5, h.6, h.7, h.8⟩⟩

instance (c : Code) : Decidable c.Owned :=
  decidable_of_iff (∀ tile ∈ c.heads, ∀ view ∈ c.heads, ∀ alloc ∈ c.heads, c.Tile tile view alloc →
      ∀ h ∈ c.heads, (h.Uses view → h = tile) ∧ (h.Uses alloc → h = view ∨ h.kind = .dealloc) ∧
        (h.Uses tile → h.kind.window? = none ∧ h.kind ≠ .view))
    ⟨fun h => ⟨fun ht h' hh => (h _ ht.tile_mem _ ht.view_mem _ ht.alloc_mem ht h' hh).1,
        fun ht h' hh => (h _ ht.tile_mem _ ht.view_mem _ ht.alloc_mem ht h' hh).2.1,
        fun ht h' hh => (h _ ht.tile_mem _ ht.view_mem _ ht.alloc_mem ht h' hh).2.2⟩,
      fun h _ _ _ _ _ _ ht h' hh => ⟨h.shown ht h' hh, h.freed ht h' hh, h.last ht h' hh⟩⟩

instance (c : Code) (h : Node) (known : List ValueId) : Decidable (c.FreedBehind h known) :=
  decidable_of_iff (h.kind = .dealloc → ∀ tile ∈ c.heads, ∀ view ∈ c.heads, ∀ alloc ∈ c.heads,
      c.Tile tile view alloc → h.Uses alloc → ∀ v ∈ tile.defined, v ∈ known)
    ⟨fun hf hkind _ _ _ ht hu _ hv =>
        hf hkind _ ht.tile_mem _ ht.view_mem _ ht.alloc_mem ht hu _ hv,
      fun hf hkind _ _ _ _ _ _ ht hu _ hv => hf hkind ht hu hv⟩

structure Relinks (f : Function) (k : Spine) (b : Code) (hd : Node) (x z y : Code)
    (σ : ValueId → ValueId) : Prop where
  window : hd.kind.window?.isSome = true
  fresh : ∀ v, σ v = v ∨ ¬ f.Has (σ v)
  operands : ∀ h ∈ y.heads, ∀ v ∈ h.operands, f.Has v →
    ∃ h' ∈ (k.plug (b ++ .node hd x z)).heads, h'.kind.window?.isSome = true ∧
      (h' = hd ∨ hd.Uses h') ∧ v ∈ h'.operands
  kinds : ∀ h ∈ y.heads, h.kind ≠ .view ∧ h.kind ≠ .dealloc
  windows : ∀ h ∈ y.heads, h.kind.window?.isSome = true →
    ∃ inner ∈ (k.plug (b ++ .node hd x z)).heads, inner.kind.window?.isSome = true ∧
      hd.Uses inner ∧ h.operands.head? = inner.operands.head?
  allocs : ∀ h ∈ y.heads, h.kind = .alloc → ∀ view ∈ (k.plug (b ++ z)).heads, view.kind = .view →
    (view.rename σ).On h →
      ∀ h' ∈ ((k.rename σ).plug (b.rename σ ++ (y ++ z.rename σ))).heads, ¬ h'.Uses view

namespace Function.Represents

variable {f : Function} {k : Spine} {b x z : Code} {hd : Node}

theorem not_mem_around (hr : f.Represents (k.plug (b ++ .node hd x z))) :
    hd ∉ (k.plug (b ++ z)).heads := by
  intro hh
  have hop : hd.op ∈ (k.plug (b ++ z)).ops :=
    Code.ops_eq_map_heads _ ▸ List.mem_map_of_mem hh
  have hnd := hr.nodup
  simp only [Spine.nodup_plug, Code.ops_append, Code.ops, List.nodup_append', List.nodup_cons,
    List.disjoint_cons_right, List.disjoint_append_left, List.disjoint_cons_left,
    List.mem_append, not_or] at hnd
  rw [Spine.mem_ops_plug, Code.ops_append, List.mem_append] at hop
  tauto

theorem has_defined {c : Code} (hr : f.Represents c) {h : Node} (hh : h ∈ c.heads) :
    ∀ v ∈ h.defined, f.Has v := fun _ hv => hr.has_of_mem (List.mem_flatMap.2 ⟨h, hh, hv⟩)

end Function.Represents

namespace Node

variable {f : Function} {σ : ValueId → ValueId} {h below : Node}

theorem Uses.of_rename (hu : (h.rename σ).Uses below) (hσ : ∀ v, σ v = v ∨ ¬ f.Has (σ v))
    (hbelow : ∀ v ∈ below.defined, f.Has v) : h.Uses below := by
  obtain ⟨_, hmem, hdef⟩ := hu
  obtain ⟨v, hv, rfl⟩ := List.mem_map.1 hmem
  rw [(hσ v).resolve_right (not_not.2 (hbelow _ hdef))] at hdef
  exact ⟨v, hv, hdef⟩

theorem On.of_rename (ho : (h.rename σ).On below) (hσ : ∀ v, σ v = v ∨ ¬ f.Has (σ v))
    (hbelow : ∀ v ∈ below.defined, f.Has v) : h.On below := by
  obtain ⟨_, hv, hres⟩ := ho
  rw [rename, List.head?_map, Option.mem_def, Option.map_eq_some_iff] at hv
  obtain ⟨v, hv, rfl⟩ := hv
  have hdef : σ v ∈ below.defined := by simp [defined, hres]
  rw [(hσ v).resolve_right (not_not.2 (hbelow _ hdef))] at hres
  exact ⟨v, hv, hres⟩

end Node

namespace Relinks

variable {f : Function} {k : Spine} {b x z y : Code} {hd : Node} {σ : ValueId → ValueId}

theorem uses (h : Relinks f k b hd x z y σ) (hr : f.Represents (k.plug (b ++ .node hd x z)))
    {h' below : Node} (hh : h' ∈ ((k.rename σ).plug (b.rename σ ++ (y ++ z.rename σ))).heads)
    (hbelow : below ∈ (k.plug (b ++ .node hd x z)).heads) (hu : h'.Uses below) :
    (∃ h₁ ∈ (k.plug (b ++ z)).heads, h₁.rename σ = h' ∧ h₁.Uses below) ∨
      ∃ h₂ ∈ (k.plug (b ++ .node hd x z)).heads, h₂.kind.window?.isSome = true ∧
        (h₂ = hd ∨ hd.Uses h₂) ∧ h₂.Uses below := by
  rcases Spine.mem_heads_splice.1 hh with ⟨h₁, hh₁, rfl⟩ | hh
  · exact .inl ⟨h₁, hh₁, rfl, hu.of_rename h.fresh (hr.has_defined hbelow)⟩
  · obtain ⟨v, hv, hdef⟩ := hu
    obtain ⟨h₂, hh₂, hwindow, hhd, hv⟩ := h.operands h' hh v hv (hr.has_defined hbelow v hdef)
    exact .inr ⟨h₂, hh₂, hwindow, hhd, v, hv, hdef⟩

variable (h : Relinks f k b hd x z y σ) (hr : f.Represents (k.plug (b ++ .node hd x z)))
  (ho : (k.plug (b ++ .node hd x z)).Owned)

include h hr ho

theorem not_uses_tile {tile view alloc h₂ : Node}
    (ht : (k.plug (b ++ .node hd x z)).Tile tile view alloc) (htile : tile ∈ (k.plug (b ++ z)).heads)
    (hh₂ : h₂ ∈ (k.plug (b ++ .node hd x z)).heads) (hwindow : h₂.kind.window?.isSome = true)
    (hhd : h₂ = hd ∨ hd.Uses h₂) : ¬ h₂.Uses view ∧ ¬ h₂.Uses alloc ∧ ¬ h₂.Uses tile := by
  refine ⟨fun hu => ?_, fun hu => ?_, fun hu => ?_⟩
  · obtain rfl := ho.shown ht h₂ hh₂ hu
    rcases hhd with rfl | hhd
    · exact hr.not_mem_around htile
    · have hnone := (ho.last ht hd (Spine.mem_heads_at k b x z hd) hhd).1
      exact absurd h.window (by simp [hnone])
  · rcases ho.freed ht h₂ hh₂ hu with rfl | hkind
    · exact absurd hwindow (by simp [ht.view_kind, OpKind.window?])
    · exact absurd hwindow (by simp [hkind, OpKind.window?])
  · exact absurd hwindow (by simp [(ho.last ht h₂ hh₂ hu).1])

theorem tile {tile view alloc : Node}
    (ht : ((k.rename σ).plug (b.rename σ ++ (y ++ z.rename σ))).Tile tile view alloc) :
    ∃ tile₁ ∈ (k.plug (b ++ z)).heads, ∃ view₁ ∈ (k.plug (b ++ z)).heads,
      ∃ alloc₁ ∈ (k.plug (b ++ z)).heads, tile₁.rename σ = tile ∧ view₁.rename σ = view ∧
        alloc₁.rename σ = alloc ∧ (k.plug (b ++ .node hd x z)).Tile tile₁ view₁ alloc₁ := by
  have haround : ∀ {h'}, h' ∈ (k.plug (b ++ z)).heads →
      h' ∈ (k.plug (b ++ .node hd x z)).heads := fun hh => Spine.mem_heads_around hh hd x
  obtain ⟨view, hview, rfl⟩ := (Spine.mem_heads_splice.1 ht.view_mem).resolve_right
    fun hy => (h.kinds _ hy).1 ht.view_kind
  obtain ⟨alloc, halloc, rfl⟩ := (Spine.mem_heads_splice.1 ht.alloc_mem).resolve_right
    fun hy => h.allocs _ hy ht.alloc_kind view hview ht.view_kind ht.view_on _ ht.tile_mem
      ht.tile_on.uses
  have hon : view.On alloc :=
    Node.On.of_rename (show (view.rename σ).On alloc from ht.view_on) h.fresh
      (hr.has_defined (haround halloc))
  rcases Spine.mem_heads_splice.1 ht.tile_mem with ⟨tile, htile, rfl⟩ | hy
  · exact ⟨tile, htile, view, hview, alloc, halloc, rfl, rfl, rfl, haround htile, haround hview,
      haround halloc, ht.tile_kind, ht.view_kind, ht.alloc_kind,
      Node.On.of_rename (show (tile.rename σ).On view from ht.tile_on) h.fresh
        (hr.has_defined (haround hview)), hon⟩
  · obtain ⟨inner, hinner, hwindow, huses, hhead⟩ := h.windows _ hy ht.tile_kind
    obtain ⟨v, hv, hres⟩ := ht.tile_on
    have htile : (k.plug (b ++ .node hd x z)).Tile inner view alloc := ⟨hinner, haround hview,
      haround halloc, hwindow, ht.view_kind, ht.alloc_kind, ⟨v, hhead ▸ hv, hres⟩, hon⟩
    exact absurd h.window
      (by simp [(ho.last htile hd (Spine.mem_heads_at k b x z hd) huses).1])

theorem owned : ((k.rename σ).plug (b.rename σ ++ (y ++ z.rename σ))).Owned := by
  have haround : ∀ {h'}, h' ∈ (k.plug (b ++ z)).heads →
      h' ∈ (k.plug (b ++ .node hd x z)).heads := fun hh => Spine.mem_heads_around hh hd x
  refine ⟨fun hnew h' hh hu => ?_, fun hnew h' hh hu => ?_, fun hnew h' hh hu => ?_⟩ <;>
    obtain ⟨tile, htile, view, hview, alloc, halloc, rfl, rfl, rfl, ht⟩ := h.tile hr ho hnew
  · rcases h.uses hr hh (haround hview) hu with ⟨h₁, hh₁, rfl, hu₁⟩ | ⟨h₂, hh₂, hwindow, hhd, hu₂⟩
    · rw [ho.shown ht h₁ (haround hh₁) hu₁]
    · exact ((h.not_uses_tile hr ho ht htile hh₂ hwindow hhd).1 hu₂).elim
  · rcases h.uses hr hh (haround halloc) hu with ⟨h₁, hh₁, rfl, hu₁⟩ | ⟨h₂, hh₂, hwindow, hhd, hu₂⟩
    · exact (ho.freed ht h₁ (haround hh₁) hu₁).imp_left fun e => by rw [e]
    · exact ((h.not_uses_tile hr ho ht htile hh₂ hwindow hhd).2.1 hu₂).elim
  · rcases h.uses hr hh (haround htile) hu with ⟨h₁, hh₁, rfl, hu₁⟩ | ⟨h₂, hh₂, hwindow, hhd, hu₂⟩
    · exact ho.last ht h₁ (haround hh₁) hu₁
    · exact ((h.not_uses_tile hr ho ht htile hh₂ hwindow hhd).2.2 hu₂).elim

theorem placed {D : ValueId → Prop}
    (hp : (k.plug (b ++ .node hd x z)).Everywhere (k.plug (b ++ .node hd x z)).Placed f.arguments)
    (hops : ∀ h₁ ∈ (k.plug (b ++ z)).heads, ∀ v ∈ h₁.operands, D v ∨
      (h₁.rename σ).Idle ((k.rename σ).plug (b.rename σ ++ (y ++ z.rename σ))) ∨
        h₁.kind = .dealloc ∧ ∃ view alloc, (k.plug (b ++ .node hd x z)).Tile hd view alloc ∧
          h₁.Uses alloc ∧ ∃ t ∈ hd.defined, D t ∧ σ v = σ t)
    (htiles : ∀ h₁ ∈ (k.plug (b ++ z)).heads, h₁.kind.window?.isSome = true → ∀ v ∈ h₁.defined, D v)
    (hfix : ∀ v, v ∈ (k.plug (b ++ z)).defined ∨ v ∈ f.arguments → D v → σ v = v)
    (hy : y.Scoped (k.knownBehind b f.arguments))
    (hres : ∀ v t, hd.result = some (v, t) → D v → σ v ∈ y.exports ++ k.knownBehind b f.arguments) :
    ((k.rename σ).plug (b.rename σ ++ (y ++ z.rename σ))).Everywhere
      ((k.rename σ).plug (b.rename σ ++ (y ++ z.rename σ))).Placed f.arguments := by
  have haround : ∀ {h'}, h' ∈ (k.plug (b ++ z)).heads →
      h' ∈ (k.plug (b ++ .node hd x z)).heads := fun hh => Spine.mem_heads_around hh hd x
  refine Spine.Everywhere.splice hp (fun h₁ hh₁ l l' hl ⟨hknown, hfreed⟩ => ⟨?_, ?_⟩) hfix
    ((Code.scoped_iff_everywhere.1 hy).imp fun h' hh' l hl =>
      ⟨fun _ => hl, fun hkind => ((h.kinds h' hh').2 hkind).elim⟩) hres
  · intro hbusy v' hv'
    obtain ⟨v, hv, rfl⟩ := List.mem_map.1 hv'
    have hbusy₁ : ¬ h₁.Idle (k.plug (b ++ .node hd x z)) := by
      refine fun hidle => hbusy ⟨hidle.1, fun h' hh' hu => ?_⟩
      rcases h.uses hr hh' (haround hh₁) hu with ⟨h₂, hh₂, -, hu₂⟩ | ⟨h₂, hh₂, -, -, hu₂⟩
      · exact hidle.2 h₂ (haround hh₂) hu₂
      · exact hidle.2 h₂ hh₂ hu₂
    rcases hops h₁ hh₁ v hv with hD | hidle | ⟨hkind, view, alloc, ht, hu, t, hdef, hD, he⟩
    · exact hl v (hknown hbusy₁ v hv) hD
    · exact (hbusy hidle).elim
    · exact he ▸ hl t (hfreed hkind ht hu hdef) hD
  · intro hkind tile view alloc hnew hu v hv
    obtain ⟨tile, htile, view, -, alloc, halloc, rfl, rfl, rfl, ht⟩ := h.tile hr ho hnew
    have hu₁ : h₁.Uses alloc :=
      Node.Uses.of_rename hu h.fresh (hr.has_defined (haround halloc))
    have hD := htiles tile htile ht.tile_kind v hv
    rw [← hfix v (.inl (List.mem_flatMap.2 ⟨tile, htile, hv⟩)) hD]
    exact hl v (hfreed hkind ht hu₁ hv) hD

end Relinks

namespace Function

variable {f g : Function} {k : Spine} {b x y z : Code} {hd : Node} {σ : ValueId → ValueId}

/-- The tiles of the function own their buffers, which are freed where the tiles are known. -/
structure Owned (f : Function) : Prop where
  tiles : f.code.Owned
  freed : f.code.Everywhere f.code.FreedBehind f.arguments

instance (f : Function) : Decidable f.Owned :=
  decidable_of_iff (f.code.Owned ∧ f.code.Everywhere f.code.FreedBehind f.arguments)
    ⟨fun ⟨h₁, h₂⟩ => ⟨h₁, h₂⟩, fun h => ⟨h.1, h.2⟩⟩

structure Settling (f : Function) : Prop where
  wellFormed : f.WellFormed
  sorted : f.Sorted
  nested : f.code.Nested
  owned : f.code.Owned
  placed : f.code.Everywhere f.code.Placed f.arguments

theorem Tidy.settling (h : f.Tidy) (hs : f.Sorted) (ho : f.Owned) : f.Settling where
  wellFormed := h.wellFormed
  sorted := hs
  nested := h.code.nested
  owned := ho.tiles
  placed := (h.everywhere h.wellFormed).and ho.freed |>.imp fun _ _ _ hl => ⟨fun _ => hl.1, hl.2⟩

namespace Settling

theorem represented (h : f.Settling) {c : Code} (hr : f.Represents c) :
    c.Nested ∧ c.Owned ∧ c.Everywhere c.Placed f.arguments :=
  hr.code_eq ▸ ⟨h.nested, h.owned, h.placed⟩

theorem operands_of_definer (h : f.Settling) (hr : f.Represents (k.plug (b ++ .node hd x z)))
    {hd' : Node} {v : ValueId} {t : ValueType} (hh : hd' ∈ (k.plug (b ++ .node hd x z)).heads)
    (hkind : hd'.kind ≠ .view) (hres : hd'.result = some (v, t))
    (hv : v ∈ k.knownBehind b f.arguments) : ∀ u ∈ hd'.operands, u ∈ k.knownBehind b f.arguments := by
  obtain ⟨l, hl, hsub⟩ := hr.of_known (h.represented hr).2.2 hh hres hv
  exact fun u hu => hsub (hl.1 (fun hidle => hkind hidle.1) u hu)

theorem known_operand (h : f.Settling) (hr : f.Represents (k.plug (b ++ .node hd x z)))
    (hkind : hd.kind ≠ .view) {v : ValueId} (hv : v ∈ hd.operands) :
    v ∈ k.knownBehind b f.arguments :=
  (Spine.everywhere_at.1 (h.represented hr).2.2).2.2.1.1 (fun hidle => hkind hidle.1) v hv

theorem relink (h : f.Settling) (hr : f.Represents (k.plug (b ++ .node hd x z)))
    (hsplice : Splice f g (k.rename σ) (b.rename σ) y (z.rename σ)) (hsorted : g.Sorted)
    (hl : Relinks f k b hd x z y σ) (hy : y.Nested)
    (hplaced : ((k.rename σ).plug (b.rename σ ++ (y ++ z.rename σ))).Everywhere
      ((k.rename σ).plug (b.rename σ ++ (y ++ z.rename σ))).Placed f.arguments) : g.Settling := by
  obtain ⟨hnested, howned, -⟩ := h.represented hr
  have hrep := hsplice.represents
  refine ⟨hrep.wellFormed, hsorted, ?_, ?_, ?_⟩
  · exact hrep.code_eq ▸ (Spine.nested_splice hnested).2 σ y hy
  · exact hrep.code_eq ▸ hl.owned hr howned
  · rw [hrep.code_eq, arguments_congr hsplice.grows.arity]
    exact hplaced

theorem shed (h : f.Settling) (hs : f.Sheds g k b x z hd) : g.Settling := by
  obtain ⟨-, howned, hplaced⟩ := h.represented hs.before
  have hsub : (k.plug (b ++ z)).heads ⊆ (k.plug (b ++ .node hd x z)).heads := fun _ hh =>
    Spine.mem_heads_around hh hd x
  have hrep := hs.after
  refine ⟨hrep.wellFormed, hs.sorted h.sorted, ?_, ?_, ?_⟩
  · exact hs.nested h.nested
  · exact hrep.code_eq ▸ howned.mono hsub
  · rw [hrep.code_eq, arguments_congr hs.same.arity]
    have hunused : ∀ h₁ ∈ (k.plug (b ++ z)).heads, ∀ v ∈ h₁.operands, v ∉ hd.defined :=
      fun h₁ hh₁ v hv hdef => hs.unused v hdef h₁ (hsub hh₁) hv
    have hafter := Spine.Everywhere.splice (σ := id) (y := .nil) (D := (· ∉ hd.defined))
      (Q := (k.plug (b ++ z)).Placed) hplaced (fun h₁ hh₁ l l' hl ⟨hknown, hfreed⟩ => ?_)
      (fun _ _ _ => rfl) trivial fun v t hres hv => (hv (by simp [Node.defined, hres])).elim
    · simpa using hafter
    · rw [Node.rename_id]
      refine ⟨fun hbusy v hv => ?_, fun hkind tile view alloc ht hu v hv => ?_⟩
      · exact hl v (hknown (fun hidle => hbusy ⟨hidle.1, fun h' hh' => hidle.2 h' (hsub hh')⟩) v hv)
          (hunused h₁ hh₁ v hv)
      · exact hl v (hfreed hkind (ht.mono hsub) hu hv) fun hdef =>
          hs.before.not_around hdef (List.mem_flatMap.2 ⟨tile, ht.tile_mem, hv⟩)

theorem ownedBuffers (h : f.Settling) : f.Owned := ⟨h.owned, h.placed.imp fun _ _ _ hl => hl.2⟩

theorem tidy (h : f.Settling) (hlive : f.deadOps = []) : f.Tidy where
  wellFormed := h.wellFormed
  code.inScope := Code.scoped_iff_everywhere.2 <| h.placed.imp fun hd hh l hl => hl.1 fun hidle => by
    obtain ⟨v, t, hres, h', hh', hv⟩ :=
      h.wellFormed.used_of_deadOps hlive hh (by rw [hidle.1]; rfl)
    exact hidle.2 h' hh' ⟨v, hv, by simp [Node.defined, hres]⟩
  code.nested := h.nested
  code.plain hd hh hkind := by
    have hs := h.sorted hd hh
    unfold Node.Sorted at hs
    cases hk : hd.kind with
    | kernel | forLoop | parallelLoop => simpa [hk, OpKind.sorts?] using hs
    | _ => simp [hk, OpKind.isStatement] at hkind

end Settling

end Function

end KernelLowering
