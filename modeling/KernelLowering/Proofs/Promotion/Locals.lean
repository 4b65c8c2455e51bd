import KernelLowering.Proofs.Kernel.Elements
import KernelLowering.Proofs.Promotion.Emission
import KernelLowering.Proofs.Tiling.Execution

namespace KernelLowering

theorem forall₂_set {α β : Type} {R : α → β → Prop} {xs : List α} {ys : List β} {x : α} {y : β}
    (h : List.Forall₂ R xs ys) (hxy : R x y) (i : Nat) :
    List.Forall₂ R (xs.set i x) (ys.set i y) := by
  induction h generalizing i with
  | nil => exact .nil
  | cons hfirst hrest ih =>
    cases i with
    | zero => exact .cons hxy hrest
    | succ i => exact .cons hfirst (ih i)

theorem map_set_eq_self {α β : Type} {g : α → β} {xs : List α} {i : Nat} {x : α}
    (h : ∀ b, (xs.map g)[i]? = some b → b = g x) : (xs.set i x).map g = xs.map g := by
  rw [List.map_set]
  refine List.ext_getElem? fun j => ?_
  rw [List.getElem?_set]
  split
  · rename_i hij
    subst j
    split
    · rename_i hlt
      have hget := List.getElem?_eq_getElem hlt
      rw [hget, h _ hget]
    · rename_i hle
      rw [List.getElem?_eq_none (Nat.le_of_not_lt hle)]
  · rfl

theorem forall₂_getElem? {α β : Type} {R : α → β → Prop} {xs : List α} {ys : List β}
    (h : List.Forall₂ R xs ys) (i : Nat) : (xs[i]? = none ∧ ys[i]? = none) ∨
      ∃ x y, xs[i]? = some x ∧ ys[i]? = some y ∧ R x y := by
  rcases Nat.lt_or_ge i xs.length with hi | hi
  · have hi' := h.length_eq ▸ hi
    exact .inr ⟨xs[i], ys[i], List.getElem?_eq_getElem hi, List.getElem?_eq_getElem hi',
      (List.forall₂_iff_get.1 h).2 i hi hi'⟩
  · exact .inl ⟨List.getElem?_eq_none hi, List.getElem?_eq_none (h.length_eq ▸ hi)⟩

namespace Promotion

variable {p : Promotion} {env : Env} {y : Code} {refs tiles : List Ref} {positions : List Nat}
  {operands promoted buffers : List ValueId}

theorem TileOf.mem_defined {type : BufferType} {buffer tile : ValueId}
    (h : TileOf p type y buffer tile) : buffer ∈ y.defined ∧ tile ∈ y.defined := by
  cases h <;> simp [Code.defined_node, Node.defined, Node.value]

theorem TilesOf.mem_promoted {all : List (Nat × BufferType)}
    (h : TilesOf p all operands y buffers promoted) {v : ValueId}
    (hv : v ∈ promoted) : v ∈ operands ∨ v ∈ y.defined := by
  induction h with
  | nil => exact .inl hv
  | cons hfirst _ ih =>
    rw [Code.defined_append, List.mem_append]
    rcases ih hv with hv | hv
    · rcases List.mem_or_eq_of_mem_set hv with hv | rfl
      · exact .inl hv
      · exact .inr (.inl hfirst.mem_defined.2)
    · exact .inr (.inr hv)

theorem TilesOf.buffers_subset {all : List (Nat × BufferType)}
    (h : TilesOf p all operands y buffers promoted) : buffers ⊆ y.defined := by
  induction h with
  | nil => exact List.nil_subset _
  | cons hfirst _ ih =>
    rw [Code.defined_append]
    exact List.cons_subset.2 ⟨List.mem_append_left _ hfirst.mem_defined.1,
      List.subset_append_of_subset_right _ ih⟩

theorem starts_origin (env : Env) (sizes : Shape) :
    (Window.origin sizes).starts env [] = some (sizes.map fun _ => 0) := by
  rw [Window.starts, Window.origin]
  induction sizes with
  | nil => rfl
  | cons size sizes ih =>
    simp only [List.map_cons, Offset.supply, List.mapM_cons, Window.startAt] at ih ⊢
    rw [ih]
    rfl

theorem shift_origin {shape : Shape} {i : List Int} (hi : i ∈ box shape) :
    (Window.origin shape).shift (shape.map fun _ => 0) i = i := by
  rw [Window.shift_of_ones (by simp [Window.origin]) (by simp [Window.origin, length_of_mem_box hi]),
    Tiling.zipWith_zero_add (by simp) (by simp [length_of_mem_box hi])]

def viewedRef (type : BufferType) (buffer : ValueId) : Ref :=
  ⟨buffer, fun i => [(tileType type).element.size * linearIndex type.shape i], type.shape⟩

theorem ref?_viewed (env : Env) (op op' : OpId) (type : BufferType) (size : Int) (buffer v : ValueId) :
    ((Node.value op' .view [buffer] v (.buffer (tileType type))).bind
      ((Node.value op .alloc [] buffer (.buffer (.rowMajor [size] .uint8 .global))).bind env)).ref? v =
        some (viewedRef type buffer) := by
  have halloc : (Node.value op .alloc [] buffer (.buffer (.rowMajor [size] .uint8 .global))).item env =
      some (.buffer (.whole buffer [size])) := rfl
  rw [Node.bind_value, Node.bind_value, halloc, Env.ref?, Env.set_self]
  simp [Node.item, Node.value, Env.ref?, Item.ref?, Ref.whole, tileType, BufferType.rowMajor, viewedRef]

theorem TileOf.ref {type : BufferType} {buffer tile : ValueId} (h : TileOf p type y buffer tile)
    (env : Env) : y.trace env = [.alloc buffer] ∧ ∃ r, (y.after env).ref? tile = some r ∧
      r.root = buffer ∧ r.shape = type.shape ∧ r.Distinct := by
  cases h with
  | @placed space op v hspace =>
    refine ⟨rfl, .whole buffer type.shape, ?_, rfl, rfl, fun i _ j _ hij => congrArg Prod.snd hij⟩
    rw [Code.after, Node.bind_value, Env.ref?, Code.after, Env.set_self]
    rfl
  | @viewed size result op op' op'' v v' v'' hspace hsize hresult =>
    refine ⟨rfl, ⟨buffer, fun i => (viewedRef type buffer).place
      ((Window.origin type.shape).shift (type.shape.map fun _ => 0) i), type.shape⟩, ?_, rfl, rfl, ?_⟩
    · rw [Code.after, Code.after, Code.after, Code.after, Node.bind_value _ _ _ tile, Env.ref?,
        Env.set_self, Node.item_subView op'' tile (.buffer result) (ref?_viewed env op op' type size buffer v')
          (starts_origin _ _)]
      rfl
    · intro i hi j hj hij
      have hsize : ((tileType type).element.size : Int) ≠ 0 := by
        cases (tileType type).element <;> decide
      simp only [Ref.cell, viewedRef, Prod.mk.injEq, true_and, List.cons.injEq, and_true] at hij
      rw [shift_origin hi, shift_origin hj] at hij
      exact linearIndex_inj hi hj (Int.eq_of_mul_eq_mul_left hsize hij)

structure Localizes (fresh : List ValueId) (positions : List Nat) (refs tiles : List Ref) : Prop where
  shapes : tiles.map (·.shape) = refs.map (·.shape)
  kept : ∀ i ∉ positions, tiles[i]? = refs[i]?
  moved : ∀ {i t}, i ∈ positions → tiles[i]? = some t → t.root ∈ fresh ∧ t.Distinct
  apart : ∀ {i j s t}, i ≠ j → i ∈ positions → tiles[i]? = some s → tiles[j]? = some t →
    s.root ≠ t.root

theorem Localizes.refl (fresh : List ValueId) (refs : List Ref) : Localizes fresh [] refs refs :=
  ⟨rfl, fun _ _ => rfl, by simp, by simp⟩

theorem Localizes.cons {fresh fresh' : List ValueId} {i : Nat} {r : Ref}
    (h : Localizes fresh' positions (refs.set i r) tiles) (hroot : r.root ∈ fresh)
    (hdistinct : r.Distinct) (hshape : (refs.set i r).map (·.shape) = refs.map (·.shape))
    (hfresh : fresh.Disjoint fresh') (hroots : ∀ s ∈ refs, s.root ∉ fresh) :
    Localizes (fresh ++ fresh') (i :: positions) refs tiles := by
  have hself : ∀ {t}, i ∉ positions → tiles[i]? = some t → t = r := by
    intro t hi ht
    rw [h.kept i hi, List.getElem?_set_self'] at ht
    cases hs : refs[i]? with
    | none => simp [hs] at ht
    | some s => simpa [hs] using ht.symm
  refine ⟨h.shapes.trans hshape, fun j hj => ?_, fun {j t} hj ht => ?_,
    fun {j j' s t} hne hj hs ht => ?_⟩
  · rw [List.mem_cons, not_or] at hj
    rw [h.kept j hj.2, List.getElem?_set_ne (Ne.symm hj.1)]
  · by_cases hmem : j ∈ positions
    · exact ⟨List.mem_append_right _ (h.moved hmem ht).1, (h.moved hmem ht).2⟩
    · obtain rfl := (List.mem_cons.1 hj).resolve_right hmem
      rw [hself hmem ht]
      exact ⟨List.mem_append_left _ hroot, hdistinct⟩
  · by_cases hmem : j ∈ positions
    · exact h.apart hne hmem hs ht
    · obtain rfl := (List.mem_cons.1 hj).resolve_right hmem
      rw [hself hmem hs]
      by_cases hmem' : j' ∈ positions
      · exact fun e => hfresh hroot (e ▸ (h.moved hmem' ht).1)
      · rw [h.kept j' hmem', List.getElem?_set_ne hne] at ht
        exact fun e => hroots t (List.mem_of_getElem? ht) (e ▸ hroot)

theorem TilesOf.localizes {all : List (Nat × BufferType)} (h : TilesOf p all operands y buffers promoted)
    (hnd : y.defined.Nodup) (hops : ∀ v ∈ operands, v ∉ y.defined)
    (hrefs : List.Forall₂ (fun v r => env.ref? v = some r) operands refs)
    (hroots : ∀ r ∈ refs, r.root ∉ y.defined)
    (hshapes : ∀ a ∈ all, ∀ shape, (refs.map (·.shape))[a.1]? = some shape → shape = a.2.shape) :
    y.trace env = buffers.map .alloc ∧ buffers ⊆ y.defined ∧ ∃ tiles,
      List.Forall₂ (fun v r => (y.after env).ref? v = some r) promoted tiles ∧
        Localizes buffers (all.map (·.1)) refs tiles := by
  induction h generalizing env refs with
  | nil => exact ⟨rfl, by simp, refs, hrefs, .refl _ _⟩
  | @cons position type rest operands buffers promoted y y' buffer tile hfirst _ ih =>
    simp only [Code.defined_append, List.mem_append, not_or] at hnd hops hroots
    obtain ⟨hnd, hnd', hdis⟩ := List.nodup_append'.1 hnd
    obtain ⟨hself, hrest⟩ := List.forall_mem_cons.1 hshapes
    obtain ⟨htrace, r, hr, rfl, hshape, hdistinct⟩ := hfirst.ref env
    obtain ⟨hbuffer, htile⟩ := hfirst.mem_defined
    have hkeep := Tiling.forall₂_ref?_congr hrefs fun v hv => y.after_of_not_mem env (hops v hv).1
    have hset := forall₂_set hkeep hr position
    have hops' : ∀ v ∈ operands.set position tile, v ∉ y'.defined := by
      intro v hv
      rcases List.mem_or_eq_of_mem_set hv with hv | rfl
      · exact (hops v hv).2
      · exact hdis htile
    have hroots' : ∀ s ∈ refs.set position r, s.root ∉ y'.defined := by
      intro s hs
      rcases List.mem_or_eq_of_mem_set hs with hs | rfl
      · exact (hroots s hs).2
      · exact hdis hbuffer
    have hsame : (refs.set position r).map (·.shape) = refs.map (·.shape) :=
      map_set_eq_self fun shape hs => (hself shape hs).trans hshape.symm
    obtain ⟨htrace', hbuffers, tiles, htiles, hL⟩ := ih hnd' hops' hset hroots' (hsame ▸ hrest)
    refine ⟨?_, ?_, tiles, ?_, ?_⟩
    · rw [Code.trace_append, htrace, htrace']
      rfl
    · rw [Code.defined_append]
      exact List.cons_subset.2 ⟨List.mem_append_left _ hbuffer,
        List.subset_append_of_subset_right _ hbuffers⟩
    · rw [Code.after_append]
      exact htiles
    · refine hL.cons (List.mem_singleton_self _) hdistinct hsame (fun v hv hv' => ?_) fun s hs hm => ?_
      · exact hdis (List.mem_singleton.1 hv ▸ hbuffer) (hbuffers hv')
      · exact (hroots s hs).1 (List.mem_singleton.1 hm ▸ hbuffer)

def transfers (positions : List Nat) (sources destinations : List Ref) :
    List KernelLowering.Action :=
  positions.filterMap fun i => do
    let source ← sources[i]?
    let destination ← destinations[i]?
    some (.copy source destination)

def Action.trace (env : Env) (a : Action) : List KernelLowering.Action :=
  (Node.effect ⟨0⟩ a.1 a.2.1 a.2.2).actions env

theorem ActionsOf.trace {as : List Action} (h : ActionsOf as y)
    (hloop : ∀ a ∈ as, a.1.isLoop = false) (env : Env) :
    y.trace env = as.flatMap (Action.trace env) ∧ y.defined = [] := by
  induction h with
  | nil => exact ⟨rfl, rfl⟩
  | @cons kind operands marker rest y op _ ih =>
    obtain ⟨hself, hloop⟩ := List.forall_mem_cons.1 hloop
    obtain ⟨htrace, hdefined⟩ := ih hloop
    have hiterations : kind.iterations = [] := if_neg (by simpa using hself)
    refine ⟨?_, by simp [hdefined, Node.defined, Node.effect]⟩
    rw [List.flatMap_cons, ← htrace, Code.trace, Node.bind_effect]
    simp only [Node.effect, hiterations, List.flatMap_nil, List.append_nil]
    rfl

theorem flatMap_copies {sources destinations : List ValueId} {refs tiles : List Ref}
    (hsources : List.Forall₂ (fun v r => env.ref? v = some r) sources refs)
    (hdestinations : List.Forall₂ (fun v r => env.ref? v = some r) destinations tiles)
    (positions : List Nat) : (copies positions sources destinations).flatMap (Action.trace env) =
      transfers positions refs tiles := by
  induction positions with
  | nil => rfl
  | cons i positions ih =>
    simp only [copies, transfers, Option.bind_eq_bind, List.filterMap_cons] at ih ⊢
    rcases forall₂_getElem? hsources i with ⟨hs, hr⟩ | ⟨source, r, hs, hr, hsource⟩
    · simpa only [hs, hr, Option.bind_none] using ih
    rcases forall₂_getElem? hdestinations i with ⟨hd, ht⟩ | ⟨destination, t, hd, ht, hdestination⟩
    · simpa only [hs, hr, hd, ht, Option.bind_some, Option.bind_none] using ih
    · simp only [hs, hr, hd, ht, Option.bind_some, List.flatMap_cons, ih]
      simp [Action.trace, Node.actions, Node.effect, hsource, hdestination]

theorem PromotedOf.trace {all : List (Nat × BufferType)} (h : PromotedOf p operands positions all y)
    (hnd : y.defined.Nodup) (hops : ∀ v ∈ operands, v ∉ y.defined)
    (hrefs : List.Forall₂ (fun v r => env.ref? v = some r) operands refs)
    (hroots : ∀ r ∈ refs, r.root ∉ y.defined)
    (hshapes : ∀ a ∈ all, ∀ shape, (refs.map (·.shape))[a.1]? = some shape → shape = a.2.shape) :
    ∃ buffers tiles, buffers ⊆ y.defined ∧ Localizes buffers (all.map (·.1)) refs tiles ∧
      y.trace env = buffers.map .alloc ++ (transfers positions refs tiles ++
        .kernel p.kind tiles :: transfers (p.outputs positions) tiles refs) := by
  cases h with
  | @intro y y' buffers promoted htiles hactions =>
    have hloop : ∀ a ∈ p.actions positions operands promoted buffers, a.1.isLoop = false := by
      intro a ha
      rcases cases_of_mem_actions ha with ⟨hkind | hkind, -⟩ | rfl
      · rw [hkind]
        rfl
      · rw [hkind]
        rfl
      · rfl
    simp only [Code.defined_append, List.mem_append, not_or] at hnd hops hroots
    obtain ⟨htrace, hbuffers, tiles, hpromoted, hL⟩ := htiles.localizes (List.nodup_append'.1 hnd).1
      (fun v hv => (hops v hv).1) hrefs (fun r hr => (hroots r hr).1) hshapes
    obtain ⟨htrace', hdefined⟩ := hactions.trace hloop (y.after env)
    have hrefs' := Tiling.forall₂_ref?_congr hrefs fun v hv => y.after_of_not_mem env (hops v hv).1
    rw [Code.defined_append, hdefined, List.append_nil, Code.trace_append, htrace, htrace', actions,
      List.flatMap_append, List.flatMap_cons, List.flatMap_append, flatMap_copies hrefs' hpromoted,
      flatMap_copies hpromoted hrefs']
    refine ⟨buffers, tiles, hbuffers, hL, ?_⟩
    have hkernel : Action.trace (y.after env) (.kernel p.kind, promoted, some p.guard.next) =
        [.kernel p.kind tiles] := by
      simp [Action.trace, Node.actions, Node.effect, Env.mapM_ref?_eq_some.2 hpromoted]
    have hends : (buffers.map fun buffer => ((.dealloc, [buffer], none) : Action)).flatMap
        (Action.trace (y.after env)) = [] := by
      simp [Action.trace, Node.actions, Node.effect]
    rw [hkernel, hends, List.append_nil]
    rfl

end Promotion

end KernelLowering
