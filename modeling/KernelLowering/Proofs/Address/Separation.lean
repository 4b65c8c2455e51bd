import KernelLowering.Proofs.Address.Runs
import KernelLowering.Proofs.Layout.Addresses
import KernelLowering.Proofs.Scope.ViewCleanup

namespace KernelLowering

open Address

variable {f g : Function} {bindings : Bindings} {v v' root : ValueId} {a : IndexArray}

def Function.Separates (f : Function) (bindings : Bindings) (v v' : ValueId) : Prop :=
  ∃ a a', Found (addressed f v bindings) a ∧ Found (addressed f v' bindings) a' ∧
    (a.root = a'.root → a.positions.toList.Disjoint a'.positions.toList)

namespace Function.Separates

theorem symm (h : f.Separates bindings v v') : f.Separates bindings v' v := by
  obtain ⟨a, a', ha, ha', hdisjoint⟩ := h
  exact ⟨a', a, ha', ha, fun hroot => (hdisjoint hroot.symm).symm⟩

theorem of_found {u u' : ValueId} (h : f.Separates bindings v v')
    (hv : ∀ a, Found (addressed f v bindings) a → Found (addressed g u bindings) a)
    (hv' : ∀ a, Found (addressed f v' bindings) a → Found (addressed g u' bindings) a) :
    g.Separates bindings u u' := by
  obtain ⟨a, a', ha, ha', hdisjoint⟩ := h
  exact ⟨a, a', hv a ha, hv' a' ha', hdisjoint⟩

theorem of_shown {s s' : ValueId × List Int} (hs : Greedy.shown f v bindings = .ok (.ok s))
    (hs' : Greedy.shown f v' bindings = .ok (.ok s')) (h : s.1 = s'.1 → s.2.Disjoint s'.2) :
    f.Separates bindings v v' := by
  obtain ⟨r, hr, hrs⟩ := Fault.map_eq_ok.1 hs
  obtain ⟨r', hr', hrs'⟩ := Fault.map_eq_ok.1 hs'
  cases r with
  | error e => cases hrs
  | ok a =>
    cases r' with
    | error e => cases hrs'
    | ok a' =>
      cases hrs
      cases hrs'
      exact ⟨a, a', hr, hr', h⟩

end Function.Separates

theorem Function.ViewAt.has_root {c : Code} {limit d : Nat}
    (h : f.ViewAt c bindings limit d v root a) : f.Has root := by
  induction h with
  | root htype => exact Function.has_of_bufferType? htype
  | window _ _ _ _ _ _ _ ih => exact ih

namespace IndexArray

theorem zeros_mem_indices {shape : List Nat} (h : ∀ extent ∈ shape, 0 < extent) :
    List.replicate shape.length 0 ∈ indices shape := by
  induction shape with
  | nil => exact List.mem_singleton_self []
  | cons extent rest ih =>
    rw [List.forall_mem_cons] at h
    exact List.mem_flatMap.2 ⟨0, List.mem_range.2 h.1, List.mem_map_of_mem (ih h.2)⟩

theorem toList_ne_nil (h : ∀ extent ∈ a.shape, 0 < extent) : a.toList ≠ [] := by
  rw [toList_eq_map]
  exact List.ne_nil_of_mem (List.mem_map_of_mem (zeros_mem_indices h))

end IndexArray

theorem Address.rootShape_eq_ok_iff {shape : Shape} {extents : List Nat}
    (h : ∀ extent ∈ shape, 1 ≤ extent) : rootShape shape = .ok extents ↔
      8 * shape.prod ≤ Checked.maxValue ∧ shape.map Int.toNat = extents := by
  have hfilter : shape.filter (· ≠ 0) = shape :=
    List.filter_eq_self.2 fun extent he => decide_eq_true (by have := h extent he; omega)
  have hprod : 1 ≤ shape.prod := by
    have hone := Shape.one_le_filled fun extent he => Int.le_trans Int.one_nonneg (h extent he)
    rwa [Shape.filled, hfilter] at hone
  have hneg : ¬ shape.any (· < 0) = true := by
    simp only [List.any_eq_true, decide_eq_true_eq, not_exists, not_and, not_lt]
    exact fun extent he => Int.le_trans Int.one_nonneg (h extent he)
  have hzero : ¬ shape.any (· = 0) = true := by
    simp only [List.any_eq_true, decide_eq_true_eq, not_exists, not_and]
    exact fun extent he => by have := h extent he; omega
  rw [rootShape, hfilter, ← List.prod_eq_foldl]
  dsimp only
  split
  · rename_i hlarge
    have hmax := hlarge.resolve_left hneg
    exact ⟨fun e => (by cases e), fun e => by omega⟩
  · split
    · rename_i hlarge
      exact ⟨fun e => (by cases e), fun e => by omega⟩
    · rename_i hfits
      have hmax : 8 * shape.prod ≤ Checked.maxValue := not_lt.1 fun h => hfits ⟨hzero, h⟩
      exact ⟨fun e => ⟨hmax, Except.ok.inj e⟩, fun e => congrArg _ e.2⟩

namespace Window

theorem Slices.prod_le {starts strides : List Int} {sizes : Shape} {extents : List Nat}
    {slices : List AxisSlice} (h : Slices starts sizes strides extents slices)
    (hpos : ∀ size ∈ sizes, 1 ≤ size) (hstep : ∀ stride ∈ strides, 1 ≤ stride) :
    (0 ≤ sizes.prod ∧ sizes.prod ≤ (extents.map Nat.cast : List Int).prod) ∧
      ∀ extent ∈ extents, 0 < extent := by
  induction h with
  | nil => simp
  | @cons first size stride extent _ _ _ _ _ hreaches _ ih =>
    rw [List.forall_mem_cons] at hpos hstep
    obtain ⟨⟨hnonneg, hle⟩, hextents⟩ := ih hpos.2 hstep.2
    have hsize : size ≤ extent := by
      have hsteps : size - 1 ≤ (size - 1) * stride := le_mul_of_one_le_right (by omega) hstep.1
      have hfirst := hreaches.nonneg
      have hwithin := hreaches.within
      omega
    rw [List.map_cons, List.prod_cons, List.prod_cons, List.forall_mem_cons]
    exact ⟨⟨mul_nonneg (by omega) hnonneg, mul_le_mul hsize hle hnonneg (by omega)⟩, by omega, hextents⟩

theorem Slices.rootShape_eq {starts strides : List Int} {shape sizes : Shape} {extents : List Nat}
    {slices : List AxisSlice} (hshape : rootShape shape = .ok extents)
    (h : Slices starts sizes strides extents slices) (hpos : ∀ size ∈ sizes, 1 ≤ size)
    (hstep : ∀ stride ∈ strides, 1 ≤ stride) : rootShape sizes = .ok (sizes.map Int.toNat) := by
  obtain ⟨⟨-, hle⟩, hextents⟩ := h.prod_le hpos hstep
  obtain ⟨hnonneg, -, rfl⟩ := rootShape_eq_ok hshape
  have hone : ∀ extent ∈ shape, 1 ≤ extent := fun extent he => by
    have := hextents _ (List.mem_map_of_mem he)
    omega
  have hcast : (shape.map Int.toNat).map Nat.cast = shape := by
    rw [List.map_map]
    exact (List.map_congr_left fun extent he => Int.toNat_of_nonneg (hnonneg extent he)).trans
      (List.map_id _)
  rw [hcast] at hle
  have hbytes := ((rootShape_eq_ok_iff hone).1 hshape).1
  exact (rootShape_eq_ok_iff hpos).2 ⟨by omega, rfl⟩

end Window

namespace Reallocation

variable {k : Spine} {b z : Code} {hd view alloc : Node} {tile bytes new : ValueId}
  {type type' : BufferType} {space : MemorySpace} {op : OpId} {x : Code}
  (hr : f.Represents (k.plug (b ++ .node hd x z))) (hf : f.Readable bindings)
  (ht : (k.plug (b ++ .node hd x z)).Tile hd view alloc)
  (hres : hd.result = some (tile, .buffer type)) (hbytes : alloc.result = some (bytes, .buffer type'))

include hr ht hres hbytes in
theorem not_merged_of_opens (hs : f.Sorted) (ho : (k.plug (b ++ .node hd x z)).Owned) {h : Node}
    (hh : h ∈ (k.plug (b ++ .node hd x z)).heads)
    (hopens : h.kind.Opens) (hv : v ∈ h.operands) : v ≠ tile ∧ v ≠ bytes := by
  constructor
  · rintro rfl
    rcases hopens with hkind | hkind
    · obtain ⟨lhs, rhs, -, hops, hlhs, hrhs, -⟩ := (hr.sorted_iff.1 hs h hh).of_addIndex hkind
      have hsort := hr.sort?_result ht.tile_mem hres
      simp only [hops, List.mem_cons, List.not_mem_nil, or_false] at hv
      rcases hv with rfl | rfl
      · cases hsort.symm.trans hlhs
      · cases hsort.symm.trans hrhs
    · exact hkind (ho.last ht h hh ⟨v, hv, by simp [Node.defined, hres]⟩).1
  · rintro rfl
    rcases ho.freed ht h hh ⟨v, hv, by simp [Node.defined, hbytes]⟩ with rfl | hkind
    · simp [OpKind.Opens, ht.view_kind, OpKind.window?] at hopens
    · simp [OpKind.Opens, hkind, OpKind.window?] at hopens

include hr hf ht hres in
theorem exists_slices {e : AddressedElements} (he : Found (addressed f tile bindings) e) :
    ∃ w shape extents starts slices, hd.kind = .subView w ∧ w.Ranked ∧
      rootShape shape = .ok extents ∧ Window.Slices starts w.sizes w.strides extents slices ∧
        e.positions.shape = w.sizes.map Int.toNat := by
  obtain ⟨root, a⟩ := e
  rw [Address.found_addressed hr (hf.allRanked hr)] at he
  generalize depthOf f = limit at he
  have hdef := hr.definer?_eq ht.tile_mem hres
  cases he with
  | root _ hnone _ =>
    have htile := ht.tile_kind
    rw [hnone hd hdef] at htile
    cases htile
  | @window _ _ source _ _ h w supplied starts below _ _ hdef' hkind hops hsource _ hshows =>
    obtain rfl : hd = h := Option.some.inj (hdef.symm.trans hdef')
    obtain ⟨u, hu, hview⟩ := ht.tile_on
    obtain rfl : source = u := by simpa [hops] using hu
    obtain ⟨⟨_, t⟩, hview', rfl⟩ := Option.map_eq_some_iff.1 hview
    have hdef'' := hr.definer?_eq ht.view_mem hview'
    obtain ⟨slices, hslices, rfl⟩ := hshows
    cases hsource with
    | @root _ _ _ shape _ _ hshape =>
      exact ⟨w, _, shape, starts, slices, hkind, hf.allRanked hr hd ht.tile_mem w hkind, hshape,
        hslices, hslices.lengths.2.2.2⟩
    | @window _ _ _ _ _ h' _ _ _ _ _ _ hdef₁ hkind' =>
      obtain rfl : view = h' := Option.some.inj (hdef''.symm.trans hdef₁)
      cases ht.view_kind.symm.trans hkind'

include hr hf ht hres in
theorem not_separates_tile : ¬ f.Separates bindings tile tile := by
  rintro ⟨e, e', he, he', hdisjoint⟩
  obtain rfl : e = e' := by
    simpa [Found] using he.symm.trans he'
  obtain ⟨w, -, -, -, -, -, hw, -, -, hshape⟩ := exists_slices hr hf ht hres he
  have hne : e.positions.toList ≠ [] := IndexArray.toList_ne_nil fun extent hextent => ?_
  · obtain ⟨p, hp⟩ := List.exists_mem_of_ne_nil _ hne
    exact hdisjoint rfl hp hp
  rw [hshape] at hextent
  obtain ⟨size, hsize, rfl⟩ := List.mem_map.1 hextent
  have := hw.size_pos size hsize
  omega

section Splice

variable (hsplice : Splice f g (k.rename (merged tile bytes new)) (b.rename (merged tile bytes new))
  (.node (made op new type space) .nil .nil) (z.rename (merged tile bytes new)))

include hr hf ht hres hbytes hsplice

theorem readable : g.Readable bindings := by
  refine hf.splice hr hsplice.represents hsplice.grows (fun v t hv => ?_) ⟨.inr rfl, trivial, trivial⟩
    (fun h hh => ?_) fun v hv => Nat.not_lt.2 (hsplice.size_le hv)
  · exact Function.bufferType_of_sort?
      (respectsSorts hr ht hres hbytes hsplice v _ (Function.sort?_of_bufferType? hv))
  · rw [List.mem_singleton.1 hh]
    intro w hw
    cases hw

theorem found_new (hshape : ∀ w, hd.kind = .subView w → type.shape = w.sizes) {e : AddressedElements}
    (he : Found (addressed f tile bindings) e) :
    ∃ e', Found (addressed g new bindings) e' ∧ e'.root = new := by
  obtain ⟨w, shape, extents, starts, slices, hkind, hw, hroot, hslices, -⟩ :=
    exists_slices hr hf ht hres he
  have hg := hsplice.represents
  have hreadable := readable hr hf ht hres hbytes hsplice
  have hmade : made op new type space ∈ ((k.rename (merged tile bytes new)).plug
      (b.rename (merged tile bytes new) ++ (.node (made op new type space) .nil .nil ++
        z.rename (merged tile bytes new)))).heads :=
    Spine.mem_heads_splice.2 (.inr List.mem_cons_self)
  refine ⟨⟨new, .rowMajor (w.sizes.map Int.toNat)⟩, ?_, rfl⟩
  rw [Address.found_addressed hg (hreadable.allRanked hg)]
  refine .root (hg.bufferType?_eq hmade rfl) (fun h hdef => ?_) ?_
  · obtain rfl := Option.some.inj ((hg.definer?_eq hmade rfl).symm.trans hdef)
    rfl
  · rw [BufferType.rowMajor, hshape w hkind]
    exact hslices.rootShape_eq hroot hw.size_pos hw.stride_pos

variable (hs : f.Sorted) (ho : (k.plug (b ++ .node hd x z)).Owned)

include hs ho

theorem found_addressed (hvt : v ≠ tile) (hvb : v ≠ bytes) {e : AddressedElements}
    (he : Found (addressed f v bindings) e) : Found (addressed g v bindings) e := by
  obtain ⟨w, hw⟩ := Option.isSome_iff_exists.1 ht.tile_kind
  have hkind := OpKind.window?_eq_some.1 hw
  obtain rfl : x = .nil := Spine.body_eq_nil (hr.code_eq ▸ hf.nested) (by rw [hkind]; rfl)
  have hrewired : Rewired f g (k.plug (b ++ .node hd .nil z)) _ bindings (merged tile bytes new)
      (fun v => v ≠ tile ∧ v ≠ bytes) hd :=
    .of_represents hr hsplice.represents hsplice.grows
      (fun v hv => Nat.not_lt.2 (hsplice.size_le hv))
      (hr.inductionVars_eq_nil ht.tile_mem (by rw [hkind]; rfl))
      (fun v hv _ => merged_of_ne hv.1 hv.2) (fun v hv => by rw [merged_of_ne hv.1 hv.2])
      (fun h hh hopens v hv => not_merged_of_opens hr ht hres hbytes hs ho hh hopens hv)
      (fun v _ _ => by rw [hw]; exact Option.some_ne_none w)
  have hreadable := readable hr hf ht hres hbytes hsplice
  rw [Address.found_addressed hr (hf.allRanked hr)] at he
  rw [Address.found_addressed hsplice.represents (hreadable.allRanked hsplice.represents)]
  have hview := hrewired.viewAt le_rfl (fun _ u _ _ hu hdef => ?_) ⟨hvt, hvb⟩ he
  · rw [merged_of_ne hvt hvb] at hview
    have hdepth : depthOf f ≤ depthOf g := Nat.succ_le_succ hsplice.grows.ops
    exact hview.mono hdepth hdepth
  · obtain ⟨-, t, hres'⟩ := Code.of_definer? hdef
    exact (hu.1 (Prod.mk.inj (Option.some.inj (hres'.symm.trans hres))).1).elim

theorem separates (hshape : ∀ w, hd.kind = .subView w → type.shape = w.sizes) (hv : v ≠ bytes)
    (hv' : v' ≠ bytes) (h : f.Separates bindings v v') :
    g.Separates bindings (merged tile bytes new v) (merged tile bytes new v') := by
  -- A new buffer is the root of no value that was there before.
  have hnew : ∀ {u}, u ≠ tile → u ≠ bytes → f.Separates bindings tile u → g.Separates bindings new u := by
    rintro u hut hub ⟨e, e', he, he', -⟩
    obtain ⟨e₁, he₁, hroot⟩ := found_new hr hf ht hres hbytes hsplice hshape he
    refine ⟨e₁, e', he₁, found_addressed hr hf ht hres hbytes hsplice hs ho hut hub he', fun hsame => ?_⟩
    rw [Address.found_addressed hr (hf.allRanked hr)] at he'
    exact (not_has_new hsplice (hroot ▸ hsame ▸ he'.has_root)).elim
  by_cases hvt : v = tile <;> by_cases hvt' : v' = tile
  · subst hvt hvt'
    exact (not_separates_tile hr hf ht hres h).elim
  · subst hvt
    rw [merged_tile, merged_of_ne hvt' hv']
    exact hnew hvt' hv' h
  · subst hvt'
    rw [merged_tile, merged_of_ne hvt hv]
    exact (hnew hvt hv h.symm).symm
  · rw [merged_of_ne hvt hv, merged_of_ne hvt' hv']
    exact h.of_found (fun _ => found_addressed hr hf ht hres hbytes hsplice hs ho hvt hv)
      fun _ => found_addressed hr hf ht hres hbytes hsplice hs ho hvt' hv'

end Splice

end Reallocation

end KernelLowering
