import KernelLowering.Proofs.Address.Axes
import KernelLowering.Proofs.Address.Evaluation
import KernelLowering.Proofs.Arena.Check
import KernelLowering.Proofs.Arena.DeadCode
import KernelLowering.Proofs.Simulation.Lookup

namespace KernelLowering

namespace Address

section Below

variable {f : Function} {c : Code} {bindings : Bindings} {v : ValueId}

theorem exists_stack_of_found (hr : f.Represents c) {d : Nat} {e : AddressedElements}
    (h : Found (addressedTo f bindings d v) e) : ∃ views, c.Stack (some v) views ∧
      ∀ d', views.length < d' → Found (addressedTo f bindings d' v) e := by
  induction d generalizing v e with
  | zero => cases h
  | succ d ih =>
    obtain ⟨_, type, o, ⟨⟩, htype, ho⟩ := exists_of_found h
    rcases hr.definition?_eq (Function.has_of_definition? ho) with ⟨hdef, hnone⟩ |
      ⟨hd, parent, region, hdef, -, hsome⟩
    · refine ⟨[], .ground (by simp [hdef]), fun d' hd' => ?_⟩
      obtain ⟨d', rfl⟩ := Nat.exists_eq_add_one.2 hd'
      rwa [found_root_iff htype hnone rfl] at h ⊢
    cases hwindow : hd.kind.window? with
    | none =>
      refine ⟨[], .ground (by simp [hdef, hwindow]), fun d' hd' => ?_⟩
      obtain ⟨d', rfl⟩ := Nat.exists_eq_add_one.2 hd'
      rwa [found_root_iff htype hsome hwindow] at h ⊢
    | some w =>
      have hkind := OpKind.window?_eq_some.1 hwindow
      obtain ⟨source, supplied, hops, e', he', hrest⟩ := (found_window_iff htype hsome hkind).1 h
      obtain ⟨views, hviews, hfound⟩ := ih he'
      have hops' : hd.operands.head? = some source := by
        rw [show hd.operands = source :: supplied from hops, List.head?_cons]
      refine ⟨hd :: views, .view hdef (by simp [hwindow]) (hops' ▸ hviews), fun d' hd' => ?_⟩
      obtain ⟨d', rfl⟩ := Nat.exists_eq_add_one.2 (Nat.zero_lt_of_lt hd')
      rw [found_window_iff htype hsome hkind]
      exact ⟨source, supplied, hops, e', hfound d' (Nat.lt_of_succ_lt_succ hd'), hrest⟩

theorem found_below (hf : f.WellFormed) {h : Node} {source : ValueId} {supplied : List ValueId}
    (hdef : f.code.definer? v = some h) (hwindow : h.kind.window?.isSome = true)
    (hops : h.operands = source :: supplied) {e : AddressedElements}
    (he : (addressed f source bindings).run = .ok (.ok e)) :
    Found (addressedTo f bindings f.ops.size source) e := by
  obtain ⟨views, hviews, hfound⟩ := exists_stack_of_found hf he
  have hstack : f.code.Stack (some v) (h :: views) :=
    .view hdef hwindow (by rwa [hops, List.head?_cons])
  have hheight := hstack.length_le
  have hsize := hf.length_le
  rw [Code.ops_eq_map_heads, List.length_map] at hsize
  exact hfound _ (hheight.trans hsize)

end Below

section Addressed

variable {f : Function} {bindings : Bindings} {h : Node} {w : Window} {type : BufferType}
  {v source : ValueId} {supplied : List ValueId} {e : AddressedElements} {axes : List Axis}
  (hf : f.WellFormed) (hh : h ∈ f.code.heads) (hkind : h.kind = .subView w)
  (hresult : h.result = some (v, .buffer type)) (hops : h.operands = source :: supplied)
  (he : (addressed f source bindings).run = .ok (.ok e)) (hregular : ∀ x ∈ axes, x.Regular)
  (hshape : e.positions.shape = axes.map Axis.extent) (hsizes : w.sizes = axes.map Axis.size)
  (hstrides : w.strides = axes.map Axis.stride)
  (hoffsets : List.Forall₂ (fun o first => (evalOffset f bindings v o).run = .ok (.ok first))
    (Offset.supply w.offsets supplied) (axes.map Axis.first))

include hf hh hkind hresult hops he hregular hshape hsizes hstrides hoffsets

theorem addressed_cases :
    (∃ x ∈ axes, ¬ x.Inside) ∧ (addressed f v bindings).run = .ok (.error (.outOfBounds v)) ∨
      (∀ x ∈ axes, x.Inside) ∧ (addressed f v bindings).run =
        (fun p => .ok ⟨e.root, p⟩) <$> windowElements w (axes.map Axis.first) e.positions := by
  have htype := hf.bufferType?_eq hh hresult
  have hdef := hf.definer?_eq hh hresult
  obtain ⟨parent, region, ho⟩ := hf.definition?_of_definer? hdef
  have hsource := found_below hf hdef (by rw [hkind]; rfl) hops he
  rw [addressed, depthOf, addressedTo, Found.run_bind (Found.lift_iff.2 htype)]
  dsimp only [ValueType.buffer?]
  rw [Found.run_bind (Found.lift_iff.2 ho)]
  simp only [Option.bind_some, Node.record, hkind, OpKind.window?, Option.map_some]
  rw [Found.run_bind (Found.lift_iff.2 (show Operation.operand _ 0 = .ok source by
      simp [Operation.operand, hops])), Found.run_bind hsource,
    Found.run_bind (Found.lift_iff.2 (show Operation.offsetOperands _ = .ok supplied by
      simp [Operation.offsetOperands, hops])), Found.run_bind (Found.mapM_iff.2 hoffsets)]
  rcases Axis.run_checks_cases hregular hsizes hstrides hshape (v := v) with ⟨hin, hrun⟩ | ⟨hnot, hrun⟩
  · rw [Found.run_bind hrun]
    refine .inr ⟨hin, ?_⟩
    cases windowElements w (axes.map Axis.first) e.positions <;> rfl
  · exact .inl ⟨hnot, run_bind_of_error hrun⟩

theorem exact_of_sliceable (hslice : (∀ x ∈ axes, x.Inside) → ∀ x ∈ axes, x.Sliceable) :
    Axis.Exact axes v e (addressed f v bindings).run := by
  rcases addressed_cases hf hh hkind hresult hops he hregular hshape hsizes hstrides hoffsets with
    ⟨⟨x, hx, hnot⟩, hrun⟩ | ⟨hin, hrun⟩
  · refine ⟨.inl hrun, fun hpos => iff_of_true hrun ?_⟩
    obtain ⟨i, hi, hout⟩ := Axis.exists_outside (hpos x hx) hnot
    exact ⟨x, hx, i, hi, hout⟩
  have hslice := hslice hin
  rw [(Axis.windowElements_eq_ok hregular hsizes hstrides hshape).2 ⟨axes.map Axis.slice,
    List.forall₂_map_right_iff.2 (List.forall₂_same.2 fun x hx =>
      Axis.select_eq_slice (hregular x hx) (hin x hx) (hslice x hx)), rfl⟩] at hrun
  refine ⟨.inr ⟨_, hrun, ?_, fun index hindex => ?_⟩, fun _ => iff_of_false ?_ ?_⟩
  · simpa [IndexArray.slice, Axis.slice] using fun x hx => (hregular x hx).size_nonneg
  · have hindex := IndexArray.mem_indices.1 hindex
    obtain ⟨coords, hcoords, hcast, rfl⟩ := Axis.coordinates_mem hin hslice
      (by simpa [IndexArray.slice, Axis.slice, Function.comp_def] using hindex)
    exact ⟨_, IndexArray.mem_indices.2 (hshape ▸ hcoords), hcast, rfl⟩
  · rw [hrun]
    rintro ⟨⟩
  · rintro ⟨x, hx, i, hi, hout⟩
    exact hout (Axis.index_of_inside (hin x hx) (hslice x hx) hi)

theorem sliceable_of_exact (hpos : ∀ x ∈ axes, 1 ≤ x.size)
    (hexact : Axis.Exact axes v e (addressed f v bindings).run) (hin : ∀ x ∈ axes, x.Inside) :
    ∀ x ∈ axes, x.Sliceable := by
  rcases addressed_cases hf hh hkind hresult hops he hregular hshape hsizes hstrides hoffsets with
    ⟨⟨x, hx, hnot⟩, -⟩ | ⟨-, hrun⟩
  · exact absurd (hin x hx) hnot
  have hfound : (addressed f v bindings).run ≠ .ok (.error (.outOfBounds v)) := by
    rw [hrun]
    intro h
    obtain ⟨_, -, ⟨⟩⟩ := Fault.map_eq_ok.1 h
  obtain ⟨p, hp, hcounts, -⟩ := hexact.ends.resolve_left hfound
  rw [hrun] at hp
  obtain ⟨_, hp, ⟨⟩⟩ := Fault.map_eq_ok.1 hp
  obtain ⟨slices, hslices, rfl⟩ := (Axis.windowElements_eq_ok hregular hsizes hstrides hshape).1 hp
  intro x hx
  obtain ⟨i, hi, rfl⟩ := List.getElem_of_mem hx
  have hi' : i < slices.length := hslices.length_eq ▸ hi
  have hcount : (slices[i].count : Int) = axes[i].size := by
    simpa [IndexArray.slice, hi, hi'] using congrArg (·[i]?) hcounts
  refine Axis.sliceable_of_select (hregular _ hx) (hin _ hx) (hslices.get hi hi') hcount fun hone => ?_
  by_contra hlast
  refine hfound ((hexact.outOfBounds_iff hpos).2
    ⟨_, hx, (axes[i].size - 1).toNat, by omega, fun hon => hlast ?_⟩)
  rw [← Axis.index_last hone]
  exact hon.1

theorem addressed_exact :
    (((∀ x ∈ axes, x.Inside) → ∀ x ∈ axes, x.Sliceable) →
      Axis.Exact axes v e (addressed f v bindings).run) ∧
    ((∀ x ∈ axes, 1 ≤ x.size) → Axis.Exact axes v e (addressed f v bindings).run →
      (∀ x ∈ axes, x.Inside) → ∀ x ∈ axes, x.Sliceable) :=
  ⟨exact_of_sliceable hf hh hkind hresult hops he hregular hshape hsizes hstrides hoffsets,
    sliceable_of_exact hf hh hkind hresult hops he hregular hshape hsizes hstrides hoffsets⟩

end Addressed

def stridedViews : Function where
  name := "strided"
  ops := #[⟨.subView ⟨[.dynamic], [2], [2]⟩, [⟨0⟩, ⟨1⟩], some ⟨2⟩, none, [], [], none, true⟩,
    ⟨.subView ⟨[.static 3], [2], [-1]⟩, [⟨0⟩], some ⟨3⟩, none, [], [], none, true⟩,
    ⟨.subView ⟨[.static 0], [0], [2]⟩, [⟨0⟩], some ⟨4⟩, none, [], [], none, true⟩,
    ⟨.subView ⟨[.static 5], [3], [-1]⟩, [⟨0⟩], some ⟨5⟩, none, [], [], none, true⟩]
  values := #[⟨.buffer (.rowMajor [4] .float32 .global), .argument 0⟩, ⟨.index, .argument 1⟩,
    ⟨.buffer ⟨[2], .float32, .strided none [2], .global⟩, .result ⟨0⟩⟩,
    ⟨.buffer ⟨[2], .float32, .strided (some 3) [-1], .global⟩, .result ⟨1⟩⟩,
    ⟨.buffer ⟨[0], .float32, .strided (some 0) [2], .global⟩, .result ⟨2⟩⟩,
    ⟨.buffer ⟨[3], .float32, .strided (some 5) [-1], .global⟩, .result ⟨3⟩⟩]
  arity := 2
  body := [⟨0⟩, ⟨1⟩, ⟨2⟩, ⟨3⟩]

theorem addressed_exact_stridedViews : stridedViews.WellFormed ∧
    Axis.Exact [⟨1, 2, 2, 4⟩] ⟨2⟩ ⟨⟨0⟩, .rowMajor [4]⟩ (addressed stridedViews ⟨2⟩ [(⟨1⟩, 1)]).run ∧
    (addressed stridedViews ⟨2⟩ [(⟨1⟩, 1)]).run.toOption.map
      (fun r => r.toOption.map (·.positions.toList)) = some (some [1, 3]) := by
  have hf : stridedViews.WellFormed := by decide +kernel
  have hh : ⟨⟨0⟩, .subView ⟨[.dynamic], [2], [2]⟩, [⟨0⟩, ⟨1⟩], some (⟨2⟩, .buffer ⟨[2], .float32,
      .strided none [2], .global⟩), none, []⟩ ∈ stridedViews.code.heads := by decide +kernel
  refine ⟨hf, ?_, by decide +kernel⟩
  exact (addressed_exact hf hh rfl rfl rfl rfl (by decide) rfl rfl rfl (by exact .cons rfl .nil)).1
    fun _ => by decide

theorem not_exact_stridedViews : stridedViews.WellFormed ∧
    [⟨3⟩, ⟨4⟩, ⟨5⟩].map (fun v => (stridedViews.code.definer? v).map (·.kind)) =
      [some (.subView ⟨[.static 3], [2], [-1]⟩), some (.subView ⟨[.static 0], [0], [2]⟩),
        some (.subView ⟨[.static 5], [3], [-1]⟩)] ∧
    (∀ x ∈ [(⟨3, 2, -1, 4⟩ : Axis), ⟨0, 0, 2, 4⟩, ⟨5, 3, -1, 4⟩], x.Regular) ∧
    (addressed stridedViews ⟨0⟩ []).run = .ok (.ok ⟨⟨0⟩, .rowMajor [4]⟩) ∧
    ¬ Axis.Exact [⟨3, 2, -1, 4⟩] ⟨3⟩ ⟨⟨0⟩, .rowMajor [4]⟩ (addressed stridedViews ⟨3⟩ []).run ∧
    ¬ Axis.Exact [⟨0, 0, 2, 4⟩] ⟨4⟩ ⟨⟨0⟩, .rowMajor [4]⟩ (addressed stridedViews ⟨4⟩ []).run ∧
    (addressed stridedViews ⟨5⟩ []).run = .error .failedAssertion := by
  refine ⟨by decide +kernel, by decide +kernel, by decide, rfl, fun h => ?_, fun h => ?_, rfl⟩
  · have hsize := h.shape (show _ = some (some [0]) by decide +kernel)
    exact absurd hsize (by decide)
  · have hsize := h.shape (show _ = some (some [2]) by decide +kernel)
    exact absurd hsize (by decide)

end Address

end KernelLowering
