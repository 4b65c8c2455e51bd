import KernelLowering.Proofs.Convergence.Replacements
import KernelLowering.Proofs.Convergence.Views

namespace KernelLowering

variable {f g : Function} {k : Spine} {b x z : Code} {hd : Node}

def ViewFolding.made (op : OpId) (w : Window) (offsets : List Offset) (source : ValueId)
    (supplied : List ValueId) (v : ValueId) (type : BufferType) : Node :=
  .value op (.subView (combined w offsets)) (source :: supplied) v (.buffer type)

inductive Function.Cleaned (f g : Function) (k : Spine) (b x z : Code) (hd : Node) :
    (ValueId → ValueId) → List Node → Prop
  | reallocated {tile bytes new : ValueId} {op : OpId} {type : BufferType} {space : MemorySpace}
      (hwindow : hd.kind.window?.isSome = true)
      (hreplaces : f.Replaces g k b x z (Reallocation.merged tile bytes new)
        [Reallocation.made op new type space]) :
      Cleaned f g k b x z hd (Reallocation.merged tile bytes new)
        [Reallocation.made op new type space]
  | folded {inner : Node} {w w' : Window} {u source r v : ValueId}
      {supplied supplied' vs : List ValueId} {below result : BufferType} {t : ValueType} {y : Code}
      {offsets : List Offset} {op : OpId}
      (hready : ViewFolding.Ready f (k.plug (b ++ .node hd x z)) hd inner w w' u source supplied
        supplied' below) (hres : hd.result = some (r, t))
      (hsums : ViewFolding.SummedAll
        ((Offset.supply w.offsets supplied).zip (Offset.supply w'.offsets supplied')) y offsets vs)
      (hreplaces : f.Replaces g k b x z (hd.redirect v)
        ((y.heads ++ [ViewFolding.made op w offsets source vs v result]).map
          (·.rename (hd.redirect v)))) :
      Cleaned f g k b x z hd (hd.redirect v)
        ((y.heads ++ [ViewFolding.made op w offsets source vs v result]).map
          (·.rename (hd.redirect v)))

namespace Function.Cleaned

variable {σ : ValueId → ValueId} {new : List Node} (hc : f.Cleaned g k b x z hd σ new)

include hc

theorem replaces : f.Replaces g k b x z σ new := by
  cases hc with
  | reallocated _ hreplaces => exact hreplaces
  | folded _ _ _ hreplaces => exact hreplaces

theorem moves (v : ValueId) : σ v = v ∨ ∃ n ∈ new, ∃ t, n.result = some (σ v, .buffer t) ∧
    n.kind.constant? = none := by
  cases hc with
  | @reallocated tile bytes new op type =>
    by_cases hsame : Reallocation.merged tile bytes new v = v
    · exact .inl hsame
    · exact .inr ⟨_, List.mem_singleton_self _, _, by rw [Reallocation.merged_of_moved hsame]; rfl, rfl⟩
  | folded =>
    refine (hd.redirect_cases _ v).imp_right fun hv => ?_
    rw [hv]
    exact ⟨_, List.mem_map_of_mem (List.mem_append_right _ (List.mem_singleton_self _)), _, rfl, rfl⟩

theorem sort?_of_moves (v : ValueId) : σ v = v ∨ g.sort? (σ v) = some .buffer := by
  refine (hc.moves v).imp_right ?_
  rintro ⟨n, hn, t, hres, -⟩
  exact Represents.sort?_result hc.replaces.wellFormed (hc.replaces.mem_new hn) hres

theorem respectsBuffers {f' : Function} (hgrows : f'.Grows g) : f'.RespectsBuffers g σ := by
  constructor <;> intro v hv <;> rcases hc.sort?_of_moves v with hsame | hbuffer
  · exact hsame.symm ▸ hgrows.has hv
  · exact has_of_sort? hbuffer
  · exact hsame.symm ▸ hgrows.sort? hv
  · exact hbuffer

variable (hhas : ∀ h ∈ (k.plug (b ++ .node hd x z)).heads, ∀ v ∈ h.operands, f.Has v)

include hhas

theorem made_new : ∀ h ∈ new, h.Made g ∧ h.kind.sorts?.isSome = true := by
  have hself := hc.respectsBuffers (Grows.refl g)
  cases hc with
  | reallocated => exact List.forall_mem_singleton.2 ⟨.ofAlloc, rfl⟩
  | @folded inner w w' u source r v supplied supplied' vs below result t y offsets op hready _ hsums
      hreplaces =>
    have hdefined : ∀ v ∈ y.defined, g.Has v := by
      intro v hv
      obtain ⟨n, hn, hv⟩ := List.mem_flatMap.1 hv
      exact Represents.has_of_mem hreplaces.wellFormed (List.mem_flatMap.2
        ⟨_, hreplaces.mem_new (List.mem_map_of_mem (List.mem_append_left _ hn)), hv⟩)
    have houter := hhas hd (Spine.mem_heads_at k b x z hd)
    have hinner := hhas inner (Code.of_definer? hready.definer).1
    obtain ⟨hy, hvs⟩ := hsums.made hdefined fun d hd' => by
      obtain ⟨hd₁, hd₂⟩ := List.of_mem_zip hd'
      rw [hready.operands, List.forall_mem_cons] at houter
      rw [hready.innerOperands, List.forall_mem_cons] at hinner
      exact ⟨fun u hu => hreplaces.grows.has (houter.2 u (Offset.mem_of_supplied (hu ▸ hd₁))),
        fun u hu => hreplaces.grows.has (hinner.2 u (Offset.mem_of_supplied (hu ▸ hd₂)))⟩
    rw [List.forall_mem_map, List.forall_mem_append, List.forall_mem_singleton]
    refine ⟨fun n hn => ⟨hself.made (hy n hn), ?_⟩, hself.made ?_, rfl⟩
    · rcases hsums.kind_eq n hn with hk | ⟨i, hk⟩ <;> simp [Node.rename, hk, OpKind.sorts?]
    · exact .ofSubView (hreplaces.grows.sort? (sort?_of_bufferType? hready.source)) hvs
        hsums.dynamicCount

theorem has : ∀ h ∈ g.code.heads, ∀ v ∈ h.operands, g.Has v := by
  intro h hh v hv
  rcases hc.replaces.cases hh with hnew | ⟨h₁, hh₁, rfl⟩
  · obtain ⟨hmade, hsorts⟩ := hc.made_new hhas h hnew
    obtain ⟨io, hio⟩ := Option.isSome_iff_exists.1 hsorts
    exact (hmade io hio).2.1 v hv
  · obtain ⟨u, hu, rfl⟩ := List.mem_map.1 hv
    exact (hc.respectsBuffers hc.replaces.grows).has u
      (hhas h₁ (Spine.mem_heads_iff.2 (hh₁.imp_right .inr)) u hu)

theorem made (hmade : ∀ h ∈ (k.plug (b ++ .node hd x z)).heads, h.Made f) :
    ∀ h ∈ g.code.heads, h.Made g := by
  intro h hh
  rcases hc.replaces.cases hh with hnew | ⟨h₁, hh₁, rfl⟩
  · exact (hc.made_new hhas h hnew).1
  · exact (hc.respectsBuffers hc.replaces.grows).made
      (hmade h₁ (Spine.mem_heads_iff.2 (hh₁.imp_right .inr)))

end Function.Cleaned

theorem Function.Represents.result_of_eq_ok {c : Code} {h : Node} {v : ValueId} (hr : f.Represents c)
    (hh : h ∈ c.heads) (hres : f.result h.op = .ok v) : ∃ t, h.result = some (v, t) := by
  obtain ⟨parent, region, hop⟩ := hr.exists_record hh
  simp only [Function.result, op_eq_ok.2 hop, Fault.ok_bind, Node.record, Fault.require_eq_ok,
    Option.map_eq_some_iff] at hres
  obtain ⟨⟨_, t⟩, hres, rfl⟩ := hres
  exact ⟨t, hres⟩

namespace ViewFolding

theorem splice_of_answers (hr : f.Represents (k.plug (b ++ .node hd x z)))
    (h : (Rule.viewFolding.apply f hd.op).Answers g) :
    ∃ (inner : Node) (w w' : Window) (u source r v : ValueId) (supplied supplied' vs : List ValueId)
      (below result : BufferType) (t : ValueType) (y : Code) (offsets : List Offset) (op : OpId),
      Ready f (k.plug (b ++ .node hd x z)) hd inner w w' u source supplied supplied' below ∧
        hd.result = some (r, t) ∧
          SummedAll ((Offset.supply w.offsets supplied).zip (Offset.supply w'.offsets supplied')) y
            offsets vs ∧
            Splice f g (k.rename (hd.redirect v)) (b.rename (hd.redirect v))
              ((y ++ .node (made op w offsets source vs v result) .nil .nil).rename (hd.redirect v))
              (z.rename (hd.redirect v)) := by
  rw [Rule.apply, Inspect.answers_bind] at h
  obtain ⟨⟨⟩, hcheck, hperform⟩ := h
  rw [Inspect.answers_lift] at hperform
  obtain ⟨inner, w, w', u, source, supplied, supplied', below, hready⟩ := ready_of_ok hr hperform
  obtain ⟨y, offsets, vs, op, v, result, hsums, -, hsplice⟩ := (yields_perform hr hready).of_ok hperform
  obtain ⟨r, hres⟩ : ∃ r, f.result hd.op = .ok r := by
    simp only [Rule.check, check_eq_compare, Inspect.answers_bind, Inspect.answers_lift] at hcheck
    obtain ⟨-, -, -, -, -, -, -, -, -, -, -, -, -, -, r, hres, -⟩ := hcheck
    exact ⟨r, hres⟩
  obtain ⟨t, hres⟩ := hr.result_of_eq_ok (Spine.mem_heads_at k b x z hd) hres
  exact ⟨inner, w, w', u, source, r, v, supplied, supplied', vs, below, result, t, y, offsets, op, hready,
    hres, hsums, hsplice⟩

theorem cleaned_of_answers (hr : f.Represents (k.plug (b ++ .node hd x z)))
    (h : (Rule.viewFolding.apply f hd.op).Answers g) : ∃ σ new, f.Cleaned g k b x z hd σ new := by
  obtain ⟨inner, w, w', u, source, r, v, supplied, supplied', vs, below, result, t, y, offsets, op,
    hready, hres, hsums, hsplice⟩ := splice_of_answers hr h
  have hreplaces := hsplice.replaces (x := x)
  simp only [Code.heads_rename, Code.heads_append, Code.heads, List.append_nil] at hreplaces
  exact ⟨_, _, .folded hready hres hsums hreplaces⟩

end ViewFolding

namespace Reallocation

theorem definingOpOfKind_eq_some {c : Code} {kind : OpKind} {v : ValueId} {op : OpId}
    (hr : f.Represents c) (h : definingOpOfKind f v kind = .ok (some op)) :
    ∃ n ∈ c.heads, n.op = op ∧ n.kind = kind ∧ n.result.map (·.1) = some v := by
  have hhas : f.Has v := by
    obtain ⟨o, ho, -⟩ := Fault.bind_eq_ok.1 h
    exact Function.has_of_definingOp? ho
  exact (yields_definingOpOfKind hr hhas).of_ok h op rfl

theorem tile_of_allocationOf {op : OpId} (hr : f.Represents (k.plug (b ++ .node hd x z)))
    (h : (allocationOf f hd.op).Answers op) :
    ∃ view alloc, (k.plug (b ++ .node hd x z)).Tile hd view alloc ∧ alloc.op = op := by
  simp only [allocationOf, Inspect.answers_bind, Inspect.answers_lift, hr.record_at, Except.ok.injEq,
    exists_eq_left', Inspect.answers_discard, Operation.window, Operation.operand,
    Inspect.answers_orDecline, Fault.require_eq_ok, Node.record] at h
  obtain ⟨⟨⟩, ⟨w, hw⟩, shown, hshown, _, hview, viewOp, rfl, o, ho, below, hbelow, _, halloc, rfl⟩ := h
  obtain ⟨view, hmem, rfl, hkind, hresult⟩ := definingOpOfKind_eq_some hr hview
  obtain ⟨alloc, hmem', rfl, hkind', hresult'⟩ := definingOpOfKind_eq_some hr halloc
  obtain ⟨parent, region, hrecord⟩ := hr.exists_record hmem
  obtain rfl := Option.some.inj ((Function.op_eq_ok.1 ho).symm.trans hrecord)
  have hat := Spine.mem_heads_at k b x z hd
  exact ⟨view, alloc, ⟨hat, hmem, hmem', Option.isSome_iff_exists.2 ⟨w, hw⟩, hkind, hkind',
    ⟨shown, by rwa [List.head?_eq_getElem?], hresult⟩,
    ⟨below, by rwa [List.head?_eq_getElem?], hresult'⟩⟩, rfl⟩

theorem splice_of_answers {space : MemorySpace} (hr : f.Represents (k.plug (b ++ .node hd x z)))
    (h : ((Rule.reallocation space).apply f hd.op).Answers g) :
    ∃ (view alloc : Node) (tile bytes new : ValueId) (type : BufferType) (t : ValueType) (op : OpId),
      (k.plug (b ++ .node hd x z)).Tile hd view alloc ∧ hd.result = some (tile, .buffer type) ∧
        alloc.result = some (bytes, t) ∧
          Splice f g (k.rename (merged tile bytes new)) (b.rename (merged tile bytes new))
            (.node (made op new type space) .nil .nil) (z.rename (merged tile bytes new)) := by
  rw [Rule.apply, Inspect.answers_bind] at h
  obtain ⟨⟨⟩, -, hperform⟩ := h
  rw [Inspect.answers_lift] at hperform
  have hat := Spine.mem_heads_at k b x z hd
  obtain ⟨out, hrun, -⟩ := Fault.map_eq_ok.1 hperform
  obtain ⟨⟨out, s⟩, hrun, -⟩ := Fault.bind_eq_ok.1 hrun
  simp only [Rule.perform, perform, Build.run_bind_eq_ok, Build.run_lift_eq_ok,
    Build.run_function_eq_ok, existsAndEq, true_and, Inspect.relyOn_eq_ok, Fault.require_eq_ok] at hrun
  obtain ⟨op, ⟨hans, -⟩, bytes, ⟨hbytes, -⟩, tile, ⟨htile, -⟩, type, ⟨htype, -⟩, -⟩ := hrun
  obtain ⟨view, alloc, ht, rfl⟩ := tile_of_allocationOf hr hans
  obtain ⟨t, hbytes⟩ := hr.result_of_eq_ok ht.alloc_mem hbytes
  obtain ⟨t', htile⟩ := hr.result_of_eq_ok hat htile
  rw [hr.bufferType?_eq hat htile, Except.ok.injEq] at htype
  cases t' with
  | index => cases htype
  | buffer type' =>
    cases htype
    obtain ⟨op, new, hsplice⟩ :=
      (yields_perform (p := True) hr ht.alloc_mem hbytes htile hans).of_ok hperform
    exact ⟨view, alloc, tile, bytes, new, type, t, op, ht, htile, hbytes, hsplice⟩

theorem cleaned_of_answers {space : MemorySpace} (hr : f.Represents (k.plug (b ++ .node hd x z)))
    (h : ((Rule.reallocation space).apply f hd.op).Answers g) :
    ∃ σ new, f.Cleaned g k b x z hd σ new := by
  obtain ⟨view, alloc, tile, bytes, new, type, t, op, ht, -, -, hsplice⟩ := splice_of_answers hr h
  exact ⟨_, _, .reallocated ht.tile_kind hsplice.replaces⟩

end Reallocation

theorem Rule.cleaned_of_answers {rule : Rule} (hrule : rule ∈ Rule.viewCleanup)
    (hr : f.Represents (k.plug (b ++ .node hd x z))) (h : (rule.apply f hd.op).Answers g) :
    ∃ σ new, f.Cleaned g k b x z hd σ new := by
  simp only [Rule.viewCleanup, List.mem_cons, List.not_mem_nil, or_false] at hrule
  rcases hrule with rfl | rfl
  · exact Reallocation.cleaned_of_answers hr h
  · exact ViewFolding.cleaned_of_answers hr h

theorem Rule.gives_of_made {rule : Rule} (hrule : rule ∈ Rule.viewCleanup)
    (hr : f.Represents (k.plug (b ++ .node hd x z)))
    (hmade : ∀ h ∈ (k.plug (b ++ .node hd x z)).heads, h.Made f) :
    (rule.apply f hd.op).Gives True fun _ => True := by
  simp only [Rule.viewCleanup, List.mem_cons, List.not_mem_nil, or_false] at hrule
  rcases hrule with rfl | rfl
  · exact (Reallocation.gives_splice hr hmade).mono fun _ _ _ => trivial
  · exact (ViewFolding.gives_splice hr hmade).mono fun _ _ _ => trivial

end KernelLowering
