import KernelLowering.Proofs.Convergence.Cleanup
import KernelLowering.Proofs.Integrity.Moves

namespace KernelLowering

theorem Operation.mem_positionsOf {o : Operation} {v : ValueId} {i : Nat} :
    i ∈ o.positionsOf v ↔ o.operands[i]? = some v := by
  simp only [positionsOf, List.mem_map, List.mem_filter, decide_eq_true_eq, Prod.exists,
    List.mk_mem_zipIdx_iff_getElem?]
  exact ⟨fun ⟨w, _, ⟨hw, hv⟩, hi⟩ => hi ▸ hv ▸ hw, fun h => ⟨v, i, ⟨h, rfl⟩, rfl⟩⟩

namespace Function

variable {f g : Function} {c : Code} {k : Spine} {b x y z : Code} {hd h : Node} {u : OpId} {v : ValueId}
  {i : Nat} {σ : ValueId → ValueId}

theorem Represents.operandsOf_eq (hr : f.Represents c) (hh : h ∈ c.heads) :
    f.operandsOf h.op = h.operands := by
  obtain ⟨parent, region, hop⟩ := hr.exists_record hh
  simp [operandsOf, hop, Node.record]

theorem Represents.mem_uses (hr : f.Represents c) :
    (u, i) ∈ f.uses v ↔ ∃ h ∈ c.heads, h.op = u ∧ h.operands[i]? = some v := by
  rw [uses, hr.walk_eq, Code.ops_eq_map_heads, List.flatMap_map, List.mem_flatMap]
  refine exists_congr fun h => and_congr_right fun hh => ?_
  obtain ⟨parent, region, hop⟩ := hr.exists_record hh
  simp only [hop, List.mem_map, Operation.mem_positionsOf, Prod.mk.injEq, Node.record]
  constructor
  · rintro ⟨_, hi, hu, rfl⟩
    exact ⟨hu, hi⟩
  · rintro ⟨hu, hi⟩
    exact ⟨i, hi, hu, rfl⟩

theorem Represents.mem_around_iff (hr : f.Represents (k.plug (b ++ .node hd x z))) :
    h ∈ (k.plug (b ++ z)).heads ↔
      h ∈ (k.plug (b ++ .node hd x z)).heads ∧ h.op ∉ f.subtree hd.op := by
  have hperm : (k.plug (b ++ .node hd x z)).heads.Perm
      ((Code.node hd x .nil).heads ++ (k.plug (b ++ z)).heads) := by
    rw [List.perm_iff_count]
    intro h
    simp only [Spine.heads_plug_eq, Code.heads_append, Code.heads, List.append_nil, List.count_append,
      List.count_cons]
    omega
  have hnodup := hr.nodup
  rw [Code.ops_eq_map_heads, (hperm.map _).nodup_iff, List.map_append, List.nodup_append'] at hnodup
  have hsub : f.subtree hd.op = (Code.node hd x .nil).heads.map (·.op) := by
    rw [hr.subtree_eq, ← Code.ops_eq_map_heads, Code.ops, Code.ops, List.append_nil]
  rw [hsub, hperm.mem_iff, List.mem_append]
  constructor
  · exact fun hh => ⟨.inr hh, fun hin => hnodup.2.2 hin (List.mem_map_of_mem hh)⟩
  · rintro ⟨hh | hh, hout⟩
    · exact (hout (List.mem_map_of_mem hh)).elim
    · exact hh

theorem Represents.walk_splice (hr : f.Represents (k.plug (b ++ .node hd x z)))
    (hg : g.Represents ((k.rename σ).plug (b.rename σ ++ (y ++ z.rename σ)))) :
    ∃ before after, f.walk = before ++ (f.subtree hd.op ++ after) ∧
      g.walk = before ++ (y.ops ++ after) := by
  refine ⟨(k.before b).map (·.op), (k.behind z).map (·.op), ?_, ?_⟩
  · rw [hr.walk_eq, hr.subtree_eq, Code.ops_eq_map_heads, Spine.heads_at, Code.ops_eq_map_heads]
    simp
  · rw [hg.walk_eq, Code.ops_eq_map_heads, Spine.heads_splice, Code.ops_eq_map_heads]
    simp [Function.comp_def, Node.rename]

theorem Represents.mem_uses_splice (hr : f.Represents (k.plug (b ++ .node hd x z)))
    (hg : g.Represents ((k.rename σ).plug (b.rename σ ++ (y ++ z.rename σ))))
    (hy : ∀ h ∈ y.heads, h.operands = []) :
    (u, i) ∈ g.uses v ↔ u ∉ f.subtree hd.op ∧ ∃ w, σ w = v ∧ (u, i) ∈ f.uses w := by
  simp only [hg.mem_uses, hr.mem_uses]
  constructor
  · rintro ⟨h, hh, rfl, hi⟩
    rcases Spine.mem_heads_splice.1 hh with ⟨h', hh', rfl⟩ | hh
    · obtain ⟨hmem, hout⟩ := hr.mem_around_iff.1 hh'
      rw [Node.rename, List.getElem?_map, Option.map_eq_some_iff] at hi
      obtain ⟨w, hw, hi⟩ := hi
      exact ⟨hout, w, hi, h', hmem, rfl, hw⟩
    · rw [hy h hh] at hi
      cases hi
  · rintro ⟨hout, w, rfl, h, hh, rfl, hi⟩
    refine ⟨_, Spine.mem_heads_splice.2 (.inl ⟨h, hr.mem_around_iff.2 ⟨hh, hout⟩, rfl⟩), rfl, ?_⟩
    rw [Node.rename, List.getElem?_map, hi, Option.map_some]

theorem Represents.operandsOf_splice (hr : f.Represents (k.plug (b ++ .node hd x z)))
    (hg : g.Represents ((k.rename σ).plug (b.rename σ ++ (y ++ z.rename σ)))) (hu : u ∈ g.walk)
    (hout : u ∉ y.ops) : g.operandsOf u = (f.operandsOf u).map σ := by
  rw [hg.walk_eq, Code.ops_eq_map_heads] at hu
  obtain ⟨h, hh, rfl⟩ := List.mem_map.1 hu
  rw [hg.operandsOf_eq hh]
  rcases Spine.mem_heads_splice.1 hh with ⟨h', hh', rfl⟩ | hh
  · rw [Node.rename, hr.operandsOf_eq (hr.mem_around_iff.1 hh').1]
  · rw [Code.ops_eq_map_heads] at hout
    exact (hout (List.mem_map_of_mem hh)).elim

/-- An operation with all that it holds gives way to a new one, and two values to a new one. -/
structure Merges (f g : Function) (op made : OpId) (bytes tile new : ValueId) : Prop where
  fresh : f.op? made = none ∧ f.value? new = none
  walk : ∃ before after, f.walk = before ++ (f.subtree op ++ after) ∧ g.walk = before ++ made :: after
  operands : ∀ u ∈ g.walk, u ≠ made →
    g.operandsOf u = (f.operandsOf u).map fun v => if v = bytes ∨ v = tile then new else v
  uses : ∀ u i, (u, i) ∈ g.uses new ↔
    u ∉ f.subtree op ∧ ((u, i) ∈ f.uses bytes ∨ (u, i) ∈ f.uses tile ∨ (u, i) ∈ f.uses new)
  unused : g.uses bytes = [] ∧ g.uses tile = []

end Function

namespace Reallocation

variable {f g : Function} {k : Spine} {b x z : Code} {hd alloc : Node} {tile bytes new v w : ValueId}
  {t : ValueType} {type : BufferType} {space : MemorySpace} {op : OpId}

theorem merged_eq_ite : merged tile bytes new = fun v => if v = bytes ∨ v = tile then new else v := by
  funext v
  split
  · rename_i h
    rcases h with rfl | rfl
    · exact merged_bytes
    · exact merged_tile
  · rename_i h
    rw [not_or] at h
    exact merged_of_ne h.2 h.1

theorem merged_eq_new_iff : merged tile bytes new v = new ↔ v = bytes ∨ v = tile ∨ v = new := by
  simp only [merged_eq_ite]
  split <;> tauto

theorem merged_ne (hv : v = bytes ∨ v = tile) (hne : v ≠ new) : merged tile bytes new w ≠ v := by
  simp only [merged_eq_ite]
  split
  · exact Ne.symm hne
  · rintro rfl
    contradiction

theorem merges_of_splice (hr : f.Represents (k.plug (b ++ .node hd x z)))
    (halloc : alloc ∈ (k.plug (b ++ .node hd x z)).heads) (hbytes : alloc.result = some (bytes, t))
    (hres : hd.result = some (tile, .buffer type))
    (hsplice : Splice f g (k.rename (merged tile bytes new)) (b.rename (merged tile bytes new))
      (.node (made op new type space) .nil .nil) (z.rename (merged tile bytes new))) :
    f.Merges g hd.op op bytes tile new := by
  have hg := hsplice.represents
  have hnew := not_has_new hsplice
  have hop : f.ops.size ≤ op.index := hsplice.ops op List.mem_cons_self
  have hmade : ∀ h ∈ (Code.node (made op new type space) .nil .nil).heads, h.operands = [] :=
    fun h hh => by rw [List.mem_singleton.1 hh]; rfl
  have hunused : ∀ v, v = bytes ∨ v = tile → f.Has v → g.uses v = [] := by
    intro v hv hhas
    refine List.eq_nil_iff_forall_not_mem.2 fun ⟨u, i⟩ hu => ?_
    obtain ⟨-, w, hw, -⟩ := (hr.mem_uses_splice hg hmade).1 hu
    refine merged_ne hv ?_ hw
    rintro rfl
    exact hnew hhas
  refine ⟨⟨Array.getElem?_eq_none hop, Array.getElem?_eq_none (Nat.not_lt.1 hnew)⟩,
    hr.walk_splice hg, fun u hu hne => ?_, fun u i => ?_, hunused _ (.inl rfl) ?_,
    hunused _ (.inr rfl) ?_⟩
  · rw [← merged_eq_ite]
    exact hr.operandsOf_splice hg hu fun hin => hne (List.mem_singleton.1 hin)
  · rw [hr.mem_uses_splice hg hmade]
    simp only [merged_eq_new_iff, or_and_right, exists_or, exists_eq_left]
  · exact hr.has_defined halloc bytes (by simp [Node.defined, hbytes])
  · exact hr.has_defined (Spine.mem_heads_at k b x z hd) tile (by simp [Node.defined, hres])

theorem performAt_uses {f : Function} {op : OpId} {tile : ValueId} {type : BufferType}
    (space : MemorySpace) (hwf : f.WellFormed) (hlive : f.isLive op = .ok true)
    (hcheck : ((Rule.reallocation space).check f op).Answers ()) (htile : f.result op = .ok tile)
    (htype : f.bufferType? tile = .ok (some type)) :
    ∃ hd view alloc bytes t g op' new, f.code.Tile hd view alloc ∧ hd.op = op ∧
      alloc.result = some (bytes, t) ∧ (Rule.reallocation space).performAt f op = .ok g ∧
        g.WellFormed ∧ made op' new type space ∈ g.code.heads ∧
          f.Merges g op op' bytes tile new := by
  obtain ⟨k, b, hd, x, z, rfl, hc⟩ := hwf.exists_at hlive
  have hr : f.Represents (k.plug (b ++ .node hd x z)) := hc ▸ hwf
  have hat := Spine.mem_heads_at k b x z hd
  rw [Rule.check, check, Inspect.answers_discard] at hcheck
  obtain ⟨allocOp, hans⟩ := hcheck
  obtain ⟨view, alloc, ht, rfl⟩ := tile_of_allocationOf hr hans
  obtain ⟨t', hres⟩ := hr.result_of_eq_ok hat htile
  rw [hr.bufferType?_eq hat hres, Except.ok.injEq] at htype
  cases t' with
  | index => cases htype
  | buffer type' =>
    cases htype
    obtain ⟨below, -, hbelow⟩ := ht.view_on
    obtain ⟨⟨bytes, t⟩, hbytes, rfl⟩ := Option.map_eq_some_iff.1 hbelow
    obtain ⟨g, hg, op', new, hsplice⟩ := (yields_perform hr ht.alloc_mem hbytes hres hans).exists_of_not
    refine ⟨hd, view, alloc, bytes, t, g, op', new, hc ▸ ht, rfl, hbytes, hg,
      hsplice.represents.wellFormed, ?_, merges_of_splice hr ht.alloc_mem hbytes hres hsplice⟩
    rw [hsplice.represents.code_eq, Spine.mem_heads_splice]
    exact .inr List.mem_cons_self

def overlap : Function where
  name := "overlap"
  ops := #[⟨.alloc, [], some ⟨0⟩, none, [], [], none, true⟩,
    ⟨.view, [⟨0⟩], some ⟨1⟩, none, [], [], none, true⟩,
    ⟨.subView ⟨[.static 0], [4], [1]⟩, [⟨1⟩], some ⟨2⟩, none, [], [], none, true⟩,
    ⟨.forLoop ⟨0, 4, 1, Int.one_pos⟩, [], none, none, [⟨4⟩], [⟨3⟩], none, true⟩,
    ⟨.copy, [⟨2⟩, ⟨0⟩], none, none, [], [], some ⟨3⟩, true⟩,
    ⟨.dealloc, [⟨0⟩], none, none, [], [], none, true⟩]
  values := #[⟨.buffer (.rowMajor [32] .uint8 .global), .result ⟨0⟩⟩,
    ⟨.buffer (.rowMajor [8] .float32 .global), .result ⟨1⟩⟩,
    ⟨.buffer (.rowMajor [4] .float32 .global), .result ⟨2⟩⟩, ⟨.index, .inductionVar ⟨3⟩ 0⟩]
  arity := 0
  body := [⟨0⟩, ⟨1⟩, ⟨2⟩, ⟨3⟩, ⟨5⟩]

theorem performAt_uses_overlap : overlap.WellFormed ∧
    ((Rule.reallocation .l1).check overlap ⟨2⟩).Answers () ∧
      ∃ g op' new, (Rule.reallocation .l1).performAt overlap ⟨2⟩ = .ok g ∧
        overlap.Merges g ⟨2⟩ op' ⟨0⟩ ⟨2⟩ new ∧ (⟨4⟩, 0) ∈ g.uses new ∧ (⟨4⟩, 1) ∈ g.uses new := by
  have hwf : overlap.WellFormed := by decide +kernel
  have hcheck : ((Rule.reallocation .l1).check overlap ⟨2⟩).Answers () := rfl
  have hbytes : ∀ h ∈ overlap.code.heads, h.kind = .alloc → ∀ r ∈ h.result, r.1 = ⟨0⟩ := by
    decide +kernel
  have htaken : (⟨4⟩, 0) ∈ overlap.uses ⟨2⟩ ∧ (⟨4⟩, 1) ∈ overlap.uses ⟨0⟩ ∧ ⟨4⟩ ∉ overlap.subtree ⟨2⟩ := by
    decide +kernel
  obtain ⟨hd, view, alloc, bytes, t, g, op', new, ht, -, hres, hg, -, -, hmerges⟩ :=
    @performAt_uses overlap ⟨2⟩ ⟨2⟩ _ .l1 hwf rfl hcheck rfl rfl
  obtain rfl := hbytes alloc ht.alloc_mem ht.alloc_kind _ hres
  exact ⟨hwf, hcheck, g, op', new, hg, hmerges, (hmerges.uses _ _).2 ⟨htaken.2.2, .inr (.inl htaken.1)⟩,
    (hmerges.uses _ _).2 ⟨htaken.2.2, .inl htaken.2.1⟩⟩

def offsetTile : Function where
  name := "offset"
  ops := #[⟨.alloc, [], some ⟨0⟩, none, [], [], none, true⟩,
    ⟨.view, [⟨0⟩], some ⟨1⟩, none, [], [], none, true⟩,
    ⟨.subView ⟨[.dynamic], [4], [1]⟩, [⟨1⟩, ⟨0⟩], some ⟨2⟩, none, [], [], none, true⟩,
    ⟨.copy, [⟨2⟩, ⟨2⟩], none, none, [], [], none, true⟩]
  values := #[⟨.buffer (.rowMajor [16] .uint8 .global), .result ⟨0⟩⟩,
    ⟨.buffer (.rowMajor [8] .float32 .global), .result ⟨1⟩⟩,
    ⟨.buffer ⟨[4], .float32, .strided none [1], .global⟩, .result ⟨2⟩⟩]
  arity := 0
  body := [⟨0⟩, ⟨1⟩, ⟨2⟩, ⟨3⟩]

theorem not_uses_offsetTile : offsetTile.WellFormed ∧
    ((Rule.reallocation .l1).check offsetTile ⟨2⟩).Answers () ∧ (⟨2⟩, 1) ∈ offsetTile.uses ⟨0⟩ ∧
      ∃ g, (Rule.reallocation .l1).performAt offsetTile ⟨2⟩ = .ok g ∧
        g.definingOp? ⟨3⟩ = .ok (some ⟨4⟩) ∧ g.uses ⟨3⟩ = [(⟨1⟩, 0), (⟨3⟩, 0), (⟨3⟩, 1)] :=
  ⟨by decide +kernel, rfl, by decide +kernel, _, rfl, rfl, by decide +kernel⟩

end Reallocation

end KernelLowering
