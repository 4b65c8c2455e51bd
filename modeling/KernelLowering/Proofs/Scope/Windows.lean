import KernelLowering.Proofs.Address.Separation

namespace KernelLowering

def OpKind.isActor : OpKind → Bool
  | copy | kernel _ | call _ => true
  | _ => false

def Code.actors (x : Code) : List Node := x.heads.filter (·.kind.isActor)

def Node.Cut (f : Function) (h : Node) : Prop :=
  ∀ w ∈ h.kind.window?, ∀ source ∈ h.operands.head?, ∀ r ∈ h.result, ∀ type ∈ r.2.buffer?,
    ∀ below ∈ (f.bufferType? source).toOption.join, type.shape = w.sizes ∧ type.element = below.element

instance (f : Function) (h : Node) : Decidable (h.Cut f) := by unfold Node.Cut; infer_instance

namespace Function

def Cut (f : Function) : Prop := ∀ h ∈ f.code.heads, h.Cut f

instance (f : Function) : Decidable f.Cut :=
  inferInstanceAs (Decidable (∀ h ∈ f.code.heads, h.Cut f))

def Keeps (f g : Function) (v v' : ValueId) : Prop :=
  ∀ type, f.bufferType? v = .ok (some type) → ∃ type', g.bufferType? v' = .ok (some type') ∧
    type'.shape = type.shape ∧ type'.element = type.element

def ActsOn (f : Function) (v : ValueId) : Prop := ∃ h ∈ f.code.actors, v ∈ h.operands

/-- The copies, kernels and calls are the same under new names for what they take. The names tell apart
what has been apart and stand for buffers of the same shapes and elements; and what has stood for
different elements, or for elements of different buffers, does so again. -/
structure Traced (f g : Function) (σ : ValueId → ValueId) : Prop where
  actors : g.code.actors = f.code.actors.map (·.rename σ)
  apart : ∀ v v', f.ActsOn v → f.ActsOn v' → σ v = σ v' → v = v'
  keeps : ∀ v, f.ActsOn v → f.Keeps g v (σ v)
  readable : ∀ bindings, f.Readable bindings → g.Readable bindings
  separates : ∀ bindings, f.Readable bindings → ∀ v v', f.ActsOn v → f.ActsOn v' →
    f.Separates bindings v v' → g.Separates bindings (σ v) (σ v')

namespace Traced

variable {f g g' : Function} {σ τ : ValueId → ValueId}

theorem refl (f : Function) : f.Traced f id :=
  ⟨by simp, fun _ _ _ _ h => h, fun _ _ type h => ⟨type, h, rfl, rfl⟩, fun _ => id,
    fun _ _ _ _ _ _ => id⟩

theorem actsOn (h : f.Traced g σ) {v : ValueId} (hv : f.ActsOn v) : g.ActsOn (σ v) := by
  obtain ⟨hd, hh, hv⟩ := hv
  rw [ActsOn, h.actors]
  exact ⟨_, List.mem_map_of_mem hh, List.mem_map_of_mem hv⟩

theorem trans (h : f.Traced g σ) (h' : g.Traced g' τ) : f.Traced g' (τ ∘ σ) where
  actors := by
    rw [h'.actors, h.actors, List.map_map]
    exact List.map_congr_left fun hd _ => hd.rename_rename σ τ
  apart v v' hv hv' he := h.apart v v' hv hv' (h'.apart _ _ (h.actsOn hv) (h.actsOn hv') he)
  keeps v hv type htype := by
    obtain ⟨type₁, htype₁, hshape₁, helement₁⟩ := h.keeps v hv type htype
    obtain ⟨type₂, htype₂, hshape₂, helement₂⟩ := h'.keeps _ (h.actsOn hv) type₁ htype₁
    exact ⟨type₂, htype₂, hshape₂.trans hshape₁, helement₂.trans helement₁⟩
  readable bindings hf := h'.readable bindings (h.readable bindings hf)
  separates bindings hf v v' hv hv' ha :=
    h'.separates bindings (h.readable bindings hf) _ _ (h.actsOn hv) (h.actsOn hv')
      (h.separates bindings hf v v' hv hv' ha)

end Traced

end Function

namespace Code

@[simp] theorem actors_append (x y : Code) : (x ++ y).actors = x.actors ++ y.actors := by
  rw [actors, heads_append, List.filter_append, actors, actors]

theorem actors_node (h : Node) (x y : Code) :
    (node h x y).actors = (if h.kind.isActor then [h] else []) ++ (x.actors ++ y.actors) := by
  rw [actors, heads, List.filter_cons, List.filter_append, actors, actors]
  split <;> rfl

@[simp] theorem actors_rename (σ : ValueId → ValueId) (x : Code) :
    (x.rename σ).actors = x.actors.map (·.rename σ) := by
  rw [actors, heads_rename, List.filter_map]
  rfl

end Code

theorem Spine.actors_plug {k : Spine} {x y : Code} {σ : ValueId → ValueId}
    (h : y.actors = x.actors.map (·.rename σ)) :
    ((k.rename σ).plug y).actors = (k.plug x).actors.map (·.rename σ) := by
  induction k generalizing x y with
  | body => exact h
  | inside hd b a k ih =>
    refine ih ?_
    have hhead : ((if (hd.rename σ).kind.isActor then [hd.rename σ] else []) : List Node) =
        (if hd.kind.isActor then [hd] else []).map (·.rename σ) := by
      rw [show (hd.rename σ).kind = hd.kind from rfl]
      split <;> rfl
    simp only [Code.actors_append, Code.actors_node, Code.actors_rename, hhead, h, List.map_append]

section Splice

variable {f g : Function} {k : Spine} {b x y z : Code} {hd : Node} {σ : ValueId → ValueId}

theorem Spine.actors_splice (hhd : hd.kind.isActor = false) (hx : x.actors = [])
    (hy : y.actors = []) : ((k.rename σ).plug (b.rename σ ++ (y ++ z.rename σ))).actors =
      (k.plug (b ++ .node hd x z)).actors.map (·.rename σ) := by
  refine actors_plug ?_
  simp [Code.actors_node, hhd, hx, hy]

namespace Function

theorem Represents.actsOn_iff {c : Code} (hr : f.Represents c) {v : ValueId} :
    f.ActsOn v ↔ ∃ h ∈ c.heads, h.kind.isActor = true ∧ v ∈ h.operands := by
  simp only [ActsOn, hr.code_eq, Code.actors, List.mem_filter, and_assoc]

theorem Represents.cut_iff {c : Code} (hr : f.Represents c) : f.Cut ↔ ∀ h ∈ c.heads, h.Cut f := by
  rw [Cut, hr.code_eq]

theorem Keeps.cut {h : Node} (hk : ∀ w ∈ h.kind.window?, ∀ source ∈ h.operands.head?,
    f.Keeps g source (σ source)) (hs : h.Sorted f) (hc : h.Cut f) : (h.rename σ).Cut g := by
  intro w hw source hsource r hr type htype below hbelow
  simp only [Node.rename, List.head?_map, Option.mem_def, Option.map_eq_some_iff] at hsource
  obtain ⟨source, hsource, rfl⟩ := hsource
  obtain ⟨source', supplied, -, -, hops, hsort, -⟩ := hs.of_subView (OpKind.window?_eq_some.1 hw)
  obtain rfl : source' = source := by simpa [hops] using hsource
  obtain ⟨below', hbelow'⟩ := bufferType_of_sort? hsort
  obtain ⟨type', htype', -, helement⟩ := hk w hw source' hsource below' hbelow'
  obtain rfl : type' = below := by simpa [htype', Except.toOption] using hbelow
  obtain ⟨hshape, helement'⟩ := hc w hw source' hsource r hr type htype below'
    (by simp [hbelow', Except.toOption])
  exact ⟨hshape, helement'.trans helement.symm⟩

theorem Grows.keeps (hg : f.Grows g) (v : ValueId) : f.Keeps g v v := fun type htype =>
  ⟨type, hg.bufferType? htype, rfl, rfl⟩

variable (hr : f.Represents (k.plug (b ++ .node hd x z)))
  (hsplice : KernelLowering.Splice f g (k.rename σ) (b.rename σ) y (z.rename σ))

include hr hsplice

theorem Represents.cut_splice (hs : f.Sorted) (hc : f.Cut)
    (hkeeps : ∀ h ∈ (k.plug (b ++ .node hd x z)).heads, ∀ w ∈ h.kind.window?,
      ∀ source ∈ h.operands.head?, f.Keeps g source (σ source))
    (hy : ∀ h ∈ y.heads, h.Cut g) : g.Cut := by
  refine hsplice.represents.cut_iff.2 fun h hh => ?_
  rcases Spine.mem_heads_splice.1 hh with ⟨h', hh', rfl⟩ | hnew
  · have hmem := Spine.mem_heads_around hh' hd x
    exact Keeps.cut (hkeeps h' hmem) (hr.sorted_iff.1 hs h' hmem) (hr.cut_iff.1 hc h' hmem)
  · exact hy h hnew

theorem Represents.actors_eq (hhd : hd.kind.isActor = false) (hx : x.actors = [])
    (hy : y.actors = []) : g.code.actors = f.code.actors.map (·.rename σ) := by
  rw [hsplice.represents.code_eq, hr.code_eq]
  exact Spine.actors_splice hhd hx hy

end Function

end Splice

variable {f g : Function} {k : Spine} {b x z : Code} {hd : Node}

theorem Node.redirect_inj {v v' w : ValueId} (hw : ¬ f.Has w) (hv : f.Has v) (hv' : f.Has v')
    (he : hd.redirect w v = hd.redirect w v') : v = v' := by
  unfold redirect at he
  cases hres : hd.result with
  | none => simpa [hres] using he
  | some r =>
    simp only [hres, Function.swapped] at he
    split at he <;> split at he <;> rename_i h₁ h₂
    · rw [h₁, h₂]
    · exact absurd (he ▸ hv') hw
    · exact absurd (he ▸ hv) hw
    · exact he

theorem OpKind.isActor_of_isPure {kind : OpKind} (h : kind.isPure = true) : kind.isActor = false := by
  cases kind <;> first | rfl | cases h

namespace Function.Settling

theorem has_of_actsOn (h : f.Settling) {v : ValueId} (hv : f.ActsOn v) : f.Has v := by
  obtain ⟨hd, hh, hkind, hv⟩ := h.wellFormed.actsOn_iff.1 hv
  obtain ⟨l, hl, hsub⟩ := h.placed.of_mem hh
  have hbusy : ¬ hd.Idle f.code := fun hidle => by simp [hidle.1, OpKind.isActor] at hkind
  rcases List.mem_append.1 (hsub (hl.1 hbusy v hv)) with hdef | harg
  · exact h.wellFormed.has_of_mem hdef
  · obtain ⟨t, ht⟩ := h.wellFormed.argument (mem_arguments.1 harg)
    exact (Array.getElem?_eq_some_iff.1 ht).1

theorem body_eq_nil (h : f.Settling) (hr : f.Represents (k.plug (b ++ .node hd x z)))
    (hkind : hd.kind.isPure = true) : x = .nil :=
  Spine.body_eq_nil (h.represented hr).1 (OpKind.isLoop_of_isPure hkind)

theorem traced_shed (h : f.Settling) (hc : f.Cut) (hs : f.Sheds g k b x z hd) :
    g.Cut ∧ f.Traced g id := by
  have hkeeps := hs.same.grows.keeps
  have hout : ∀ v, f.ActsOn v → v ∉ hd.defined := by
    rintro v hv hdef
    obtain ⟨h', hh', -, hv⟩ := hs.before.actsOn_iff.1 hv
    exact hs.unused v hdef h' hh' hv
  refine ⟨hs.after.cut_iff.2 fun h' hh' => ?_, ?_, fun _ _ _ _ he => he, fun v _ => hkeeps v,
    fun _ => hs.readable, fun _ hf v v' hv hv' ha => ha.of_found
      (fun _ => hs.found_addressed hf (hout v hv)) fun _ => hs.found_addressed hf (hout v' hv')⟩
  · have hmem := Spine.mem_heads_around hh' hd x
    rw [← h'.rename_id]
    exact Keeps.cut (fun _ _ source _ => hkeeps source) (hs.before.sorted_iff.1 h.sorted h' hmem)
      (hs.before.cut_iff.1 hc h' hmem)
  · have hactors := Spine.actors_splice (σ := id) (k := k) (b := b) (x := x) (z := z) (y := .nil)
      (OpKind.isActor_of_isPure hs.pure) (by rw [h.body_eq_nil hs.before hs.pure]; rfl) rfl
    simpa [hs.before.code_eq, hs.after.code_eq] using hactors

end Function.Settling

theorem ViewFolding.Ready.sameType {inner : Node} {w w' : Window} {u source r : ValueId}
    {supplied supplied' : List ValueId} {type t : BufferType}
    (hready : Ready f (k.plug (b ++ .node hd x z)) hd inner w w' u source supplied supplied' type)
    (hr : f.Represents (k.plug (b ++ .node hd x z))) (hs : f.Sorted) (hc : f.Cut)
    (hres : hd.result = some (r, .buffer t)) : t.shape = w.sizes ∧ t.element = type.element := by
  obtain ⟨hinner, t', hres'⟩ := Code.of_definer? hready.definer
  obtain ⟨-, -, v, below, -, -, -, -, hbuffer⟩ :=
    (hr.sorted_iff.1 hs inner hinner).of_subView hready.innerKind
  obtain ⟨rfl, rfl⟩ : u = v ∧ t' = .buffer below := by simpa [hbuffer, eq_comm] using hres'
  have hbelow : (f.bufferType? u).toOption.join = some below := by
    rw [hr.bufferType?_eq hinner hres']
    rfl
  have hcut := hr.cut_iff.1 hc
  obtain ⟨hshape, helement⟩ := hcut hd (Spine.mem_heads_at k b x z hd) w (by simp [hready.kind, OpKind.window?])
    u (by simp [hready.operands]) _ hres t rfl below hbelow
  obtain ⟨-, helement'⟩ := hcut inner hinner w' (by simp [hready.innerKind, OpKind.window?]) source
    (by simp [hready.innerOperands]) _ hres' below rfl type (by simp [hready.source, Except.toOption])
  exact ⟨hshape, helement.trans helement'⟩

theorem ViewFolding.keeps_redirect {inner : Node} {w w' : Window} {u source v : ValueId}
    {supplied supplied' vs : List ValueId} {type result : BufferType} {offsets : List Offset} {y : Code}
    {op : OpId} (hready : Ready f (k.plug (b ++ .node hd x z)) hd inner w w' u source supplied supplied' type)
    (hr : f.Represents (k.plug (b ++ .node hd x z))) (hs : f.Sorted) (hc : f.Cut)
    (hresult : (combined w offsets).resultType type = .ok result)
    (hsplice : Splice f g (k.rename (hd.redirect v)) (b.rename (hd.redirect v))
      (.rename (hd.redirect v) (y ++ .node (.value op (.subView (combined w offsets)) (source :: vs) v
        (.buffer result)) .nil .nil)) (z.rename (hd.redirect v))) (u' : ValueId) :
    f.Keeps g u' (hd.redirect v u') := by
  have hat := Spine.mem_heads_at k b x z hd
  obtain ⟨-, -, r, t, -, -, -, -, hres⟩ := (hr.sorted_at hs).of_subView hready.kind
  by_cases hu : u' = r
  · -- The new view is a buffer like the outer one, whose elements are those of the inner one's source.
    intro type' htype'
    obtain ⟨hshape, helement⟩ := Window.of_resultType hresult
    obtain ⟨hshape', helement'⟩ := hready.sameType hr hs hc hres
    have hmade : (Node.value op (.subView (combined w offsets)) (source :: vs) v (.buffer result)).rename
        (hd.redirect v) ∈ g.code.heads := by
      rw [hsplice.represents.code_eq]
      simp [Spine.mem_heads_plug, Code.heads, Code.rename]
    have hnew : g.bufferType? v = .ok (some result) :=
      hsplice.represents.wellFormed.bufferType?_eq hmade rfl
    subst hu
    rw [hr.bufferType?_eq hat hres] at htype'
    cases htype'
    rw [hd.redirect_of_result hres, Function.swapped_self]
    exact ⟨result, hnew, hshape.trans hshape'.symm, helement.trans helement'.symm⟩
  · rw [hd.redirect_of_result hres, Function.swapped_of_ne hu]
    exact hsplice.grows.keeps u'

theorem ViewFolding.gives_traced (h : f.Settling) (hc : f.Cut)
    (hr : f.Represents (k.plug (b ++ .node hd x z))) :
    (Rule.viewFolding.apply f hd.op).Gives True fun g => g.Cut ∧ ∃ σ, f.Traced g σ := by
  refine (gives_splice hr (h.sorted.made hr)).mono ?_
  rintro g - ⟨inner, w, w', u, source, supplied, supplied', type, y, offsets, vs, op, v, result,
    hready, hdense, hsums, hresult, hsplice⟩
  have hpure : hd.kind.isPure = true := by rw [hready.kind]; rfl
  have hkeeps := keeps_redirect hready hr h.sorted hc hresult hsplice
  have hfresh : ¬ f.Has v := Nat.not_lt.2 (hsplice.size_le (v := v) (by
    rw [Code.defined_rename]
    simp [Node.value, Node.defined]))
  refine ⟨hr.cut_splice hsplice h.sorted hc (fun _ _ _ _ source _ => hkeeps source) fun h' hh' => ?_,
    hd.redirect v, hr.actors_eq hsplice (OpKind.isActor_of_isPure hpure)
      (by rw [h.body_eq_nil hr hpure]; rfl) (List.filter_eq_nil_iff.2 fun h' hh' => ?_),
    fun v₁ v₂ hv₁ hv₂ he =>
      Node.redirect_inj hfresh (h.has_of_actsOn hv₁) (h.has_of_actsOn hv₂) he, fun v' _ => hkeeps v',
    fun _ hf => readable hr hf hready hdense hsums hsplice, fun _ hf _ _ _ _ ha =>
      ha.of_found (fun _ => found_addressed hr hf hready hdense hsums hsplice)
        fun _ => found_addressed hr hf hready hdense hsums hsplice⟩
  · rcases hsums.kinds hh' with (hk | ⟨n, hk⟩) | rfl
    · simp [Node.Cut, hk, OpKind.window?]
    · simp [Node.Cut, hk, OpKind.window?]
    · rintro _ ⟨⟩ _ ⟨⟩ _ ⟨⟩ _ ⟨⟩ below hbelow
      obtain ⟨hshape, helement⟩ := Window.of_resultType hresult
      obtain ⟨type', htype', -, helement'⟩ := hkeeps source type hready.source
      obtain rfl : type' = below := by simpa [htype', Except.toOption] using hbelow
      exact ⟨hshape, helement.trans helement'.symm⟩
  · rcases hsums.kinds hh' with (hk | ⟨n, hk⟩) | rfl
    · simp [hk, OpKind.isActor]
    · simp [hk, OpKind.isActor]
    · simp [Node.rename, Node.value, OpKind.isActor]

namespace Reallocation

variable {view alloc : Node} {tile bytes new v v' : ValueId} {type type' : BufferType}
  {space : MemorySpace} {op : OpId}

theorem merged_inj (hv : v ≠ bytes) (hv' : v' ≠ bytes) (hne : v ≠ new) (hne' : v' ≠ new)
    (he : merged tile bytes new v = merged tile bytes new v') : v = v' := by
  by_cases hvt : v = tile <;> by_cases hvt' : v' = tile
  · rw [hvt, hvt']
  · rw [hvt, merged_tile, merged_of_ne hvt' hv'] at he
    exact absurd he.symm hne'
  · rw [hvt', merged_tile, merged_of_ne hvt hv] at he
    exact absurd he hne
  · rwa [merged_of_ne hvt hv, merged_of_ne hvt' hv'] at he

section Tile

variable (hr : f.Represents (k.plug (b ++ .node hd x z)))
  (ht : (k.plug (b ++ .node hd x z)).Tile hd view alloc)
  (hres : hd.result = some (tile, .buffer type)) (hbytes : alloc.result = some (bytes, .buffer type'))

include hr ht

include hbytes in
theorem ne_of_actsOn (ho : (k.plug (b ++ .node hd x z)).Owned) (hv : f.ActsOn v) : v ≠ bytes := by
  rintro rfl
  obtain ⟨h, hh, hkind, hv⟩ := hr.actsOn_iff.1 hv
  rcases ho.freed ht h hh ⟨v, hv, by simp [Node.defined, hbytes]⟩ with rfl | hdealloc
  · simp [ht.view_kind, OpKind.isActor] at hkind
  · simp [hdealloc, OpKind.isActor] at hkind

include hres

theorem keeps_merged
    (hsplice : Splice f g (k.rename (merged tile bytes new)) (b.rename (merged tile bytes new))
      (.node (made op new type space) .nil .nil) (z.rename (merged tile bytes new))) (hv : v ≠ bytes) :
    f.Keeps g v (merged tile bytes new v) := by
  by_cases hvt : v = tile
  · intro type₁ htype₁
    have hmade : made op new type space ∈ g.code.heads := by
      rw [hsplice.represents.code_eq]
      simp [Spine.mem_heads_plug, Code.heads]
    have hnew : g.bufferType? new = .ok (some (.rowMajor type.shape type.element space)) :=
      hsplice.represents.wellFormed.bufferType?_eq hmade rfl
    subst hvt
    rw [hr.bufferType?_eq ht.tile_mem hres] at htype₁
    cases htype₁
    exact ⟨.rowMajor type.shape type.element space, by rwa [merged_tile], rfl, rfl⟩
  · rw [merged_of_ne hvt hv]
    exact hsplice.grows.keeps v

theorem shape_eq (hs : f.Sorted) (hc : f.Cut) {w : Window} (hkind : hd.kind = .subView w) :
    type.shape = w.sizes := by
  obtain ⟨source, _, _, _, hops, hsource, -⟩ := (hr.sorted_at hs).of_subView hkind
  obtain ⟨below, hbelow⟩ := Function.bufferType_of_sort? hsource
  exact (hr.cut_iff.1 hc hd ht.tile_mem w (by simp [hkind, OpKind.window?]) source (by simp [hops])
    _ hres type rfl below (by simp [hbelow, Except.toOption])).1

end Tile

theorem gives_traced (h : f.Settling) (hc : f.Cut) (hr : f.Represents (k.plug (b ++ .node hd x z))) :
    ((Rule.reallocation space).apply f hd.op).Gives True fun g => g.Cut ∧ ∃ σ, f.Traced g σ := by
  refine (gives_splice hr (h.sorted.made hr)).mono ?_
  rintro g - ⟨view, alloc, tile, bytes, type, type', op, new, ht, hres, hbytes, hsplice⟩
  obtain ⟨-, howned, -⟩ := h.represented hr
  obtain ⟨w, hw⟩ := Option.isSome_iff_exists.1 ht.tile_kind
  have hpure : hd.kind.isPure = true := by rw [OpKind.window?_eq_some.1 hw]; rfl
  have hacts : ∀ {v}, f.ActsOn v → v ≠ bytes := ne_of_actsOn hr ht hbytes howned
  have hold : ∀ {v}, f.ActsOn v → v ≠ new := by
    rintro v hv rfl
    exact not_has_new hsplice (h.has_of_actsOn hv)
  have hkeeps : ∀ v, v ≠ bytes → f.Keeps g v (merged tile bytes new v) := fun _ =>
    keeps_merged hr ht hres hsplice
  refine ⟨hr.cut_splice hsplice h.sorted hc (fun h₁ hmem w hw source hsource => hkeeps source ?_)
      fun h' hh' => ?_, merged tile bytes new,
    hr.actors_eq hsplice (OpKind.isActor_of_isPure hpure) (by rw [h.body_eq_nil hr hpure]; rfl) rfl,
    fun _ _ hv₁ hv₂ => merged_inj (hacts hv₁) (hacts hv₂) (hold hv₁) (hold hv₂),
    fun v hv => hkeeps v (hacts hv), fun _ hf => readable hr hf ht hres hbytes hsplice,
    fun _ hf _ _ hv hv' ha => separates hr hf ht hres hbytes hsplice h.sorted howned
      (fun _ => shape_eq hr ht hres h.sorted hc) (hacts hv) (hacts hv') ha⟩
  · -- A buffer of bytes that is owned is shown by its view alone.
    rintro rfl
    have hkind := OpKind.window?_eq_some.1 hw
    rcases howned.freed ht h₁ hmem ⟨source, List.mem_of_mem_head? hsource,
      by simp [Node.defined, hbytes]⟩ with rfl | hdealloc
    · simp [ht.view_kind] at hkind
    · simp [hdealloc] at hkind
  · rw [List.mem_singleton.1 hh']
    intro w hw
    cases hw

end Reallocation

theorem Rule.gives_traced {rule : Rule} (hrule : rule.cleansViews = true) (h : f.Settling)
    (hc : f.Cut) (hr : f.Represents (k.plug (b ++ .node hd x z))) :
    (rule.apply f hd.op).Gives True fun g => g.Cut ∧ ∃ σ, f.Traced g σ := by
  cases rule with
  | viewFolding => exact ViewFolding.gives_traced h hc hr
  | reallocation space => exact Reallocation.gives_traced h hc hr
  | _ => cases hrule

namespace Greedy

variable {rules : List Rule}

theorem keeps_traced {f₀ : Function} (hrules : ∀ rule ∈ rules, rule.cleansViews = true) :
    Keeps (· = .overflow) (fun f => f.Settling ∧ f.Cut ∧ ∃ σ, f₀.Traced f σ) rules where
  wellFormed _ h := h.1.wellFormed
  sheds _ _ _ _ _ _ _ h hs := by
    obtain ⟨hsettling, hcut, σ, htraced⟩ := h
    obtain ⟨hcut', hshed⟩ := hsettling.traced_shed hcut hs
    exact ⟨hsettling.shed hs, hcut', _, htraced.trans hshed⟩
  rule rule hmem f _ _ _ _ _ h hr := ends_overflow.2 <| by
    obtain ⟨hsettling, hcut, σ, htraced⟩ := h
    refine (Rule.gives_settling (hrules rule hmem) hsettling hr).mono fun g hans hg => ?_
    obtain ⟨hcut', τ, hstep⟩ := (Rule.gives_traced (hrules rule hmem) hsettling hcut hr).of_answers hans
    exact ⟨⟨hg.1, hcut', _, htraced.trans hstep⟩, hg.2.ops⟩

theorem run_viewCleanup_traced {f : Function} (hf : f.Tidy) (hs : f.Sorted) (ho : f.Owned)
    (hc : f.Cut) (hrules : ∀ rule ∈ rules, rule.cleansViews = true) (maxSweeps : Nat) :
    Yields True (run rules maxSweeps f).outcome fun (g, _) => ∃ σ, f.Traced g σ :=
  (ends_overflow.1 <| (keeps_traced hrules).run maxSweeps
    ⟨hf.settling hs ho, hc, id, .refl f⟩).mono fun _ _ h => h.2.2

def spread : Function where
  name := "spread"
  ops := #[⟨.alloc, [], some ⟨1⟩, none, [], [], none, true⟩,
    ⟨.view, [⟨1⟩], some ⟨2⟩, none, [], [], none, true⟩,
    ⟨.subView ⟨[.static 0], [4], [1]⟩, [⟨2⟩], some ⟨3⟩, none, [], [], none, true⟩,
    ⟨.subView ⟨[.static 1], [8], [1]⟩, [⟨0⟩], some ⟨4⟩, none, [], [], none, true⟩,
    ⟨.subView ⟨[.static 0], [4], [1]⟩, [⟨4⟩], some ⟨5⟩, none, [], [], none, true⟩,
    ⟨.subView ⟨[.static 4], [4], [1]⟩, [⟨4⟩], some ⟨6⟩, none, [], [], none, true⟩,
    ⟨.copy, [⟨5⟩, ⟨3⟩], none, none, [], [], none, true⟩,
    ⟨.copy, [⟨3⟩, ⟨6⟩], none, none, [], [], none, true⟩,
    ⟨.dealloc, [⟨1⟩], none, none, [], [], none, true⟩]
  values := #[⟨.buffer (.rowMajor [16] .float32 .global), .argument 0⟩,
    ⟨.buffer (.rowMajor [16] .uint8 .global), .result ⟨0⟩⟩,
    ⟨.buffer (.rowMajor [4] .float32 .global), .result ⟨1⟩⟩,
    ⟨.buffer ⟨[4], .float32, .strided (some 0) [1], .global⟩, .result ⟨2⟩⟩,
    ⟨.buffer ⟨[8], .float32, .strided (some 1) [1], .global⟩, .result ⟨3⟩⟩,
    ⟨.buffer ⟨[4], .float32, .strided (some 1) [1], .global⟩, .result ⟨4⟩⟩,
    ⟨.buffer ⟨[4], .float32, .strided (some 5) [1], .global⟩, .result ⟨5⟩⟩]
  arity := 1
  body := [⟨0⟩, ⟨1⟩, ⟨2⟩, ⟨3⟩, ⟨4⟩, ⟨5⟩, ⟨6⟩, ⟨7⟩, ⟨8⟩]

theorem run_viewCleanup_traced_spread : shown spread ⟨5⟩ [] = .ok (.ok (⟨0⟩, [1, 2, 3, 4])) ∧
    shown spread ⟨6⟩ [] = .ok (.ok (⟨0⟩, [5, 6, 7, 8])) ∧ ∃ g outcome σ,
      (run Rule.viewCleanup 4 spread).outcome = .ok (g, outcome) ∧ outcome.changes = 3 ∧
        spread.Traced g σ ∧ g.Separates [] (σ ⟨5⟩) (σ ⟨6⟩) := by
  have hok : ((run Rule.viewCleanup 4 spread).outcome.toOption.map (·.2.changes)) = some 3 := by
    decide +kernel
  have htidy : spread.Tidy := by decide +kernel
  have hsorted : spread.Sorted := by decide +kernel
  have howned : spread.Owned := by decide +kernel
  have hcut : spread.Cut := by decide +kernel
  have hreadable : spread.Readable [] :=
    ⟨by decide +kernel, by decide +kernel, by decide +kernel, by decide +kernel, by decide +kernel⟩
  have hfirst : shown spread ⟨5⟩ [] = .ok (.ok (⟨0⟩, [1, 2, 3, 4])) := by decide +kernel
  have hsecond : shown spread ⟨6⟩ [] = .ok (.ok (⟨0⟩, [5, 6, 7, 8])) := by decide +kernel
  have hacts : ∀ v ∈ [(⟨5⟩ : ValueId), ⟨6⟩], ∃ h ∈ spread.code.actors, v ∈ h.operands := by
    decide +kernel
  refine ⟨hfirst, hsecond, ?_⟩
  -- The run is not to be unfolded again: from here on the function is any that these hold of.
  generalize spread = f at *
  have hyields := run_viewCleanup_traced htidy hsorted howned hcut
    (show ∀ rule ∈ Rule.viewCleanup, rule.cleansViews = true by decide) 4
  obtain ⟨⟨g, outcome⟩, hrun, hchanges⟩ := Fault.toOption_map_eq_some.1 hok
  obtain ⟨σ, htraced⟩ := hyields.of_ok hrun
  exact ⟨g, outcome, σ, hrun, hchanges, htraced,
    htraced.separates [] hreadable ⟨5⟩ ⟨6⟩ (hacts _ (by simp)) (hacts _ (by simp))
      (.of_shown hfirst hsecond fun _ => by simp)⟩

def halves : Function where
  name := "halves"
  ops := #[⟨.alloc, [], some ⟨2⟩, none, [], [], none, true⟩,
    ⟨.view, [⟨2⟩], some ⟨3⟩, none, [], [], none, true⟩,
    ⟨.subView ⟨[.static 0], [4], [1]⟩, [⟨3⟩], some ⟨4⟩, none, [], [], none, true⟩,
    ⟨.subView ⟨[.static 4], [4], [1]⟩, [⟨3⟩], some ⟨5⟩, none, [], [], none, true⟩,
    ⟨.copy, [⟨0⟩, ⟨4⟩], none, none, [], [], none, true⟩,
    ⟨.copy, [⟨1⟩, ⟨5⟩], none, none, [], [], none, true⟩,
    ⟨.ret, [], none, none, [], [], none, true⟩]
  values := #[⟨.buffer (.rowMajor [4] .float32 .global), .argument 0⟩,
    ⟨.buffer (.rowMajor [4] .float32 .global), .argument 1⟩,
    ⟨.buffer (.rowMajor [32] .uint8 .global), .result ⟨0⟩⟩,
    ⟨.buffer (.rowMajor [8] .float32 .global), .result ⟨1⟩⟩,
    ⟨.buffer ⟨[4], .float32, .strided (some 0) [1], .global⟩, .result ⟨2⟩⟩,
    ⟨.buffer ⟨[4], .float32, .strided (some 4) [1], .global⟩, .result ⟨3⟩⟩]
  arity := 2
  body := [⟨0⟩, ⟨1⟩, ⟨2⟩, ⟨3⟩, ⟨4⟩, ⟨5⟩, ⟨6⟩]

theorem run_viewCleanup_merges_halves : halves.Tidy ∧ halves.Sorted ∧ halves.Cut ∧
    halves.code.actors.map (·.operands) = [[⟨0⟩, ⟨4⟩], [⟨1⟩, ⟨5⟩]] ∧
      shown halves ⟨4⟩ [] = .ok (.ok (⟨3⟩, [0, 1, 2, 3])) ∧
        shown halves ⟨5⟩ [] = .ok (.ok (⟨3⟩, [4, 5, 6, 7])) ∧ ∃ g outcome v,
          (run Rule.viewCleanup 10 halves).outcome = .ok (g, outcome) ∧
            g.code.actors.map (·.operands) = [[⟨0⟩, v], [⟨1⟩, v]] := by
  have htidy : halves.Tidy := by decide +kernel
  have hsorted : halves.Sorted := by decide +kernel
  have hcut : halves.Cut := by decide +kernel
  have hbefore : halves.code.actors.map (·.operands) = [[⟨0⟩, ⟨4⟩], [⟨1⟩, ⟨5⟩]] := by decide +kernel
  have hfirst : shown halves ⟨4⟩ [] = .ok (.ok (⟨3⟩, [0, 1, 2, 3])) := by decide +kernel
  have hsecond : shown halves ⟨5⟩ [] = .ok (.ok (⟨3⟩, [4, 5, 6, 7])) := by decide +kernel
  have hok : ((run Rule.viewCleanup 10 halves).outcome.toOption.map
      fun r => r.1.code.actors.map (·.operands)) = some [[⟨0⟩, ⟨7⟩], [⟨1⟩, ⟨7⟩]] := by decide +kernel
  obtain ⟨⟨g, outcome⟩, hrun, hafter⟩ := Fault.toOption_map_eq_some.1 hok
  exact ⟨htidy, hsorted, hcut, hbefore, hfirst, hsecond, g, outcome, ⟨7⟩, hrun, hafter⟩

end Greedy

end KernelLowering
