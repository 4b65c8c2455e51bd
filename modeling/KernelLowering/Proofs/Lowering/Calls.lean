import KernelLowering.Lowering.Plan
import KernelLowering.Proofs.Execution.Outlining
import KernelLowering.Proofs.Scope.Sorts

namespace KernelLowering

namespace Code

def calling (sites : List Node) (call : Node → OpId) (callee : Node → String) : Code → Code
  | nil => nil
  | node h body rest =>
    if h ∈ sites then
      node (.effect (call h) (.call (callee h)) h.operands none) nil (calling sites call callee rest)
    else
      node h (calling sites call callee body) (calling sites call callee rest)

def PlainKernels (f : Function) : Code → Prop
  | nil => True
  | node h body rest =>
    (h.kind.kernel?.isSome = true → h.result = none ∧ body = nil ∧ ∀ v ∈ h.operands, f.Has v) ∧
      PlainKernels f body ∧ PlainKernels f rest

instance decidablePlainKernels (f : Function) : ∀ x : Code, Decidable (x.PlainKernels f)
  | .nil => isTrue trivial
  | .node h body rest =>
    have : Decidable (body.PlainKernels f) := decidablePlainKernels f body
    have : Decidable (rest.PlainKernels f) := decidablePlainKernels f rest
    inferInstanceAs (Decidable ((h.kind.kernel?.isSome = true →
      h.result = none ∧ body = nil ∧ ∀ v ∈ h.operands, f.Has v) ∧
        body.PlainKernels f ∧ rest.PlainKernels f))

variable {f g : Function} {x y : Code} {sites sites' : List Node} {call call' : Node → OpId}
  {callee callee' : Node → String} {k : Spine} {hd : Node}

theorem calling_append : (x ++ y).calling sites call callee =
    x.calling sites call callee ++ y.calling sites call callee := by
  induction x with
  | nil => rfl
  | node h body rest _ ih =>
    simp only [node_append, calling, ih]
    split <;> rfl

theorem calling_of_not_mem (hx : ∀ h ∈ x.heads, h ∉ sites) : x.calling sites call callee = x := by
  induction x with
  | nil => rfl
  | node h body rest ihb ihr =>
    simp only [heads, List.forall_mem_cons, List.forall_mem_append] at hx
    rw [calling, if_neg hx.1, ihb hx.2.1, ihr hx.2.2]

theorem calling_plug (hk : ∀ h ∈ k.heads, h ∉ sites) :
    (k.plug x).calling sites call callee = k.plug (x.calling sites call callee) := by
  induction k generalizing x with
  | body => rfl
  | inside h b a k ih =>
    simp only [Spine.heads, List.forall_mem_append, List.forall_mem_cons] at hk
    obtain ⟨⟨hb, hh, ha⟩, hk⟩ := hk
    rw [Spine.plug, ih hk, calling_append, calling, if_neg hh, calling_of_not_mem hb,
      calling_of_not_mem ha, Spine.plug]

theorem calling_calling (hsites : ∀ h ∈ sites', h.kind.kernel?.isSome = true) :
    (x.calling sites call callee).calling sites' call' callee' = x.calling (sites ++ sites')
      (fun h => if h ∈ sites then call h else call' h)
      (fun h => if h ∈ sites then callee h else callee' h) := by
  induction x with
  | nil => rfl
  | node h body rest ihb ihr =>
    by_cases hh : h ∈ sites
    · have hcall : Node.effect (call h) (.call (callee h)) h.operands none ∉ sites' := fun hin => by
        cases hsites _ hin
      simp only [calling, List.mem_append, hh, hcall, ihr, true_or, ↓reduceIte]
    · by_cases hh' : h ∈ sites'
      · simp only [calling, List.mem_append, hh, hh', ihr, or_true, ↓reduceIte]
      · simp only [calling, List.mem_append, hh, hh', ihb, ihr, or_self, ↓reduceIte]

theorem PlainKernels.calling (hx : x.PlainKernels f) (hg : ∀ v, f.Has v → g.Has v) :
    (x.calling sites call callee).PlainKernels g := by
  induction x with
  | nil => trivial
  | node h body rest ihb ihr =>
    obtain ⟨hh, hbody, hrest⟩ := hx
    rw [Code.calling]
    split
    · exact ⟨fun hkernel => Bool.noConfusion hkernel, trivial, ihr hrest⟩
    · refine ⟨fun hkernel => ?_, ihb hbody, ihr hrest⟩
      obtain ⟨hresult, rfl, hhas⟩ := hh hkernel
      exact ⟨hresult, rfl, fun v hv => hg v (hhas v hv)⟩

theorem PlainKernels.filter_calling (hx : x.PlainKernels f)
    (hsites : ∀ h ∈ sites, h.kind.kernel?.isSome = true) {P : Node → Bool}
    (hP : ∀ h, P h = true → h.kind.kernel?.isSome = true ∧ h ∉ sites) :
    (x.calling sites call callee).heads.filter P = x.heads.filter P := by
  induction x with
  | nil => rfl
  | node h body rest ihb ihr =>
    obtain ⟨hh, hbody, hrest⟩ := hx
    rw [Code.calling]
    split
    · next hin =>
      obtain ⟨-, rfl, -⟩ := hh (hsites h hin)
      have hcall : ¬ P (.effect (call h) (.call (callee h)) h.operands none) = true := fun hp => by
        cases (hP _ hp).1
      have hgone : ¬ P h = true := fun hp => (hP h hp).2 hin
      simp only [heads, List.nil_append, List.filter_cons_of_neg hcall, List.filter_cons_of_neg hgone,
        ihr hrest]
    · simp only [heads, List.filter_cons, List.filter_append, ihb hbody, ihr hrest]

theorem PlainKernels.mem_calling (hx : x.PlainKernels f)
    (hsites : ∀ h ∈ sites, h.kind.kernel?.isSome = true) (hhd : hd ∈ x.heads)
    (hkernel : hd.kind.kernel?.isSome = true) (hnot : hd ∉ sites) :
    hd ∈ (x.calling sites call callee).heads := by
  have hfilter := @filter_calling f x sites call callee hx hsites (fun h => decide (h = hd))
    fun h hh => of_decide_eq_true hh ▸ ⟨hkernel, hnot⟩
  have hin : hd ∈ x.heads.filter fun h => decide (h = hd) := by simpa using hhd
  exact (List.mem_filter.1 (hfilter ▸ hin)).1

theorem PlainKernels.of_mem (hx : x.PlainKernels f) (hhd : hd ∈ x.heads)
    (hkernel : hd.kind.kernel?.isSome = true) : hd.result = none ∧ ∀ v ∈ hd.operands, f.Has v := by
  induction x with
  | nil => cases hhd
  | node h body rest ihb ihr =>
    obtain ⟨hh, hbody, hrest⟩ := hx
    rw [heads, List.mem_cons, List.mem_append] at hhd
    rcases hhd with rfl | hhd | hhd
    · exact ⟨(hh hkernel).1, (hh hkernel).2.2⟩
    · exact ihb hbody hhd
    · exact ihr hrest hhd

theorem PlainKernels.of_append (h : (x ++ y).PlainKernels f) : y.PlainKernels f := by
  induction x with
  | nil => exact h
  | node _ _ _ _ ih => exact ih h.2.2

theorem PlainKernels.of_plug (h : (k.plug x).PlainKernels f) : x.PlainKernels f := by
  induction k generalizing x with
  | body => exact h
  | inside _ _ _ _ ih => exact (ih h).of_append.2.1

end Code

namespace Function

variable {f g g' : Function} {sites sites' : List Node} {call call' : Node → OpId}
  {callee callee' : Node → String} {kind : KernelKind} {h : Node}

structure Lowerable (f : Function) : Prop where
  wellFormed : f.WellFormed
  plain : f.code.PlainKernels f

instance (f : Function) : Decidable f.Lowerable :=
  decidable_of_iff (f.WellFormed ∧ f.code.PlainKernels f) ⟨fun ⟨h, h'⟩ => ⟨h, h'⟩, fun h => ⟨h.1, h.2⟩⟩

/-- The function `g` is `f` with calls in the place of these operations. -/
structure Calls (f g : Function) (sites : List Node) (call : Node → OpId) (callee : Node → String) :
    Prop where
  wellFormed : f.WellFormed → g.WellFormed
  grows : f.Grows g
  code : g.code = f.code.calling sites call callee

theorem Calls.refl (f : Function) (call : Node → OpId) (callee : Node → String) :
    f.Calls f [] call callee :=
  ⟨id, .refl f, (Code.calling_of_not_mem fun _ _ => List.not_mem_nil).symm⟩

theorem Calls.trans (h : f.Calls g sites call callee) (h' : g.Calls g' sites' call' callee')
    (hsites : ∀ h ∈ sites', h.kind.kernel?.isSome = true) :
    f.Calls g' (sites ++ sites') (fun h => if h ∈ sites then call h else call' h)
      (fun h => if h ∈ sites then callee h else callee' h) :=
  ⟨h'.wellFormed ∘ h.wellFormed, h.grows.trans h'.grows, by rw [h'.code, h.code, Code.calling_calling hsites]⟩

theorem Calls.lowerable (h : f.Calls g sites call callee) (hf : f.Lowerable) : g.Lowerable :=
  ⟨h.wellFormed hf.wellFormed, h.code ▸ hf.plain.calling fun _ hv => h.grows.has hv⟩

def Selects (f : Function) (kind : KernelKind) (h : Node) : Prop :=
  h.kind = .kernel kind ∧ ∀ v ∈ h.operands, f.sort? v = some .buffer

instance (f : Function) (kind : KernelKind) (h : Node) : Decidable (f.Selects kind h) :=
  inferInstanceAs (Decidable (h.kind = .kernel kind ∧ ∀ v ∈ h.operands, f.sort? v = some .buffer))

def selected (f : Function) (kind : KernelKind) : List Node := f.code.heads.filter (f.Selects kind)

def kernelSites (f : Function) : List Node := f.selected .matmul ++ f.selected .conv2d

theorem mem_selected : h ∈ f.selected kind ↔ h ∈ f.code.heads ∧ f.Selects kind h := by
  simp [selected]

theorem kernel_of_mem_selected (hh : h ∈ f.selected kind) : h.kind = .kernel kind :=
  (mem_selected.1 hh).2.1

theorem kernel_of_mem_kernelSites (hh : h ∈ f.kernelSites) : h.kind.kernel?.isSome = true := by
  rcases List.mem_append.1 hh with hh | hh <;> rw [kernel_of_mem_selected hh] <;> rfl

theorem WellFormed.nodup_heads (hf : f.WellFormed) : f.code.heads.Nodup :=
  List.Nodup.of_map (·.op) (f.code.ops_eq_map_heads ▸ hf.nodup)

theorem Grows.selects_iff (hg : f.Grows g) (hh : ∀ v ∈ h.operands, f.Has v) :
    g.Selects kind h ↔ f.Selects kind h := by
  have hsort : ∀ v ∈ h.operands, g.sort? v = f.sort? v := fun v hv => by
    obtain ⟨x, hx⟩ : ∃ x, f.value? v = some x := ⟨_, Array.getElem?_eq_getElem (hh v hv)⟩
    rw [Function.sort?, hg.value hx, Function.sort?, hx]
  exact and_congr_right fun _ => forall₂_congr fun v hv => by rw [hsort v hv]

theorem Calls.selected_eq (h : f.Calls g sites call callee) (hf : f.Lowerable)
    (hsites : ∀ h ∈ sites, ∃ kind', h.kind = .kernel kind' ∧ kind' ≠ kind) :
    g.selected kind = f.selected kind := by
  have hkernels : ∀ h ∈ sites, h.kind.kernel?.isSome = true := fun h hh => by
    obtain ⟨kind', hkind, -⟩ := hsites h hh
    rw [hkind]
    rfl
  have hfilter : g.code.heads.filter (g.Selects kind) = f.code.heads.filter (g.Selects kind) := by
    rw [h.code]
    refine hf.plain.filter_calling hkernels fun h hh => ?_
    have hkind := (of_decide_eq_true hh).1
    refine ⟨by rw [hkind]; rfl, fun hin => ?_⟩
    obtain ⟨kind', hkind', hne⟩ := hsites h hin
    rw [hkind, OpKind.kernel.injEq] at hkind'
    exact hne hkind'.symm
  rw [selected, hfilter, selected]
  refine List.filter_congr fun h' hh' => ?_
  by_cases hkind : h'.kind = .kernel kind
  · have hhas := (hf.plain.of_mem hh' (by rw [hkind]; rfl)).2
    exact decide_eq_decide.2 (h.grows.selects_iff hhas)
  · exact decide_eq_decide.2 (iff_of_false (fun hs => hkind hs.1) fun hs => hkind hs.1)

theorem Calls.kernelSites_eq (h : f.Calls g [] call callee) (hf : f.Lowerable) :
    g.kernelSites = f.kernelSites := by
  have hnone : ∀ {P : Node → Prop}, ∀ h ∈ ([] : List Node), P h := fun _ hh => by cases hh
  rw [kernelSites, h.selected_eq hf hnone, h.selected_eq hf hnone, kernelSites]

theorem Lowerable.exists_at (hf : f.Lowerable) (hh : h ∈ f.code.heads)
    (hkernel : h.kind.kernel?.isSome = true) :
    ∃ k b z, f.Represents (Spine.plug k (b ++ .node h .nil z)) := by
  have hop : h.op ∈ f.code.ops := f.code.ops_eq_map_heads ▸ List.mem_map_of_mem hh
  obtain ⟨k, b, hd, x, z, hhd, hcode⟩ := Code.exists_spine hop
  have hr : f.Represents (k.plug (b ++ .node hd x z)) := hcode ▸ hf.wellFormed
  obtain rfl := hr.eq_of_op (hcode ▸ hh) (Spine.mem_heads_at k b x z hd) hhd.symm
  have hplain := (hcode ▸ hf.plain).of_plug.of_append
  obtain ⟨-, rfl, -⟩ := hplain.1 hkernel
  exact ⟨k, b, z, hr⟩

theorem Calls.of_replaceByCall {k : Spine} {b z : Code} {r : OpId × Function} {o : Operation}
    {name : String} (hr : f.Represents (k.plug (b ++ .node h .nil z))) (ho : f.op h.op = .ok o)
    (hcall : Outline.replaceByCall f h.op o name = .ok r) :
    f.Calls r.2 [h] (fun _ => r.1) fun _ => name := by
  have hsplice := Outline.splice_replaceByCall hr hcall
  refine ⟨fun _ => hsplice.represents.wellFormed, hsplice.grows, ?_⟩
  rw [hr.record_at, Except.ok.injEq] at ho
  subst ho
  have hnodup : (k.plug (b ++ .node h .nil z)).heads.Nodup := hr.code_eq ▸ hr.wellFormed.nodup_heads
  rw [(Spine.heads_plug k _).nodup_iff] at hnodup
  simp only [Code.heads_append, Code.heads, List.nil_append, List.nodup_append', List.nodup_cons,
    List.disjoint_cons_right, List.disjoint_append_left, List.disjoint_cons_left] at hnodup
  obtain ⟨⟨-, ⟨hz, -⟩, hb, -⟩, -, -, hk, -⟩ := hnodup
  have hother : ∀ {hs : List Node}, h ∉ hs → ∀ h' ∈ hs, h' ∉ [h] := fun hs h' hh' he => by
    rw [List.mem_singleton.1 he] at hh'
    exact hs hh'
  rw [hsplice.represents.code_eq, hr.code_eq, Code.calling_plug (hother hk), Code.calling_append,
    Code.calling_of_not_mem (hother hb), Code.calling, if_pos (List.mem_singleton_self h),
    Code.calling_of_not_mem (hother hz)]
  rfl

theorem bufferTypes?_eq_ok {vs : List ValueId} (hvs : ∀ v ∈ vs, f.Has v) :
    ∃ types, f.bufferTypes? vs = .ok types ∧
      (types.isSome = true ↔ ∀ v ∈ vs, f.sort? v = some .buffer) := by
  induction vs with
  | nil => exact ⟨some [], rfl, by simp⟩
  | cons v vs ih =>
    rw [List.forall_mem_cons] at hvs
    obtain ⟨types, htypes, hiff⟩ := ih hvs.2
    obtain ⟨⟨type, definition⟩, hx⟩ : ∃ x, f.value? v = some x := ⟨_, Array.getElem?_eq_getElem hvs.1⟩
    have hbuffer : f.bufferType? v = .ok type.buffer? := by
      rw [bufferType?, value_eq_ok.2 hx]
      rfl
    have hsort : f.sort? v = some type.sort := by rw [Function.sort?, hx, Option.map_some]
    rw [bufferTypes?, hbuffer, Fault.ok_bind, List.forall_mem_cons, hsort]
    cases type with
    | index => exact ⟨none, rfl, by simp [ValueType.sort]⟩
    | buffer type =>
      refine ⟨types.map (type :: ·), by simp [ValueType.buffer?, htypes], ?_⟩
      simpa [ValueType.sort] using hiff

theorem Lowerable.instanceAt_eq_ok (hf : f.Lowerable) (hh : h ∈ f.code.heads) :
    ∃ instance?, f.instanceAt kind h.op = .ok instance? ∧
      List.Forall₂ (fun k h => k.op = h.op ∧ k.kind = kind) instance?.toList
        ([h].filter (f.Selects kind)) := by
  obtain ⟨parent, region, ho⟩ := hf.wellFormed.exists_record hh
  rw [instanceAt, op_eq_ok.2 ho, Fault.ok_bind, Node.record]
  by_cases hkind : h.kind = .kernel kind
  · obtain ⟨types, htypes, hiff⟩ :=
      bufferTypes?_eq_ok (hf.plain.of_mem hh (by rw [hkind]; rfl)).2
    refine ⟨types.map fun types => ⟨h.op, kind, types⟩, by simp [hkind, htypes], ?_⟩
    cases types with
    | none =>
      have hnot : ¬ f.Selects kind h := fun hs => by cases hiff.2 hs.2
      rw [List.filter_cons_of_neg (by simpa using hnot)]
      exact .nil
    | some types =>
      have hsel : f.Selects kind h := ⟨hkind, hiff.1 rfl⟩
      rw [List.filter_cons_of_pos (by simpa using hsel)]
      exact .cons ⟨rfl, rfl⟩ .nil
  · have hnot : ¬ f.Selects kind h := fun hs => hkind hs.1
    refine ⟨none, if_neg hkind, ?_⟩
    rw [List.filter_cons_of_neg (by simpa using hnot)]
    exact .nil

theorem Lowerable.kernels_eq (hf : f.Lowerable) (kind : KernelKind) :
    ∃ instances, f.kernels kind = .ok instances ∧
      List.Forall₂ (fun k h => k.op = h.op ∧ k.kind = kind) instances (f.selected kind) := by
  have hall : ∀ hs ⊆ f.code.heads, ∃ ks, (hs.map (·.op)).mapM (f.instanceAt kind) = .ok ks ∧
      List.Forall₂ (fun k h => k.op = h.op ∧ k.kind = kind) ks.reduceOption
        (hs.filter (f.Selects kind)) := by
    intro hs
    induction hs with
    | nil => exact fun _ => ⟨[], rfl, .nil⟩
    | cons h hs ih =>
      intro hsub
      rw [List.cons_subset] at hsub
      obtain ⟨k?, hk, hfirst⟩ := @Lowerable.instanceAt_eq_ok f kind h hf hsub.1
      obtain ⟨ks, hks, hrest⟩ := ih hsub.2
      refine ⟨k? :: ks, by rw [List.map_cons, List.mapM_cons, hk, Fault.ok_bind, hks]; rfl, ?_⟩
      have hsplit : (k? :: ks).reduceOption = k?.toList ++ ks.reduceOption := by
        cases k? <;> rfl
      rw [hsplit, show h :: hs = [h] ++ hs from rfl, List.filter_append]
      exact List.rel_append hfirst hrest
  obtain ⟨ks, hks, hrel⟩ := hall f.code.heads (List.Subset.refl _)
  refine ⟨ks.reduceOption, ?_, hrel⟩
  rw [kernels, hf.wellFormed.walk_eq, Code.ops_eq_map_heads, hks]
  rfl

end Function

namespace Program

variable {p q r : Program} {name : String} {h : Node} {sites sites' : List (String × Node)}
  {call call' : String → Node → OpId} {callee callee' : String → Node → String}

def sitesIn (sites : List (String × Node)) (name : String) : List Node :=
  (sites.filter (·.1 = name)).map (·.2)

@[simp] theorem mem_sitesIn : h ∈ sitesIn sites name ↔ (name, h) ∈ sites := by
  simp [sitesIn]

@[simp] theorem sitesIn_append :
    sitesIn (sites ++ sites') name = sitesIn sites name ++ sitesIn sites' name := by
  simp [sitesIn]

@[simp] theorem sitesIn_map (name : String) (hs : List Node) : sitesIn (hs.map (name, ·)) name = hs := by
  simp [sitesIn, List.filter_map, Function.comp_def]

theorem sitesIn_eq_nil (h : ∀ site ∈ sites, site.1 ≠ name) : sitesIn sites name = [] := by
  rw [sitesIn, List.map_eq_nil_iff, List.filter_eq_nil_iff]
  simpa using h

structure Calls (p q : Program) (sites : List (String × Node)) (call : String → Node → OpId)
    (callee : String → Node → String) : Prop where
  names : q.names = p.names ++ sites.map fun site => callee site.1 site.2
  nodup : q.names.Nodup
  function : ∀ {name f}, p.find? name = some f →
    ∃ g, q.find? name = some g ∧ f.Calls g (sitesIn sites name) (call name) (callee name)

theorem Calls.refl (hp : p.names.Nodup) : p.Calls p [] call callee :=
  ⟨by simp, hp, fun {_ f} hf => ⟨f, hf, .refl f _ _⟩⟩

theorem Calls.trans (h : p.Calls q sites call callee) (h' : q.Calls r sites' call' callee')
    (hsites : ∀ site ∈ sites', site.2.kind.kernel?.isSome = true) (hdisjoint : sites.Disjoint sites') :
    p.Calls r (sites ++ sites')
      (fun name h => if (name, h) ∈ sites then call name h else call' name h)
      (fun name h => if (name, h) ∈ sites then callee name h else callee' name h) where
  names := by
    rw [h'.names, h.names, List.map_append, List.append_assoc]
    refine congrArg (p.names ++ ·) (congrArg₂ (· ++ ·) ?_ ?_)
    · exact List.map_congr_left fun site hsite => (if_pos hsite).symm
    · exact List.map_congr_left fun site hsite => (if_neg fun hin => hdisjoint hin hsite).symm
  nodup := h'.nodup
  function := by
    intro name f hf
    obtain ⟨g, hg, hcalls⟩ := h.function hf
    obtain ⟨g', hg', hcalls'⟩ := h'.function hg
    refine ⟨g', hg', ?_⟩
    have hkernels : ∀ h ∈ sitesIn sites' name, h.kind.kernel?.isSome = true := fun h hh =>
      hsites (name, h) (mem_sitesIn.1 hh)
    simpa using hcalls.trans hcalls' hkernels

def sitesOf (fs : List Function) : List (String × Node) :=
  fs.flatMap fun f => f.kernelSites.map (f.name, ·)

@[simp] theorem sitesOf_cons (f : Function) (fs : List Function) :
    sitesOf (f :: fs) = f.kernelSites.map (f.name, ·) ++ sitesOf fs := List.flatMap_cons

theorem name_of_mem_sitesOf {fs : List Function} {site : String × Node} (hsite : site ∈ sitesOf fs) :
    site.1 ∈ fs.map (·.name) ∧ site.2.kind.kernel?.isSome = true := by
  obtain ⟨f, hf, hin⟩ := List.mem_flatMap.1 hsite
  obtain ⟨h, hh, rfl⟩ := List.mem_map.1 hin
  exact ⟨List.mem_map_of_mem hf, Function.kernel_of_mem_kernelSites hh⟩

theorem sitesIn_sitesOf {fs : List Function} (hfs : (fs.map (·.name)).Nodup) {f : Function} (hf : f ∈ fs) :
    sitesIn (sitesOf fs) f.name = f.kernelSites := by
  induction fs with
  | nil => cases hf
  | cons f' fs ih =>
    rw [List.map_cons, List.nodup_cons] at hfs
    rw [sitesOf_cons, sitesIn_append]
    rcases List.mem_cons.1 hf with rfl | hf
    · have hnone : sitesIn (sitesOf fs) f.name = [] := sitesIn_eq_nil fun site hsite he =>
        hfs.1 (he ▸ (name_of_mem_sitesOf hsite).1)
      rw [hnone, sitesIn_map, List.append_nil]
    · have hnone : sitesIn (f'.kernelSites.map (f'.name, ·)) f.name = [] := by
        refine sitesIn_eq_nil (List.forall_mem_map.2 fun h _ he => hfs.1 ?_)
        exact List.mem_map.2 ⟨f, hf, he.symm⟩
      rw [hnone, List.nil_append, ih hfs.2 hf]

end Program

end KernelLowering
