import KernelLowering.Proofs.Address.Folding
import KernelLowering.Proofs.Arena.Check
import KernelLowering.Proofs.Arena.Spine
import KernelLowering.Proofs.Greedy

namespace KernelLowering

open Address

variable {f g f' : Function} {bindings : Bindings} {k : Spine} {b x y z : Code} {hd : Node}

/-- A function whose views are as builders make them, and bindings for it that leave the views
alone. -/
structure Function.Readable (f : Function) (bindings : Bindings) : Prop where
  wellFormed : f.WellFormed
  nested : f.code.Nested
  viewed : ∀ h ∈ f.code.heads, ViewFolding.Viewed f h
  scope : ∀ p ∈ bindings, f.Has p.1
  unbound : ∀ h ∈ f.code.heads, h.kind.window? ≠ none → ∀ p ∈ bindings, p.1 ∉ h.defined

theorem Bindings.mem_of_find? {v : ValueId} {n : Int} (h : bindings.find? v = some n) :
    ∃ p ∈ bindings, p.1 = v := by
  obtain ⟨p, hp, -⟩ := Option.map_eq_some_iff.1 h
  exact ⟨p, List.mem_reverse.1 (List.mem_of_find?_eq_some hp), by simpa using List.find?_some hp⟩

theorem Bindings.find?_eq_none {v : ValueId} (h : ∀ p ∈ bindings, p.1 ≠ v) :
    bindings.find? v = none :=
  Option.eq_none_iff_forall_ne_some.2 fun _ hn =>
    have ⟨p, hp, hpv⟩ := mem_of_find? hn
    h p hp hpv

structure Function.KeepsAddresses (f g : Function) (bindings : Bindings) : Prop where
  grows : f.Grows g
  operands : ∀ h' ∈ g.code.heads, h'.op.index < f.ops.size → ∃ h ∈ f.code.heads, h.op = h'.op ∧
    ∀ (j : Nat) (v : ValueId), h.operands[j]? = some v → ∃ v', h'.operands[j]? = some v' ∧
      ∀ a, Found (addressed f v bindings) a → Found (addressed g v' bindings) a

namespace Function

theorem KeepsAddresses.refl (f : Function) (bindings : Bindings) : f.KeepsAddresses f bindings :=
  ⟨.refl f, fun h hh _ => ⟨h, hh, rfl, fun _ v hv => ⟨v, hv, fun _ => id⟩⟩⟩

theorem KeepsAddresses.trans (h : f.KeepsAddresses g bindings) (h' : g.KeepsAddresses f' bindings) :
    f.KeepsAddresses f' bindings := by
  refine ⟨h.grows.trans h'.grows, fun h₃ hh₃ hlt => ?_⟩
  obtain ⟨h₂, hh₂, hop₂, hops₂⟩ := h'.operands h₃ hh₃ (hlt.trans_le h.grows.ops)
  obtain ⟨h₁, hh₁, hop₁, hops₁⟩ := h.operands h₂ hh₂ (hop₂ ▸ hlt)
  refine ⟨h₁, hh₁, hop₁.trans hop₂, fun j v hv => ?_⟩
  obtain ⟨v', hv', hkeep⟩ := hops₁ j v hv
  obtain ⟨v'', hv'', hkeep'⟩ := hops₂ j v' hv'
  exact ⟨v'', hv'', fun a ha => hkeep' a (hkeep a ha)⟩

theorem Represents.keepsAddresses {σ : ValueId → ValueId}
    (hr : f.Represents (k.plug (b ++ .node hd x z)))
    (hg : g.Represents ((k.rename σ).plug (b.rename σ ++ (y ++ z.rename σ)))) (hgrows : f.Grows g)
    (hnew : ∀ op ∈ y.ops, f.ops.size ≤ op.index)
    (hkeep : ∀ h ∈ (k.plug (b ++ z)).heads, ∀ v ∈ h.operands, ∀ a,
      Found (addressed f v bindings) a → Found (addressed g (σ v) bindings) a) :
    f.KeepsAddresses g bindings := by
  refine ⟨hgrows, fun h' hh' hlt => ?_⟩
  rw [hg.code_eq] at hh'
  rw [hr.code_eq]
  rcases Spine.mem_heads_splice.1 hh' with ⟨h, hh, rfl⟩ | hh'
  · refine ⟨h, Spine.mem_heads_around hh hd x, rfl, fun j v hv => ⟨σ v, ?_, ?_⟩⟩
    · simp [Node.rename, hv]
    · exact hkeep h hh v (List.mem_of_getElem? hv)
  · exact (Nat.not_lt.2 (hnew _ (Code.ops_eq_map_heads y ▸ List.mem_map_of_mem hh')) hlt).elim

end Function

namespace Function

variable {c : Code}

theorem Readable.allRanked (hf : f.Readable bindings) (hr : f.Represents c) : AllRanked c :=
  fun h hh w hkind => (hf.viewed h (hr.code_eq.symm ▸ hh) w hkind).1

theorem Readable.nested_at (hf : f.Readable bindings)
    (hr : f.Represents (k.plug (b ++ .node hd x z))) :
    (hd.kind.isLoop = true ∨ x = .nil) ∧ ∀ (σ : ValueId → ValueId) (y : Code), y.Nested →
      ((k.rename σ).plug (b.rename σ ++ (y ++ z.rename σ))).Nested :=
  Spine.nested_splice (hr.code_eq ▸ hf.nested)

theorem viewed_rename {h : Node} {σ : ValueId → ValueId} (hv : ViewFolding.Viewed f h)
    (hσ : ∀ v t, f.bufferType? v = .ok (some t) →
      ∃ t', g.bufferType? (σ v) = .ok (some t')) : ViewFolding.Viewed g (h.rename σ) := by
  intro w hkind
  obtain ⟨hranked, source, supplied, v, type, below, hops, hres, hbelow, hcount⟩ := hv w hkind
  obtain ⟨below', hbelow'⟩ := hσ source below hbelow
  exact ⟨hranked, σ source, supplied.map σ, v, type, below', congrArg (List.map σ) hops, hres,
    hbelow', hcount.trans (List.length_map σ).symm⟩

theorem Sheds.represents (h : f.Sheds g k b x z hd) :
    g.Represents ((k.rename id).plug (b.rename id ++ (.nil ++ z.rename id))) := by
  have hrep := h.after
  rwa [← Spine.rename_id k, ← Code.rename_id b, ← Code.rename_id z] at hrep

theorem Readable.splice {σ : ValueId → ValueId} (hf : f.Readable bindings)
    (hr : f.Represents (k.plug (b ++ .node hd x z)))
    (hg : g.Represents ((k.rename σ).plug (b.rename σ ++ (y ++ z.rename σ)))) (hgrows : f.Grows g)
    (htypes : ∀ v t, f.bufferType? v = .ok (some t) → ∃ t', g.bufferType? (σ v) = .ok (some t'))
    (hnested : y.Nested) (hviewed : ∀ h ∈ y.heads, ViewFolding.Viewed g h)
    (hfresh : ∀ v ∈ y.defined, ¬ f.Has v) : g.Readable bindings := by
  have haround : ∀ {h}, h ∈ (k.plug (b ++ z)).heads → h ∈ f.code.heads := fun hh =>
    hr.code_eq.symm ▸ Spine.mem_heads_around hh hd x
  refine ⟨hg.wellFormed, ?_, fun h hh => ?_, fun p hp => (hf.scope p hp).trans_le hgrows.values,
    fun h hh hkind p hp => ?_⟩
  · rw [hg.code_eq]
    exact (hf.nested_at hr).2 _ _ hnested
  · rw [hg.code_eq] at hh
    rcases Spine.mem_heads_splice.1 hh with ⟨h', hh', rfl⟩ | hh
    · exact viewed_rename (hf.viewed h' (haround hh')) htypes
    · exact hviewed h hh
  · rw [hg.code_eq] at hh
    rcases Spine.mem_heads_splice.1 hh with ⟨h', hh', rfl⟩ | hh
    · exact hf.unbound h' (haround hh') hkind p hp
    · exact fun hm => hfresh p.1 (List.mem_flatMap.2 ⟨h, hh, hm⟩) (hf.scope p hp)

theorem Sheds.readable (h : f.Sheds g k b x z hd) (hf : f.Readable bindings) :
    g.Readable bindings :=
  hf.splice h.before h.represents h.same.grows (fun _ t hv => ⟨t, h.same.grows.bufferType? hv⟩)
    trivial (fun _ hh => by cases hh) fun _ hv => by cases hv

theorem Sheds.found_addressed (h : f.Sheds g k b x z hd) (hf : f.Readable bindings) {v : ValueId}
    (hv : v ∉ hd.defined) {a : AddressedElements} (ha : Found (addressed f v bindings) a) :
    Found (addressed g v bindings) a := by
  obtain rfl : x = .nil := h.body_eq_nil hf.nested
  have hrewired : Rewired f g (k.plug (b ++ .node hd .nil z)) _ bindings id (· ∉ hd.defined) hd :=
    .of_represents h.before h.represents h.same.grows (by simp)
      (h.before.inductionVars_eq_nil (Spine.mem_heads_at k b .nil z hd) h.pure)
      (fun _ _ _ => rfl) (fun _ _ => rfl) (fun h' hh _ v hv hm => h.unused v hm h' hh hv)
      fun v hm hv => (hv hm).elim
  rw [Address.found_addressed h.before (hf.allRanked h.before)] at ha
  rw [Address.found_addressed h.represents ((h.readable hf).allRanked h.represents)]
  have hdepth : depthOf g = depthOf f := congrArg (· + 1) h.same.size
  rw [hdepth]
  refine hrewired.viewAt le_rfl (fun _ u _ _ hu hdef => ?_) hv ha
  obtain ⟨-, t, hres⟩ := Code.of_definer? hdef
  exact (hu (by simp [Node.defined, hres])).elim

theorem Sheds.keepsAddresses (h : f.Sheds g k b x z hd) (hf : f.Readable bindings) :
    f.KeepsAddresses g bindings :=
  h.before.keepsAddresses h.represents h.same.grows (by simp [Code.ops]) fun h' hh v hv _ =>
    h.found_addressed hf fun hm => h.unused v hm h' (Spine.mem_heads_around hh hd x) hv

end Function

namespace ViewFolding

variable {inner : Node} {w w' : Window} {u source v : ValueId} {supplied supplied' : List ValueId}
  {type result : BufferType} {offsets : List Offset} {vs : List ValueId} {op : OpId}

theorem Summed.not_view {o o' : SuppliedOffset ValueId} {offset : Offset} {h : Node}
    (hs : Summed o o' y offset vs) (hh : h ∈ y.heads) : h.kind.window? = none := by
  cases hs <;> simp [Code.heads, Node.value] at hh <;> aesop

theorem SummedAll.not_view {dims : List (SuppliedOffset ValueId × SuppliedOffset ValueId)} {h : Node}
    (hs : SummedAll dims y offsets vs) (hh : h ∈ y.heads) : h.kind.window? = none := by
  induction hs with
  | nil => cases hh
  | cons hfirst _ ih =>
    rw [Code.heads_append, List.mem_append] at hh
    exact hh.elim hfirst.not_view ih

section Splice

variable (hr : f.Represents (k.plug (b ++ .node hd x z))) (hf : f.Readable bindings)
  (hready : Ready f (k.plug (b ++ .node hd x z)) hd inner w w' u source supplied supplied' type)
  (hdense : w.offsets.length = w'.sizes.length ∧ ∀ stride ∈ w'.strides, stride = 1)
  (hsums : SummedAll
    ((Offset.supply w.offsets supplied).zip (Offset.supply w'.offsets supplied')) y offsets vs)
  (hsplice : Splice f g (k.rename (hd.redirect v)) (b.rename (hd.redirect v))
    ((y ++ .node (foldedView op (combined w offsets) source vs v result) .nil .nil).rename
      (hd.redirect v)) (z.rename (hd.redirect v)))

include hr hf hready

theorem viewed_outer : w.Ranked ∧ ∃ r t, hd.result = some (r, t) ∧ bindings.find? r = none := by
  have hat : hd ∈ f.code.heads := hr.code_eq.symm ▸ Spine.mem_heads_at k b x z hd
  obtain ⟨hw, -, -, r, type, -, -, hres, -⟩ := hf.viewed hd hat w hready.kind
  exact ⟨hw, r, .buffer type, hres, Bindings.find?_eq_none fun p hp e =>
    hf.unbound hd hat (by simp [hready.kind, OpKind.window?]) p hp (by simp [Node.defined, hres, e])⟩

include hdense

theorem length_offsets : w.offsets.length = w'.offsets.length := by
  have hinner := (Code.of_definer? hready.definer).1
  exact hdense.1.trans (hf.viewed inner (hr.code_eq.symm ▸ hinner) w' hready.innerKind).1.sizes

include hsums hsplice

theorem readable : g.Readable bindings := by
  obtain ⟨hw, r, t, hres, -⟩ := viewed_outer hr hf hready
  have hlength : offsets.length = w.offsets.length := by
    rw [hsums.length, List.length_zip, Offset.length_supply, Offset.length_supply,
      length_offsets hr hf hready hdense, min_self]
  have hin : (foldedView op (combined w offsets) source vs v result).rename (hd.redirect v) ∈
      ((y ++ .node (foldedView op (combined w offsets) source vs v result) .nil .nil).rename
        (hd.redirect v)).heads := by
    simp [Code.heads_rename, Code.heads]
  have htypev : g.bufferType? v = .ok (some result) :=
    hsplice.represents.bufferType?_eq (Spine.mem_heads_splice.2 (.inr hin)) rfl
  have htypes : ∀ e t', f.bufferType? e = .ok (some t') →
      ∃ t'', g.bufferType? (hd.redirect v e) = .ok (some t'') := by
    intro e t' he
    rw [hd.redirect_of_result hres]
    by_cases her : e = r
    · exact ⟨result, by rw [her, Function.swapped_self, htypev]⟩
    · exact ⟨t', by rw [Function.swapped_of_ne her]; exact hsplice.grows.bufferType? he⟩
  have hview : Viewed f (foldedView op (combined w offsets) source vs v result) := by
    rintro _ ⟨⟩
    exact ⟨⟨hw.sizes.trans hlength.symm, hw.strides.trans hlength.symm, hw.size_pos, hw.stride_pos⟩,
      source, vs, v, result, type, rfl, rfl, hready.source, hsums.dynamicCount⟩
  have hnested : Code.Nested
      (y ++ .node (foldedView op (combined w offsets) source vs v result) .nil .nil) :=
    Code.nested_append.2 ⟨hsums.nested, .inr rfl, trivial, trivial⟩
  refine hf.splice hr hsplice.represents hsplice.grows htypes (hnested.rename _) (fun h hh => ?_)
    fun u hu => Nat.not_lt.2 (hsplice.size_le hu)
  rw [Code.heads_rename, Code.heads_append, List.mem_map] at hh
  obtain ⟨h', hh', rfl⟩ := hh
  rcases List.mem_append.1 hh' with hh' | hh'
  · intro w₀ hkind
    have hnone := hsums.not_view hh'
    rw [show h'.kind = .subView w₀ from hkind] at hnone
    cases hnone
  · rw [List.mem_singleton.1 hh']
    exact Function.viewed_rename hview htypes

theorem found_addressed {e : ValueId} {a : AddressedElements}
    (ha : Found (addressed f e bindings) a) : Found (addressed g (hd.redirect v e) bindings) a := by
  have hg := hsplice.represents
  have hreadable := readable hr hf hready hdense hsums hsplice
  have hrank := length_offsets hr hf hready hdense
  obtain ⟨hw, r, t, hres, hunbound⟩ := viewed_outer hr hf hready
  obtain rfl : x = .nil :=
    Spine.body_eq_nil (hr.code_eq ▸ hf.nested) (by rw [hready.kind]; rfl)
  have hgrown : f.ops.size + 1 ≤ g.ops.size := by
    have hop : op ∈ ((y ++ .node (foldedView op (combined w offsets) source vs v result) .nil
        .nil).rename (hd.redirect v)).ops := by
      rw [Code.ops_rename, Code.ops_append, List.mem_append]
      exact .inr List.mem_cons_self
    refine Nat.succ_le_of_lt ((hsplice.ops op hop).trans_lt (hg.index_lt ?_))
    rw [Spine.mem_ops_plug, Code.ops_append, Code.ops_append, List.mem_append, List.mem_append]
    exact .inl (.inr (.inl hop))
  rw [Address.found_addressed hr (hf.allRanked hr)] at ha
  rw [Address.found_addressed hg (hreadable.allRanked hg)]
  have hscope : ∀ e n, bindings.find? e = some n → f.Has e := by
    intro e n he
    obtain ⟨p, hp, rfl⟩ := Bindings.mem_of_find? he
    exact hf.scope p hp
  have hview := viewAt hr hres hready hw hrank hdense.2 hsums hsplice hscope hunbound ha
  exact hview.mono (Nat.succ_le_succ hgrown) (Nat.succ_le_succ (Nat.le_of_succ_le hgrown))

theorem keepsAddresses : f.KeepsAddresses g bindings :=
  hr.keepsAddresses hsplice.represents hsplice.grows hsplice.ops fun _ _ _ _ _ =>
    found_addressed hr hf hready hdense hsums hsplice

end Splice

theorem gives_keepsAddresses (hr : f.Represents (k.plug (b ++ .node hd x z)))
    (hf : f.Readable bindings) : (Rule.viewFolding.apply f hd.op).Gives True fun g =>
      f.KeepsAddresses g bindings ∧ g.Readable bindings := by
  rw [Rule.apply, Inspect.gives_bind]
  refine (gives_check hr fun h hh w hkind => (hf.viewed h (hr.code_eq.symm ▸ hh) w hkind).2).mono ?_
  rintro - - ⟨inner, w, w', u, source, supplied, supplied', type, hready, hdense⟩
  rw [Inspect.gives_lift]
  refine (yields_perform hr hready).mono ?_
  rintro g - ⟨y, offsets, vs, op, v, result, hsums, -, hsplice⟩
  exact ⟨keepsAddresses hr hf hready hdense hsums hsplice, readable hr hf hready hdense hsums hsplice⟩

end ViewFolding

namespace Greedy

variable {f₀ : Function}

theorem keeps_addresses : Keeps (· = .overflow)
    (fun g => f₀.KeepsAddresses g bindings ∧ g.Readable bindings) [Rule.viewFolding] where
  wellFormed _ h := h.2.wellFormed
  sheds _ _ _ _ _ _ _ h hs := ⟨h.1.trans (hs.keepsAddresses h.2), hs.readable h.2⟩
  rule rule hrule _ _ _ _ _ _ h hr := by
    obtain rfl := List.mem_singleton.1 hrule
    exact ends_overflow.2 <| (ViewFolding.gives_keepsAddresses hr h.2).mono fun _ _ hstep =>
      ⟨⟨h.1.trans hstep.1, hstep.2⟩, hstep.1.grows.ops⟩

/-- Every operand of an operation that stays and that stood for some elements stands for the same. -/
def SameAddresses (f g : Function) (bindings : Bindings) : Prop :=
  ∀ op o o', f.op? op = some o → g.op? op = some o' → o.live = true → o'.live = true →
    ∀ (j : Nat) v a, o.operands[j]? = some v → (addressed f v bindings).run = .ok (.ok a) →
      ∃ v', o'.operands[j]? = some v' ∧ (addressed g v' bindings).run = .ok (.ok a)

theorem run_viewFolding_addressed {f : Function} {bindings : Bindings} (hf : f.Readable bindings)
    (maxSweeps : Nat) : (run [Rule.viewFolding] maxSweeps f).outcome = .error .overflow ∨
      ∃ g outcome, (run [Rule.viewFolding] maxSweeps f).outcome = .ok (g, outcome) ∧
        SameAddresses f g bindings := by
  have hrun := ends_overflow.1 (keeps_addresses.run maxSweeps ⟨.refl f bindings, hf⟩)
  refine hrun.cases.imp And.left ?_
  rintro ⟨⟨g, outcome⟩, hok, hkeeps, hg⟩
  refine ⟨g, outcome, hok, fun op o o' ho ho' hlive hlive' j v a hv ha => ?_⟩
  obtain ⟨h, hh, rfl, parent, region, rfl⟩ := hf.wellFormed.exists_head ho hlive
  obtain ⟨h', hh', hop, parent', region', rfl⟩ := hg.wellFormed.exists_head ho' hlive'
  have hlt : h'.op.index < f.ops.size := hop ▸ (Array.getElem?_eq_some_iff.1 ho).1
  obtain ⟨h₀, hh₀, hop₀, hops⟩ := hkeeps.operands h' hh' hlt
  obtain rfl := hf.wellFormed.eq_of_op hh₀ hh (hop₀.trans hop)
  obtain ⟨v', hv', hkept⟩ := hops j v hv
  exact ⟨v', hv', hkept a ha⟩

def stacked : Function where
  name := "stacked"
  ops := #[⟨.subView ⟨[.static 1], [10], [1]⟩, [⟨0⟩], some ⟨3⟩, none, [], [], none, true⟩,
    ⟨.subView ⟨[.dynamic], [6], [1]⟩, [⟨3⟩, ⟨2⟩], some ⟨4⟩, none, [], [], none, true⟩,
    ⟨.subView ⟨[.static 2], [2], [1]⟩, [⟨4⟩], some ⟨5⟩, none, [], [], none, true⟩,
    ⟨.copy, [⟨5⟩, ⟨1⟩], none, none, [], [], none, true⟩]
  values := #[⟨.buffer (.rowMajor [16] .float32 .global), .argument 0⟩,
    ⟨.buffer (.rowMajor [2] .float32 .global), .argument 1⟩, ⟨.index, .argument 2⟩,
    ⟨.buffer ⟨[10], .float32, .strided (some 1) [1], .global⟩, .result ⟨0⟩⟩,
    ⟨.buffer ⟨[6], .float32, .strided none [1], .global⟩, .result ⟨1⟩⟩,
    ⟨.buffer ⟨[2], .float32, .strided none [1], .global⟩, .result ⟨2⟩⟩]
  arity := 3
  body := [⟨0⟩, ⟨1⟩, ⟨2⟩, ⟨3⟩]

theorem run_viewFolding_addressed_stacked : ∃ g outcome,
    (run [Rule.viewFolding] 10 stacked).outcome = .ok (g, outcome) ∧ outcome.changes = 2 ∧
      SameAddresses stacked g [(⟨2⟩, 3)] := by
  have hreadable : stacked.Readable [(⟨2⟩, 3)] :=
    ⟨by decide +kernel, by decide +kernel, by decide +kernel, by decide +kernel, by decide +kernel⟩
  have hok : ((run [Rule.viewFolding] 10 stacked).outcome.toOption.map (·.2.changes)) = some 2 := by
    decide +kernel
  obtain ⟨⟨g, outcome⟩, hrun, hchanges⟩ := Fault.toOption_map_eq_some.1 hok
  rcases run_viewFolding_addressed hreadable 10 with hoverflow | ⟨g', outcome', hrun', hsame⟩
  · cases hrun.symm.trans hoverflow
  · obtain ⟨rfl, rfl⟩ := Prod.mk.inj (Except.ok.inj (hrun.symm.trans hrun'))
    exact ⟨g, outcome, hrun, hchanges, hsame⟩

def shown (f : Function) (v : ValueId) (bindings : Bindings) :
    Except Fault (Except EvalError (ValueId × List Int)) :=
  (addressed f v bindings).run.map fun r => r.map fun a => (a.root, a.positions.toList)

example : shown stacked ⟨5⟩ [(⟨2⟩, 3)] = .ok (.ok (⟨0⟩, [6, 7])) := by decide +kernel

theorem exists_moved {f : Function} {v v' : ValueId} (op : OpId) (o o' : Operation) (j : Nat)
    (s : ValueId × List Int) (ho : f.op? op = some o) (hlive : o.live = true)
    (hlive' : o'.live = true) (hv : o.operands[j]? = some v) (hv' : o'.operands[j]? = some v')
    (hs : shown f v bindings = .ok (.ok s))
    (hmoved : ((run [Rule.viewFolding] 10 f).outcome.toOption.map fun r =>
      decide (r.1.op? op = some o' ∧ shown r.1 v' bindings ≠ .ok (.ok s))) = some true) :
    ∃ g outcome, (run [Rule.viewFolding] 10 f).outcome = .ok (g, outcome) ∧
      ¬ SameAddresses f g bindings := by
  obtain ⟨⟨g, outcome⟩, hrun, hdecide⟩ := Fault.toOption_map_eq_some.1 hmoved
  obtain ⟨ho', hs'⟩ := of_decide_eq_true hdecide
  refine ⟨g, outcome, hrun, fun hsame => ?_⟩
  obtain ⟨r, hr, hrs⟩ := Fault.map_eq_ok.1 hs
  cases r with
  | error e => cases hrs
  | ok a =>
    obtain ⟨u, hu, ha⟩ := hsame op o o' ho ho' hlive hlive' j v a hv hr
    obtain rfl := Option.some.inj (hu.symm.trans hv')
    refine hs' ?_
    rw [shown, ha]
    exact congrArg Except.ok hrs

def Ordered (f : Function) (bindings : Bindings) : Prop :=
  f.WellFormed ∧ (∀ h ∈ f.code.heads, ViewFolding.Viewed f h) ∧ (∀ p ∈ bindings, f.Has p.1) ∧
    ∀ h ∈ f.code.heads, ∀ v ∈ h.defined, ∀ u ∈ h.operands, u.index < v.index

instance (f : Function) (bindings : Bindings) : Decidable (Ordered f bindings) :=
  inferInstanceAs (Decidable (_ ∧ _))

def farView : Function where
  name := "far"
  ops := #[⟨.subView ⟨[.static 9223372036854775806], [4], [1]⟩, [⟨0⟩], some ⟨3⟩, none, [], [], none,
      true⟩,
    ⟨.subView ⟨[.static 2], [1], [1]⟩, [⟨3⟩], some ⟨4⟩, none, [], [], none, true⟩,
    ⟨.copy, [⟨1⟩, ⟨2⟩], none, none, [], [], none, true⟩]
  values := #[⟨.buffer ⟨[8], .float32, .strided none [1], .global⟩, .argument 0⟩,
    ⟨.buffer (.rowMajor [2] .float32 .global), .argument 1⟩,
    ⟨.buffer (.rowMajor [2] .float32 .global), .argument 2⟩,
    ⟨.buffer ⟨[4], .float32, .strided none [1], .global⟩, .result ⟨0⟩⟩,
    ⟨.buffer ⟨[1], .float32, .strided none [1], .global⟩, .result ⟨1⟩⟩]
  arity := 3
  body := [⟨0⟩, ⟨1⟩, ⟨2⟩]

def boundView : Function where
  name := "bound"
  ops := #[⟨.subView ⟨[.static 1], [6], [1]⟩, [⟨0⟩], some ⟨2⟩, none, [], [], none, true⟩,
    ⟨.subView ⟨[.static 2], [4], [1]⟩, [⟨2⟩], some ⟨3⟩, none, [], [], none, true⟩,
    ⟨.subView ⟨[.dynamic], [2], [1]⟩, [⟨0⟩, ⟨3⟩], some ⟨4⟩, none, [], [], none, true⟩,
    ⟨.copy, [⟨4⟩, ⟨1⟩], none, none, [], [], none, true⟩]
  values := #[⟨.buffer (.rowMajor [8] .float32 .global), .argument 0⟩,
    ⟨.buffer (.rowMajor [2] .float32 .global), .argument 1⟩,
    ⟨.buffer ⟨[6], .float32, .strided (some 1) [1], .global⟩, .result ⟨0⟩⟩,
    ⟨.buffer ⟨[4], .float32, .strided (some 3) [1], .global⟩, .result ⟨1⟩⟩,
    ⟨.buffer ⟨[2], .float32, .strided none [1], .global⟩, .result ⟨2⟩⟩]
  arity := 2
  body := [⟨0⟩, ⟨1⟩, ⟨2⟩, ⟨3⟩]

def heldView : Function where
  name := "held"
  ops := #[⟨.subView ⟨[.static 0], [8], [1]⟩, [⟨0⟩], some ⟨2⟩, none, [⟨1⟩], [], none, true⟩,
    ⟨.subView ⟨[.static 1], [2], [1]⟩, [⟨0⟩], some ⟨3⟩, none, [], [], some ⟨0⟩, true⟩,
    ⟨.copy, [⟨3⟩, ⟨1⟩], none, none, [], [], none, true⟩]
  values := #[⟨.buffer (.rowMajor [8] .float32 .global), .argument 0⟩,
    ⟨.buffer (.rowMajor [2] .float32 .global), .argument 1⟩,
    ⟨.buffer ⟨[8], .float32, .strided (some 0) [1], .global⟩, .result ⟨0⟩⟩,
    ⟨.buffer ⟨[2], .float32, .strided (some 1) [1], .global⟩, .result ⟨1⟩⟩]
  arity := 2
  body := [⟨0⟩, ⟨2⟩]

theorem run_viewFolding_not_addressed :
    (Ordered farView [] ∧ (run [Rule.viewFolding] 10 farView).outcome = .error .overflow) ∧
    (Ordered boundView [(⟨3⟩, 1)] ∧ ∃ g outcome,
      (run [Rule.viewFolding] 10 boundView).outcome = .ok (g, outcome) ∧
        ¬ SameAddresses boundView g [(⟨3⟩, 1)]) ∧
    (Ordered heldView [] ∧ ∃ g outcome,
      (run [Rule.viewFolding] 10 heldView).outcome = .ok (g, outcome) ∧
        ¬ SameAddresses heldView g []) := by
  refine ⟨⟨by decide +kernel, by decide +kernel⟩, ⟨by decide +kernel, ?_⟩, ⟨by decide +kernel, ?_⟩⟩
  · exact exists_moved ⟨3⟩ ⟨.copy, [⟨4⟩, ⟨1⟩], none, none, [], [], none, true⟩
      ⟨.copy, [⟨4⟩, ⟨1⟩], none, none, [], [], none, true⟩ 0 (⟨0⟩, [1, 2]) rfl rfl rfl rfl rfl
      (by decide +kernel) (by decide +kernel)
  · exact exists_moved ⟨2⟩ ⟨.copy, [⟨3⟩, ⟨1⟩], none, none, [], [], none, true⟩
      ⟨.copy, [⟨3⟩, ⟨1⟩], none, none, [], [], none, true⟩ 0 (⟨0⟩, [1, 2]) rfl rfl rfl rfl rfl
      (by decide +kernel) (by decide +kernel)

end Greedy

end KernelLowering
