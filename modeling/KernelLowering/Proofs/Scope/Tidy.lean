import KernelLowering.Proofs.Arena.Check
import KernelLowering.Proofs.Arena.Spine
import KernelLowering.Proofs.Scope.Splices

namespace KernelLowering

def OpKind.isStatement : OpKind → Bool
  | kernel _ | forLoop _ | parallelLoop _ => true
  | _ => false

def Node.Plain (h : Node) : Prop := h.kind.isStatement = true → h.result = none

instance (h : Node) : Decidable h.Plain :=
  inferInstanceAs (Decidable (h.kind.isStatement = true → h.result = none))

theorem OpKind.isStatement_of_isLoop {kind : OpKind} (h : kind.isLoop = true) :
    kind.isStatement = true := by
  cases kind <;> first | rfl | cases h

namespace Code

structure Tidy (x : Code) (known : List ValueId) : Prop where
  inScope : x.Scoped known
  nested : x.Nested
  plain : ∀ h ∈ x.heads, h.Plain

namespace Tidy

variable {x y : Code} {known known' : List ValueId}

theorem nil : Code.nil.Tidy known := ⟨trivial, trivial, by simp [heads]⟩

theorem append (hx : x.Tidy known) (hy : y.Tidy (x.exports ++ known)) : (x ++ y).Tidy known where
  inScope := scoped_append.2 ⟨hx.inScope, hy.inScope⟩
  nested := nested_append.2 ⟨hx.nested, hy.nested⟩
  plain h hh := by
    rw [heads_append, List.mem_append] at hh
    exact hh.elim (hx.plain h) (hy.plain h)

theorem mono (hx : x.Tidy known) (hsub : known ⊆ known') : x.Tidy known' :=
  ⟨hx.inScope.mono hsub, hx.nested, hx.plain⟩

theorem rename {σ : ValueId → ValueId} (hx : x.Tidy known) (hknown : ∀ v ∈ known, σ v ∈ known')
    (hdef : ∀ v ∈ x.defined, σ v = v) : (x.rename σ).Tidy known' where
  inScope := hx.inScope.rename hknown hdef
  nested := hx.nested.rename σ
  plain h hh := by
    rw [heads_rename, List.mem_map] at hh
    obtain ⟨h', hh', rfl⟩ := hh
    exact hx.plain h' hh'

theorem leaf {h : Node} (hops : ∀ v ∈ h.operands, v ∈ known) (hplain : h.Plain)
    (hy : y.Tidy ((h.result.map (·.1)).toList ++ known)) : (Code.node h .nil y).Tidy known where
  inScope := ⟨hops, trivial, hy.inScope⟩
  nested := ⟨.inr rfl, trivial, hy.nested⟩
  plain := by
    simp only [heads, List.nil_append, List.forall_mem_cons]
    exact ⟨hplain, hy.plain⟩

theorem value {op : OpId} {kind : OpKind} {operands : List ValueId} {v : ValueId} {t : ValueType}
    (hops : ∀ u ∈ operands, u ∈ known) (hkind : kind.isStatement = false)
    (hy : y.Tidy (v :: known)) : (Code.node (.value op kind operands v t) .nil y).Tidy known :=
  leaf hops (fun h => by rw [show (Node.value op kind operands v t).kind = kind from rfl, hkind] at h
                         cases h) hy

theorem effect {op : OpId} {kind : OpKind} {operands : List ValueId} {marker : Option Stage}
    (hops : ∀ u ∈ operands, u ∈ known) (hy : y.Tidy known) :
    (Code.node (.effect op kind operands marker) .nil y).Tidy known :=
  leaf hops (fun _ => rfl) hy

theorem loop {op : OpId} {kind : OpKind} {vars : List ValueId} (hkind : kind.isLoop = true)
    (hx : x.Tidy (vars ++ known)) (hy : y.Tidy known) :
    (Code.node (.loop op kind vars) x y).Tidy known where
  inScope := ⟨by simp [Node.loop], hx.inScope, hy.inScope⟩
  nested := ⟨.inl hkind, hx.nested, hy.nested⟩
  plain := by
    simp only [heads, List.forall_mem_cons, List.forall_mem_append]
    exact ⟨fun _ => rfl, hx.plain, hy.plain⟩

end Tidy

end Code

namespace Function

variable {f g : Function} {k : Spine} {b x y z : Code} {hd : Node}

/-- A function whose code can stand alone. -/
structure Tidy (f : Function) : Prop where
  wellFormed : f.WellFormed
  code : f.code.Tidy f.arguments

theorem tidy_iff : f.Tidy ↔ f.WellFormed ∧ f.Scoped ∧ f.code.Nested ∧ ∀ h ∈ f.code.heads, h.Plain :=
  ⟨fun h => ⟨h.1, h.2.1, h.2.2, h.2.3⟩, fun ⟨h₁, h₂, h₃, h₄⟩ => ⟨h₁, h₂, h₃, h₄⟩⟩

instance (f : Function) : Decidable f.Tidy := decidable_of_iff _ tidy_iff.symm

theorem Represents.tidy_redirect {w : ValueId} (hr : f.Represents (k.plug (b ++ .node hd x z)))
    (hsplice : Splice f g (k.rename (hd.redirect w)) (b.rename (hd.redirect w))
      (y.rename (hd.redirect w)) (z.rename (hd.redirect w)))
    (hy : y.Tidy (k.knownBehind b f.arguments)) :
    (y.rename (hd.redirect w)).Tidy (k.knownBehind b f.arguments) := by
  refine hy.rename (fun v hv => ?_) fun v hv => hd.redirect_of_not_mem (fun hd' => ?_) w
  · rwa [hd.redirect_of_not_mem (fun hd' => hr.not_known hd' hv) w]
  · have hle := hsplice.size_le (v := v) (by rwa [Code.defined_rename])
    have hlt : f.Has v := hr.has_of_mem
      (List.mem_flatMap.2 ⟨hd, Spine.mem_heads_at k b x z hd, hd'⟩)
    exact Nat.lt_irrefl _ (Nat.lt_of_lt_of_le hlt hle)

namespace Tidy

theorem inScope (h : f.Tidy) : f.Scoped := h.code.inScope

theorem represented (h : f.Tidy) {c : Code} (hr : f.Represents c) : c.Tidy f.arguments :=
  hr.code_eq ▸ h.code

theorem plain_at (h : f.Tidy) (hr : f.Represents (k.plug (b ++ .node hd x z))) : hd.Plain :=
  (h.represented hr).plain hd (Spine.mem_heads_at k b x z hd)

theorem body_eq_nil (h : f.Tidy) (hr : f.Represents (k.plug (b ++ .node hd x z)))
    (hkind : hd.kind.isLoop = false) : x = .nil :=
  Spine.body_eq_nil (h.represented hr).nested hkind

theorem everywhere (h : f.Tidy) {c : Code} (hr : f.Represents c) :
    c.Everywhere (fun h known => ∀ v ∈ h.operands, v ∈ known) f.arguments :=
  Code.scoped_iff_everywhere.1 (h.represented hr).inScope

theorem known_operand (h : f.Tidy) (hr : f.Represents (k.plug (b ++ .node hd x z))) {v : ValueId}
    (hv : v ∈ hd.operands) : v ∈ k.knownBehind b f.arguments :=
  (Spine.everywhere_at.1 (h.everywhere hr)).2.2.1 v hv

theorem body_at (h : f.Tidy) (hr : f.Represents (k.plug (b ++ .node hd x z))) :
    x.Tidy (hd.inductionVars ++ k.knownBehind b f.arguments) where
  inScope := Code.scoped_iff_everywhere.2 (Spine.everywhere_at.1 (h.everywhere hr)).2.2.2.1
  nested := Spine.nested_body (h.represented hr).nested
  plain h' hh' := (h.represented hr).plain h' (Spine.mem_heads_node.2 (.inr (.inl hh')))

theorem operands_of_definer (h : f.Tidy) (hr : f.Represents (k.plug (b ++ .node hd x z))) {hd' : Node}
    {v : ValueId} {t : ValueType} (hh : hd' ∈ (k.plug (b ++ .node hd x z)).heads)
    (hres : hd'.result = some (v, t)) (hv : v ∈ k.knownBehind b f.arguments) :
    ∀ u ∈ hd'.operands, u ∈ k.knownBehind b f.arguments := by
  obtain ⟨l, hl, hsub⟩ := hr.of_known (h.everywhere hr) hh hres hv
  exact fun u hu => hsub (hl u hu)

theorem splice {σ : ValueId → ValueId} (h : f.Tidy)
    (hr : f.Represents (k.plug (b ++ .node hd x z)))
    (hg : g.Represents ((k.rename σ).plug (b.rename σ ++ (y ++ z.rename σ))))
    (harity : g.arity = f.arity) (hσ : ∀ v, v ∉ hd.defined → f.Has v → σ v = v)
    (hy : y.Tidy (k.knownBehind b f.arguments))
    (hres : ∀ v t, hd.result = some (v, t) → (∃ h ∈ (k.plug (b ++ z)).heads, v ∈ h.operands) →
      σ v ∈ y.exports ++ k.knownBehind b f.arguments) : g.Tidy := by
  have hcode := h.represented hr
  refine tidy_iff.2 ⟨hg.wellFormed, h.inScope.splice hr hg harity hσ hy.inScope hres, ?_, ?_⟩
  · rw [hg.code_eq]
    exact (Spine.nested_splice hcode.nested).2 σ y hy.nested
  · rw [hg.code_eq]
    intro h' hh'
    rcases Spine.mem_heads_splice.1 hh' with ⟨h'', hh'', rfl⟩ | hh'
    · exact hcode.plain h'' (Spine.mem_heads_around hh'' hd x)
    · exact hy.plain h' hh'

theorem emit (h : f.Tidy) (hr : f.Represents (k.plug (b ++ .node hd x z)))
    (hsplice : Splice f g k b y z) (hres : hd.result = none)
    (hy : y.Tidy (k.knownBehind b f.arguments)) : g.Tidy := by
  refine h.splice (σ := id) hr (by simpa using hsplice.represents) hsplice.grows.arity
    (fun _ _ _ => rfl) hy fun v t hv => ?_
  rw [hres] at hv
  cases hv

theorem replace {w : ValueId} (h : f.Tidy) (hr : f.Represents (k.plug (b ++ .node hd x z)))
    (hsplice : Splice f g (k.rename (hd.redirect w)) (b.rename (hd.redirect w))
      (y.rename (hd.redirect w)) (z.rename (hd.redirect w)))
    (hy : y.Tidy (k.knownBehind b f.arguments))
    (hw : w ∈ y.exports ++ k.knownBehind b f.arguments) : g.Tidy := by
  refine h.splice hr hsplice.represents hsplice.grows.arity
    (fun v hv _ => hd.redirect_of_not_mem hv w) (hr.tidy_redirect hsplice hy) fun v t hres _ => ?_
  rw [Code.exports_rename, hd.redirect_of_result hres, swapped_self]
  exact hw

theorem shed (h : f.Tidy) (hs : f.Sheds g k b x z hd) : g.Tidy := by
  refine h.splice (σ := id) (y := .nil) hs.before (by simpa using hs.after) hs.same.arity
    (fun _ _ _ => rfl) .nil fun v t hres hused => ?_
  obtain ⟨h', hh', hv⟩ := hused
  exact absurd hv (hs.unused v (by simp [Node.defined, hres]) h' (Spine.mem_heads_around hh' hd x))

end Tidy

end Function

theorem Code.Scoped.pairwise {x : Code} {known : List ValueId} (hx : x.Scoped known)
    (hnd : x.defined.Nodup) (hdis : x.defined.Disjoint known) :
    x.heads.Pairwise fun h later => ∀ v ∈ h.operands, v ∉ later.defined := by
  induction x generalizing known with
  | nil => exact .nil
  | node h body rest ihb ihr =>
    obtain ⟨hops, hbody, hrest⟩ := hx
    rw [defined_node, Node.defined] at hnd hdis
    obtain ⟨-, hnd', hhead⟩ := List.nodup_append'.1 hnd
    obtain ⟨hndb, hndr, hapart⟩ := List.nodup_append'.1 hnd'
    simp only [List.disjoint_append_left, List.disjoint_append_right] at hdis hhead
    obtain ⟨⟨-, -⟩, hdisb, hdisr⟩ := hdis
    refine List.pairwise_cons.2 ⟨fun later hl v hv hdef => ?_, List.pairwise_append.2
      ⟨ihb hbody hndb (List.disjoint_append_right.2 ⟨hhead.1.2.symm, hdisb⟩),
        ihr hrest hndr (List.disjoint_append_right.2 ⟨hhead.2.1.symm, hdisr⟩),
          fun h' hh' later hl v hv hdef => ?_⟩⟩
    · rcases List.mem_append.1 hl with hl | hl
      · exact hdisb (List.mem_flatMap.2 ⟨later, hl, hdef⟩) (hops v hv)
      · exact hdisr (List.mem_flatMap.2 ⟨later, hl, hdef⟩) (hops v hv)
    · have hlater : v ∈ rest.defined := List.mem_flatMap.2 ⟨later, hl, hdef⟩
      rcases List.mem_append.1 (hbody.mem_operands hh' hv) with hin | hin
      · exact hapart hin hlater
      · rcases List.mem_append.1 hin with hin | hin
        · exact hhead.2.2 hin hlater
        · exact hdisr hlater hin

namespace Function

variable {f : Function} {k : Spine} {b x z c : Code} {hd h : Node} {v : ValueId}

structure Forward (f : Function) : Prop where
  wellFormed : f.WellFormed
  nested : f.code.Nested
  has : ∀ h ∈ f.code.heads, ∀ v ∈ h.operands, f.Has v
  apart : ∀ h ∈ f.code.heads, ∀ v ∈ h.operands, v ∉ h.defined
  pairwise : f.code.heads.Pairwise fun h later => ∀ v ∈ h.operands, v ∉ later.defined

theorem WellFormed.forward (hwf : f.WellFormed) (hs : f.Scoped) (hnested : f.code.Nested) : f.Forward where
  wellFormed := hwf
  nested := hnested
  has h hh v hv := by
    rcases List.mem_append.1 (hs.mem_operands hh hv) with hdef | harg
    · exact Represents.has_of_mem hwf hdef
    · obtain ⟨t, ht⟩ := Represents.argument hwf (mem_arguments.1 harg)
      exact (Array.getElem?_eq_some_iff.1 ht).1
  apart h hh v hv hdef := by
    obtain ⟨k, b, hd, x, z, he, hc⟩ := hwf.exists_at (Represents.isLive_eq hwf hh)
    have hr : f.Represents (k.plug (b ++ .node hd x z)) := hc ▸ hwf
    obtain rfl := Represents.eq_of_op hwf (hc ▸ Spine.mem_heads_at k b x z hd) hh he
    have hscoped : (k.plug (b ++ .node hd x z)).Scoped f.arguments := hc ▸ show f.code.Scoped _ from hs
    exact hr.not_known hdef
      ((Spine.everywhere_at.1 (Code.scoped_iff_everywhere.1 hscoped)).2.2.1 v hv)
  pairwise := hs.pairwise (Represents.nodup_defined hwf) fun _ hv hargs =>
    Represents.not_argument hwf hv (mem_arguments.1 hargs)

theorem Tidy.forward (h : f.Tidy) : f.Forward :=
  h.wellFormed.forward h.inScope h.code.nested

namespace Forward

variable (hf : f.Forward) (hr : f.Represents (k.plug (b ++ .node hd x z)))

include hf hr

theorem has_at (hh : h ∈ (k.plug (b ++ .node hd x z)).heads) (hv : v ∈ h.operands) : f.Has v :=
  hf.has h (hr.code_eq ▸ hh) v hv

theorem not_defined_behind (hh : h ∈ k.before b) (hv : v ∈ h.operands) :
    v ∉ hd.defined ∧ v ∉ x.defined := by
  have hpairs := hr.code_eq ▸ hf.pairwise
  rw [Spine.heads_at, List.pairwise_append] at hpairs
  obtain ⟨-, -, hacross⟩ := hpairs
  refine ⟨hacross h hh hd List.mem_cons_self v hv, fun hx => ?_⟩
  obtain ⟨later, hl, hdef⟩ := List.mem_flatMap.1 hx
  exact hacross h hh later (List.mem_cons_of_mem _ (List.mem_append_left _ hl)) v hv hdef

end Forward

end Function

end KernelLowering
