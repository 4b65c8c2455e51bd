import KernelLowering.Lowering.Plan
import KernelLowering.Proofs.Convergence.Checks
import KernelLowering.Proofs.Convergence.Layers
import KernelLowering.Proofs.Convergence.Sweeps
import KernelLowering.Proofs.Scope.Runs

namespace KernelLowering

structure Node.Advances (source target : Stage) (operands : List ValueId) (hs : List Node)
    (h : Node) : Prop where
  window : h.kind.window?.isSome = true → ∃ u r, h.operands.head? = some u ∧ h.result = some r ∧
    (u ∈ operands ∧ source.depth < target.depth ∨
      0 < target.depth ∧ ∃ m ∈ hs, m.kind.window? = none ∧ m.result.map (·.1) = some u)
  kernel : h.kind.kernel?.isSome = true → h.marker = some target ∧ ∀ v ∈ h.operands,
    v ∈ operands ∨ ∃ m ∈ hs, m.result.map (·.1) = some v
  view : h.kind = .view → ∃ a ∈ hs, a.kind = .alloc ∧ h.On a

namespace Node.Advances

variable {source target : Stage} {operands : List ValueId} {hs hs' : List Node} {h : Node}

theorem made_mono {v : ValueId} (hsub : hs ⊆ hs')
    (h : v ∈ operands ∨ ∃ m ∈ hs, m.result.map (·.1) = some v) :
    v ∈ operands ∨ ∃ m ∈ hs', m.result.map (·.1) = some v := by
  rcases h with h | ⟨m, hm, hr⟩
  · exact .inl h
  · exact .inr ⟨m, hsub hm, hr⟩

theorem mono (hsub : hs ⊆ hs') (ha : h.Advances source target operands hs) :
    h.Advances source target operands hs' where
  window hw := by
    obtain ⟨u, r, hu, hr, hcase⟩ := ha.window hw
    refine ⟨u, r, hu, hr, hcase.imp_right ?_⟩
    rintro ⟨hpos, m, hm, h'⟩
    exact ⟨hpos, m, hsub hm, h'⟩
  kernel hk := by
    obtain ⟨hmarker, hops⟩ := ha.kernel hk
    exact ⟨hmarker, fun v hv => made_mono hsub (hops v hv)⟩
  view hv := by
    obtain ⟨a, ha, h'⟩ := ha.view hv
    exact ⟨a, hsub ha, h'⟩

theorem append (h₁ : ∀ h ∈ hs, h.Advances source target operands hs)
    (h₂ : ∀ h ∈ hs', h.Advances source target operands hs') :
    ∀ h ∈ hs ++ hs', h.Advances source target operands (hs ++ hs') :=
  List.forall_mem_append.2 ⟨fun h hh => (h₁ h hh).mono (List.subset_append_left _ _),
    fun h hh => (h₂ h hh).mono (List.subset_append_right _ _)⟩

theorem of_other (hw : h.kind.window? = none) (hk : h.kind.kernel? = none) (hv : h.kind ≠ .view) :
    h.Advances source target operands hs :=
  ⟨fun hs => by simp [hw] at hs, fun hs => by simp [hk] at hs, fun hs => (hv hs).elim⟩

theorem of_loop (hl : h.kind.isLoop = true) : h.Advances source target operands hs := by
  cases hk : h.kind with
  | forLoop | parallelLoop => exact .of_other (by rw [hk]; rfl) (by rw [hk]; rfl) (by simp [hk])
  | _ => simp [hk, OpKind.isLoop] at hl

end Node.Advances

namespace Tiling

variable {vars : LoopVars} {nest : Nest} {y : Code} {source target : Stage}

theorem OperandOf.advances {operand v : ValueId} {type : BufferType} {map : OperandMap}
    {operands : List ValueId} (h : OperandOf nest vars operand type map y v)
    (hoperand : operand ∈ operands) (hdepth : source.depth < target.depth) :
    (∀ h ∈ y.heads, h.Advances source target operands y.heads) ∧
      (v ∈ operands ∨ ∃ m ∈ y.heads, m.result.map (·.1) = some v) := by
  cases h with
  | whole => exact ⟨by simp [Code.heads], .inl hoperand⟩
  | window op hoffsets =>
    rw [Code.heads_append]
    refine ⟨Node.Advances.append (fun h hh => ?_) (List.forall_mem_singleton.2 ?_), .inr ?_⟩
    · obtain ⟨op, terms, v, rfl⟩ := hoffsets.eq_value h hh
      exact .of_other rfl rfl (by cases ·)
    · exact ⟨fun _ => ⟨operand, _, rfl, rfl, .inl ⟨hoperand, hdepth⟩⟩, fun hk => (by cases hk),
        fun hv => (by cases hv)⟩
    · exact ⟨_, List.mem_append_right _ (List.mem_singleton_self _), rfl⟩

theorem OperandsOf.advances {all : List (ValueId × BufferType × OperandMap)} {vs : List ValueId}
    {operands : List ValueId} (h : OperandsOf nest vars all y vs) (hall : ∀ x ∈ all, x.1 ∈ operands)
    (hdepth : source.depth < target.depth) :
    (∀ h ∈ y.heads, h.Advances source target operands y.heads) ∧
      ∀ v ∈ vs, v ∈ operands ∨ ∃ m ∈ y.heads, m.result.map (·.1) = some v := by
  induction h with
  | nil => simp [Code.heads]
  | cons hfirst _ ih =>
    rw [List.forall_mem_cons] at hall
    obtain ⟨hy, hv⟩ := hfirst.advances hall.1 hdepth
    obtain ⟨hy', hvs⟩ := ih hall.2
    rw [Code.heads_append]
    refine ⟨Node.Advances.append hy hy', List.forall_mem_cons.2 ⟨?_, fun v hv => ?_⟩⟩
    · exact Node.Advances.made_mono (List.subset_append_left _ _) hv
    · exact Node.Advances.made_mono (List.subset_append_right _ _) (hvs v hv)

variable {t : Tiling} {plan : TilePlan} {operands : List ValueId}
  (hdepth : t.guard.current.depth < t.guard.next.depth)

include hdepth

theorem NestOf.advances (h : NestOf t plan operands nest y) :
    ∀ h ∈ y.heads, h.Advances t.guard.current t.guard.next operands y.heads := by
  cases h with
  | @intro loops vars y tiled op hloops htiled _ =>
    obtain ⟨hy, hvs⟩ := htiled.advances
      (fun x hx => show x.1 ∈ operands from (List.of_mem_zip hx).1) hdepth
    rw [Code.heads_within, Code.heads_append]
    refine Node.Advances.append (fun h hh => ?_) ?_
    · obtain ⟨op, kind, vars, hkind, rfl⟩ := hloops.isLoopNode h hh
      exact .of_loop hkind
    · refine List.forall_mem_append.2
        ⟨fun h hh => (hy h hh).mono (List.subset_append_left _ _), List.forall_mem_singleton.2 ?_⟩
      refine ⟨fun hw => (by cases hw), fun _ => ⟨rfl, fun v hv => ?_⟩, fun hv => (by cases hv)⟩
      exact Node.Advances.made_mono (List.subset_append_left _ _) (hvs v hv)

theorem NestsOf.advances {ns : List Nest} (h : NestsOf t plan operands ns y) :
    ∀ h ∈ y.heads, h.Advances t.guard.current t.guard.next operands y.heads := by
  induction h with
  | nil => simp [Code.heads]
  | cons hfirst _ ih =>
    rw [Code.heads_append]
    exact Node.Advances.append (hfirst.advances hdepth) ih

end Tiling

namespace Promotion

variable {p : Promotion} {y : Code} {operands : List ValueId} {source target : Stage}

theorem TileOf.advances {type : BufferType} {buffer tile : ValueId} (h : TileOf p type y buffer tile)
    (source : Stage) (operands : List ValueId) (hdepth : 0 < target.depth) :
    (∀ h ∈ y.heads, h.Advances source target operands y.heads) ∧
      ∃ m ∈ y.heads, m.result.map (·.1) = some tile := by
  cases h with
  | placed op v =>
    exact ⟨List.forall_mem_singleton.2 (.of_other rfl rfl (by simp [Node.value])), _,
      List.mem_singleton_self _, rfl⟩
  | @viewed size result op op' op'' v v' v'' =>
    simp only [Code.heads, List.nil_append, List.forall_mem_cons, List.not_mem_nil, false_imp_iff,
      implies_true, and_true]
    refine ⟨⟨.of_other rfl rfl (by simp [Node.value]), ?_, ?_⟩, _,
      List.mem_cons_of_mem _ (List.mem_cons_of_mem _ (List.mem_singleton_self _)), rfl⟩
    · refine ⟨fun hw => (by cases hw), fun hk => (by cases hk), fun _ => ⟨_, List.mem_cons_self, rfl, ?_⟩⟩
      exact ⟨buffer, rfl, rfl⟩
    · exact ⟨fun _ => ⟨v', _, rfl, rfl,
          .inr ⟨hdepth, _, List.mem_cons_of_mem _ List.mem_cons_self, rfl, rfl⟩⟩,
        fun hk => (by cases hk), fun hv => (by cases hv)⟩

theorem TilesOf.advances {tiles : List (Nat × BufferType)} {operands' buffers promoted : List ValueId}
    (h : TilesOf p tiles operands' y buffers promoted) (source : Stage) (operands : List ValueId)
    (hdepth : 0 < target.depth) : (∀ h ∈ y.heads, h.Advances source target operands y.heads) ∧
      ∀ v ∈ promoted, v ∈ operands' ∨ ∃ m ∈ y.heads, m.result.map (·.1) = some v := by
  induction h with
  | nil => simp [Code.heads]
  | cons hfirst _ ih =>
    obtain ⟨hy, m, hm, hr⟩ := hfirst.advances source operands hdepth
    rw [Code.heads_append]
    refine ⟨Node.Advances.append hy ih.1, fun v hv => ?_⟩
    rcases ih.2 v hv with hv | ⟨m, hm, hr⟩
    · refine (List.mem_or_eq_of_mem_set hv).imp_right ?_
      rintro rfl
      exact ⟨m, List.mem_append_left _ hm, hr⟩
    · exact .inr ⟨m, List.mem_append_right _ hm, hr⟩

theorem PromotedOf.advances {positions : List Nat} {tiles : List (Nat × BufferType)}
    (h : PromotedOf p operands positions tiles y) (hdepth : 0 < p.guard.next.depth) :
    ∀ h ∈ y.heads, h.Advances p.guard.current p.guard.next operands y.heads := by
  cases h with
  | intro htiles hactions =>
    obtain ⟨hy, hpromoted⟩ := htiles.advances p.guard.current operands hdepth
    rw [Code.heads_append]
    refine List.forall_mem_append.2 ⟨fun h hh => (hy h hh).mono (List.subset_append_left _ _), ?_⟩
    intro h hh
    obtain ⟨op, a, ha, rfl⟩ := hactions.exists_action h hh
    rcases cases_of_mem_actions ha with ⟨hkind | hkind, -⟩ | rfl
    · exact .of_other (by simp [Node.effect, hkind, OpKind.window?])
        (by simp [Node.effect, hkind, OpKind.kernel?]) (by simp [Node.effect, hkind])
    · exact .of_other (by simp [Node.effect, hkind, OpKind.window?])
        (by simp [Node.effect, hkind, OpKind.kernel?]) (by simp [Node.effect, hkind])
    · refine ⟨fun hw => (by cases hw), fun _ => ⟨rfl, fun v hv => ?_⟩, fun hv => (by cases hv)⟩
      exact Node.Advances.made_mono (List.subset_append_left _ _) (hpromoted v hv)

end Promotion

namespace Function

variable {f g : Function} {k : Spine} {b x z : Code} {hd : Node} {new : List Node}
  {source target : Stage}

namespace Replaces

variable {rank : ValueId → Nat} (h : f.Replaces g k b x z id new)
  (hhas : ∀ v ∈ hd.operands, f.Has v) (hrank : ∀ v ∈ hd.operands, rank v ≤ source.depth)
  (hnew : ∀ n ∈ new, n.Advances source target hd.operands new)

include h hhas hrank hnew

theorem rankIn_new {n : Node} {v : ValueId} (hn : n ∈ new) (hmakes : n.result.map (·.1) = some v) :
    f.rankIn g rank v ≤ target.depth ∧ (n.kind.window?.isSome = true → ∀ u ∈ n.operands.head?,
      f.rankIn g rank u < f.rankIn g rank v) := by
  obtain ⟨⟨v, t⟩, hres, rfl⟩ := Option.map_eq_some_iff.1 hmakes
  have hfresh : ∀ {m : Node} {u : ValueId} {t : ValueType}, m ∈ new → m.result = some (u, t) →
      ¬ f.Has u := fun hm hr => h.values _ hm _ (by simp [Node.defined, hr])
  cases hw : n.kind.window? with
  | none =>
    rw [rankIn_of_other h.wellFormed (hfresh hn hres) (h.mem_new hn) (by simp [Node.defined, hres]) hw]
    exact ⟨Nat.zero_le _, fun hs => by cases hs⟩
  | some w =>
    obtain ⟨u, -, hu, -, hcase⟩ := (hnew n hn).window (by rw [hw]; rfl)
    rw [rankIn_of_window h.wellFormed (hfresh hn hres) (h.mem_new hn) hres (by rw [hw]; rfl) hu, hu]
    rcases hcase with ⟨hu, hlt⟩ | ⟨hpos, m, hm, hw', hmade⟩
    · have hle := hrank u hu
      rw [rankBelow_of_has (hhas u hu)]
      refine ⟨by omega, fun _ u' hu' => ?_⟩
      cases hu'
      rw [rankIn_of_has (hhas u hu)]
      exact Nat.lt_succ_self _
    · obtain ⟨⟨u, t'⟩, hr, rfl⟩ := Option.map_eq_some_iff.1 hmade
      rw [rankBelow_of_not_has (hfresh hm hr)]
      refine ⟨hpos, fun _ u' hu' => ?_⟩
      cases hu'
      rw [rankIn_of_other h.wellFormed (hfresh hm hr) (h.mem_new hm) (by simp [Node.defined, hr]) hw']
      exact Nat.one_pos

theorem ranked_new (hdepth : source.depth ≤ target.depth) {n : Node} (hn : n ∈ new) :
    n.Ranked (f.rankIn g rank) where
  view hw u hu r hr := by
    obtain ⟨hle, hlt⟩ := h.rankIn_new hhas hrank hnew hn (v := r.1) (by rw [hr]; rfl)
    exact ⟨hlt hw u hu, hle.trans target.depth_le⟩
  kernel hk stage hstage v hv := by
    obtain ⟨hmarker, hops⟩ := (hnew n hn).kernel hk
    obtain rfl : target = stage := by simpa [hmarker] using hstage
    rcases hops v hv with hv | ⟨m, hm, hr⟩
    · rw [rankIn_of_has (hhas v hv)]
      exact (hrank v hv).trans hdepth
    · exact (h.rankIn_new hhas hrank hnew hm hr).1

end Replaces

theorem Replaces.layered_of_advances (h : f.Replaces g k b x z id new)
    (hr : f.Represents (k.plug (b ++ .node hd x z))) (hl : Layered (k.plug (b ++ .node hd x z)).heads)
    (hhas : ∀ h' ∈ (k.plug (b ++ .node hd x z)).heads, ∀ v ∈ h'.operands, f.Has v)
    (hkind : hd.kind.kernel?.isSome = true) (hmarker : hd.marker = some source) (hx : x = .nil)
    (hdepth : source.depth ≤ target.depth)
    (hnew : ∀ n ∈ new, n.Advances source target hd.operands new) : Layered g.code.heads := by
  subst hx
  have hhd := Spine.mem_heads_at k b .nil z hd
  refine h.layered_of_fixed hr hl hhas (fun rank hrank n hn => ?_) (fun _ _ => rfl)
    (fun _ _ v _ hne => (hne rfl).elim) (fun _ _ _ halloc => ?_) (fun v hv => by cases hv)
    fun n hn hview => (hnew n hn).view hview
  · exact h.ranked_new (hhas hd hhd)
      ((hrank.ranked hd hhd).kernel hkind source hmarker) hnew hdepth hn
  · rw [halloc] at hkind
    cases hkind

end Function

end KernelLowering
