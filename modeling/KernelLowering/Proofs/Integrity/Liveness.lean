import Mathlib.Data.Set.Card
import Mathlib.Order.WellFoundedSet
import KernelLowering.Proofs.Integrity.Histories

namespace KernelLowering

def Operation.among (kept : List OpId) (op : OpId) (o : Operation) : Operation :=
  if o.live = false then o
  else if op ∈ kept then { o with region := o.region.filter (· ∈ kept) }
  else { o with live := false, region := [] }

theorem Operation.among_among {kept kept' : List OpId} (h : kept' ⊆ kept) (op : OpId)
    (o : Operation) : (o.among kept op).among kept' op = o.among kept' op := by
  have hregion : (o.region.filter (· ∈ kept)).filter (· ∈ kept') = o.region.filter (· ∈ kept') := by
    rw [List.filter_filter]
    exact List.filter_congr fun x _ => by simpa using fun hx => h hx
  cases hlive : o.live with
  | false => simp [among, hlive]
  | true =>
    by_cases hop : op ∈ kept
    · simp [among, hlive, hop, hregion]
    · have hop' : op ∉ kept' := fun hop' => hop (h hop')
      simp [among, hlive, hop, hop']

namespace Spine

variable (k : Spine) (b x z : Code) (hd : Node)

theorem ops_perm_node :
    (k.plug (b ++ .node hd x z)).ops.Perm ((hd.op :: x.ops) ++ (k.plug (b ++ z)).ops) := by
  refine (k.ops_plug _).trans (.trans ?_ ((k.ops_plug _).symm.append_left _))
  rw [List.perm_iff_count]
  intro op
  simp only [Code.ops_append, Code.ops, List.count_append, List.count_cons]
  omega

theorem ops_sublist_node : (k.plug (b ++ z)).ops.Sublist (k.plug (b ++ .node hd x z)).ops := by
  rw [Code.ops_eq_map_heads, Code.ops_eq_map_heads, heads_plug_eq, heads_plug_eq, Code.heads_append,
    Code.heads_append, Code.heads]
  refine .map _ (((List.Sublist.append_left ?_ _).append_right _).append_left _)
  exact (List.sublist_append_right _ _).trans (List.sublist_cons_self _ _)

end Spine

namespace Function

variable {f g g' : Function} {c : Code} {k : Spine} {b x z : Code} {hd : Node} {op : OpId}

/-- Operations have left, each from the region that held it; the others stand in their order, with
their parents, operands and markers, and what is not live is not touched. -/
structure Thins (f g : Function) : Prop where
  same : f.SameValues g
  order : g.walk.Sublist f.walk
  body : g.body = f.body.filter (· ∈ g.walk)
  op : ∀ op, g.op? op = (f.op? op).map (·.among g.walk op)

namespace Thins

theorem trans (h : f.Thins g) (h' : g.Thins g') : f.Thins g' where
  same := h.same.trans h'.same
  order := h'.order.trans h.order
  body := by
    rw [h'.body, h.body, List.filter_filter]
    exact List.filter_congr fun x _ => by simpa using fun hx => h'.order.subset hx
  op op := by
    rw [h'.op, h.op, Option.map_map]
    exact congrArg (Option.map · (f.op? op)) (funext fun o =>
      Operation.among_among h'.order.subset op o)

end Thins

theorem Represents.among_eq_self (hr : f.Represents c) {o : Operation} (ho : f.op? op = some o) :
    o.among c.ops op = o := by
  cases hlive : o.live with
  | false => simp [Operation.among, hlive]
  | true =>
    have hmem := hr.live ho hlive
    have hregion : o.region.filter (· ∈ c.ops) = o.region :=
      List.filter_eq_self.2 fun op' hop' => by simpa using hr.region_subset hmem ho hop'
    simp only [Operation.among, hlive, Bool.true_eq_false, if_false, hmem, if_true, hregion]
    rw [← hlive]

theorem WellFormed.thins_refl (h : f.WellFormed) : f.Thins f := by
  have hr : f.Represents f.code := h
  refine ⟨.refl f, .refl _, ?_, fun op => ?_⟩
  · rw [hr.walk_eq, hr.body]
    exact (List.filter_eq_self.2 fun op hop => by simpa using Code.mem_ops_of_mem_roots hop).symm
  · rw [hr.walk_eq]
    cases ho : f.op? op with
    | none => rfl
    | some o => rw [Option.map_some, hr.among_eq_self ho]

section Leaving

variable (hr : f.Represents (k.plug (b ++ .node hd x z)))

include hr

theorem Represents.gone (hop : op ∈ hd.op :: x.ops) : op ∉ (k.plug (b ++ z)).ops :=
  (List.nodup_append'.1 ((Spine.ops_perm_node k b x z hd).nodup_iff.1 hr.nodup)).2.2 hop

theorem Represents.roots_left :
    (b ++ .node hd x z).roots.filter (· ∈ (k.plug (b ++ z)).ops) = (b ++ z).roots := by
  have hself := hr.gone List.mem_cons_self
  have hrest : ∀ op ∈ (b ++ z).roots, op ∈ (k.plug (b ++ z)).ops := fun op hop =>
    Spine.mem_ops_plug.2 (.inl (Code.mem_ops_of_mem_roots hop))
  rw [Code.roots_append, List.forall_mem_append] at hrest
  rw [Code.roots_append, Code.roots_append, List.filter_append, Code.roots,
    List.filter_cons_of_neg (by simpa using hself),
    List.filter_eq_self.2 (by simpa using hrest.1), List.filter_eq_self.2 (by simpa using hrest.2)]

theorem Represents.op?_without (op : OpId) :
    (f.without k.parent (b ++ z).roots (hd.op :: x.ops)).op? op =
      (f.op? op).map (·.among (k.plug (b ++ z)).ops op) := by
  have hg := hr.without
  cases ho : f.op? op with
  | none => simpa [ho] using (sameValues_without f k.parent (b ++ z).roots (hd.op :: x.ops)).result op
  | some o =>
    rw [Option.map_some]
    by_cases hop : op ∈ hd.op :: x.ops
    · have hin : op ∈ (b ++ .node hd x z).ops := by
        simp only [Code.ops_append, Code.ops, List.mem_append, List.mem_cons] at hop ⊢
        tauto
      obtain ⟨o', ho', hlive⟩ := hr.holds.2.live hin
      obtain rfl : o = o' := Option.some.inj (ho.symm.trans ho')
      rw [Function.without, op?_foldl_retire, if_pos hop,
        op?_setRegion_of_ne fun hp => hr.parent_not_mem hp hin, ho]
      simp [Operation.among, hlive, hr.gone hop]
    · by_cases hp : k.parent = some op
      · have hmem {y : Code} : op ∈ (k.plug y).ops :=
          Spine.mem_ops_plug.2 (.inr (Spine.parent_mem_ops hp))
        obtain ⟨o', ho', hlive⟩ := hr.places.live hmem
        obtain rfl : o = o' := Option.some.inj (ho.symm.trans ho')
        have hregion := hr.holds.1.region
        rw [hp, region, op_eq_ok.2 ho] at hregion
        have hleft : o.region.filter (· ∈ (k.plug (b ++ z)).ops) = (b ++ z).roots :=
          (Except.ok.inj hregion : o.region = _) ▸ hr.roots_left
        rw [Function.without, op?_foldl_retire, if_neg hop, hp, setRegion, op?_modifyOp_self, ho]
        simp [Operation.among, hlive, hmem, hleft]
      · rw [op?_without_of_not_mem hop hp, ho, hg.among_eq_self]
        rw [op?_without_of_not_mem hop hp, ho]

theorem Represents.thins_without : f.Thins (f.without k.parent (b ++ z).roots (hd.op :: x.ops)) := by
  have hg := hr.without
  refine ⟨sameValues_without _ _ _ _, ?_, ?_, fun op => ?_⟩ <;> rw [hg.walk_eq]
  · rw [hr.walk_eq]
    exact Spine.ops_sublist_node k b x z hd
  · cases k with
    | body =>
      rw [hr.body]
      exact hg.body.trans hr.roots_left.symm
    | inside h b' a k =>
      have hbody : (f.without (some h.op) (b ++ z).roots (hd.op :: x.ops)).body = f.body :=
        body_foldl_retire _ _
      rw [Spine.parent, hbody]
      refine (List.filter_eq_self.2 fun op hop => ?_).symm
      rw [← hbody, ← Spine.parent, hg.body] at hop
      simpa using Code.mem_ops_of_mem_roots hop
  · exact hr.op?_without op

end Leaving

end Function

namespace Code

variable {c : Code} {v : ValueId} {h : Node}

/-- A pure operation makes the second value from the first. -/
def Feeds (c : Code) (u v : ValueId) : Prop :=
  ∃ h ∈ c.heads, h.kind.isPure = true ∧ u ∈ h.operands ∧ ∃ t, h.result = some (v, t)

/-- Through none or more pure operations, the value reaches an operand of one that is not pure. -/
def Needs (c : Code) (v : ValueId) : Prop :=
  ∃ u, Relation.ReflTransGen c.Feeds v u ∧ ∃ h ∈ c.heads, h.kind.isPure = false ∧ u ∈ h.operands

def Keeps (c : Code) (h : Node) : Prop :=
  h.kind.isPure = true → ∃ v t, h.result = some (v, t) ∧ c.Needs v

theorem needs_of_operand (hh : h ∈ c.heads) (hkeeps : c.Keeps h) (hv : v ∈ h.operands) :
    c.Needs v := by
  cases hpure : h.kind.isPure with
  | false => exact ⟨v, .refl, h, hh, hpure, hv⟩
  | true =>
    obtain ⟨w, t, hres, u, hreach, heffect⟩ := hkeeps hpure
    exact ⟨u, .head ⟨h, hh, hpure, hv, t, hres⟩ hreach, heffect⟩

theorem Needs.exists_operand (hv : c.Needs v) : ∃ h ∈ c.heads, c.Keeps h ∧ v ∈ h.operands := by
  obtain ⟨u, hreach, h, hh, heffect, hu⟩ := hv
  rcases Relation.ReflTransGen.cases_head hreach with rfl | ⟨w, ⟨h', hh', -, hv, t, hres⟩, hreach⟩
  · exact ⟨h, hh, fun hpure => by simp [heffect] at hpure, hu⟩
  · exact ⟨h', hh', fun _ => ⟨w, t, hres, u, hreach, h, hh, heffect, hu⟩, hv⟩

theorem wellFoundedOn_feeds (hacyclic : ∀ v, ¬ Relation.TransGen c.Feeds v v) :
    {v | v ∈ c.defined}.WellFoundedOn fun u v => Relation.TransGen c.Feeds v u :=
  have : IsStrictOrder ValueId fun u v => Relation.TransGen c.Feeds v u :=
    { irrefl := hacyclic, trans := fun _ _ _ h h' => h'.trans h }
  (List.finite_toSet c.defined).wellFoundedOn

theorem acyclic_of_index_lt
    (h : ∀ h ∈ c.heads, ∀ u ∈ h.operands, ∀ v ∈ h.result.map (·.1), u.index < v.index) (v : ValueId) :
    ¬ Relation.TransGen c.Feeds v v := by
  have hlt : ∀ {u w}, Relation.TransGen c.Feeds u w → u.index < w.index := by
    intro u w huw
    induction huw with
    | single hstep =>
      obtain ⟨hd, hh, -, hu, t, hres⟩ := hstep
      exact h hd hh _ hu _ (by simp [hres])
    | tail _ hstep ih =>
      obtain ⟨hd, hh, -, hu, t, hres⟩ := hstep
      exact ih.trans (h hd hh _ hu _ (by simp [hres]))
  exact fun hv => Nat.lt_irrefl _ (hlt hv)

end Code

namespace Function

variable {f g : Function} {k : Spine} {b x z : Code} {hd : Node}

structure Trims (f : Function) (n : Nat) (g : Function) : Prop where
  wellFormed : g.WellFormed
  nested : g.code.Nested
  thins : f.Thins g
  heads : g.code.heads ⊆ f.code.heads
  count : n + g.code.ops.length = f.code.ops.length
  kept : ∀ h ∈ f.code.heads, f.code.Keeps h → h ∈ g.code.heads

theorem Trims.shed {n : Nat} {g' : Function} (h : f.Trims n g) (hs : g.Sheds g' k b x z hd) :
    f.Trims (n + 1) g' := by
  have hbefore := hs.before.code_eq
  obtain rfl : x = .nil := hs.body_eq_nil h.nested
  have hunkept : ¬ f.code.Keeps hd := by
    intro hkeeps
    obtain ⟨v, t, hres, hneeds⟩ := hkeeps hs.pure
    obtain ⟨h', hh', hkeeps', hv⟩ := hneeds.exists_operand
    exact hs.unused v (by simp [Node.defined, hres]) h' (hbefore ▸ h.kept h' hh' hkeeps') hv
  refine ⟨hs.after.wellFormed, hs.nested h.nested, ?_, ?_, ?_, fun h' hh' hkeeps' => ?_⟩
  · obtain rfl : g.without _ _ _ = g' := Except.ok.inj (hs.before.erase_eq.symm.trans hs.erased)
    exact h.thins.trans hs.before.thins_without
  · rw [hs.after.code_eq]
    exact fun h' hh' => h.heads (hbefore ▸ Spine.mem_heads_around hh' hd .nil)
  · have hcount := h.count
    rw [hbefore, (Spine.ops_perm_node k b .nil z hd).length_eq] at hcount
    rw [hs.after.code_eq, ← hcount]
    simp only [Code.ops, List.length_append, List.length_cons, List.length_nil]
    omega
  · have hin := Spine.mem_heads_node.1 (hbefore ▸ h.kept h' hh' hkeeps')
    rw [hs.after.code_eq]
    rcases hin with rfl | hin | hin
    · exact absurd hkeeps' hunkept
    · cases hin
    · exact hin

theorem Represents.keeps_record (hr : f.Represents f.code) (hh : hd ∈ f.code.heads) {o : Operation}
    (ho : f.op? hd.op = some o) : o.live = true ∧ (f.code.Keeps hd ↔
      (o.kind.isPure = true → ∃ v, o.result = some v ∧ f.code.Needs v)) := by
  obtain ⟨parent, region, hop⟩ := hr.exists_record hh
  rw [hop, Option.some.injEq] at ho
  subst ho
  refine ⟨rfl, forall_congr' fun _ => ?_⟩
  rcases hres : hd.result with _ | ⟨v, t⟩ <;> simp [Node.record, hres]

theorem Trims.count_gone {n : Nat} (h : f.Trims n g) (hwf : f.WellFormed) :
    n = {op | f.isLive op = .ok true ∧ g.isLive op = .ok false}.ncard := by
  have hr : f.Represents f.code := hwf
  have hg : g.Represents g.code := h.wellFormed
  have hgone : {op | f.isLive op = .ok true ∧ g.isLive op = .ok false} =
      ((f.code.ops.toFinset \ g.code.ops.toFinset : Finset OpId) : Set OpId) := by
    ext op
    simp only [Set.mem_ofPred_eq, Finset.coe_sdiff, List.coe_toFinset, Set.mem_sdiff]
    rw [← hr.walk_eq, ← hg.walk_eq, ← hwf.isLive_iff_mem_walk, ← h.wellFormed.isLive_iff_mem_walk]
    refine and_congr_right fun hlive => ⟨fun hdead hlive' => ?_, fun hnot => ?_⟩
    · simp [hdead] at hlive'
    · obtain ⟨o, ho, -⟩ := isLive_eq_ok.1 hlive
      have hafter := h.thins.op op
      rw [ho, Option.map_some] at hafter
      exact isLive_eq_ok.2 ⟨_, hafter, by simpa [isLive_eq_ok, hafter] using hnot⟩
  have hsub : g.code.ops.toFinset ⊆ f.code.ops.toFinset := fun op hop => by
    rw [List.mem_toFinset, ← hg.walk_eq] at hop
    rw [List.mem_toFinset, ← hr.walk_eq]
    exact h.thins.order.subset hop
  rw [hgone, Set.ncard_coe_finset, Finset.card_sdiff_of_subset hsub, List.toFinset_card_of_nodup hr.nodup,
    List.toFinset_card_of_nodup hg.nodup]
  have := h.count
  omega

variable {n : Nat} (h : f.Trims n g) (hacyclic : ∀ v, ¬ Relation.TransGen f.code.Feeds v v)
  (hnone : g.deadOps = [])

include h hacyclic hnone

theorem Trims.needs {v : ValueId} (hv : v ∈ f.code.defined) :
    ∀ hd ∈ g.code.heads, hd.kind.isPure = true → ∀ t, hd.result = some (v, t) → f.code.Needs v := by
  refine (Code.wellFoundedOn_feeds hacyclic).induction (P := fun v => ∀ hd ∈ g.code.heads,
    hd.kind.isPure = true → ∀ t, hd.result = some (v, t) → f.code.Needs v) hv fun v _ ih => ?_
  intro hd hh hpure t hres
  have hg : g.Represents g.code := h.wellFormed
  obtain ⟨v', t', hres', user, huser, hv'⟩ := hg.used_of_deadOps hnone hh hpure
  obtain ⟨rfl, rfl⟩ : v = v' ∧ t = t' := by simpa using hres.symm.trans hres'
  refine Code.needs_of_operand (h.heads huser) (fun hpure' => ?_) hv'
  obtain ⟨w, u, hw, -⟩ := hg.used_of_deadOps hnone huser hpure'
  have hdef : w ∈ f.code.defined := List.mem_flatMap.2 ⟨user, h.heads huser, by simp [Node.defined, hw]⟩
  exact ⟨w, u, hw, ih w hdef (.single ⟨user, h.heads huser, hpure', hv', u, hw⟩) user huser hpure' u hw⟩

theorem Trims.keeps {hd : Node} (hh : hd ∈ g.code.heads) : f.code.Keeps hd := by
  have hg : g.Represents g.code := h.wellFormed
  intro hpure
  obtain ⟨v, t, hres, -⟩ := hg.used_of_deadOps hnone hh hpure
  have hdef : v ∈ f.code.defined := List.mem_flatMap.2 ⟨hd, h.heads hh, by simp [Node.defined, hres]⟩
  exact ⟨v, t, hres, h.needs hacyclic hnone hdef hd hh hpure t hres⟩

omit h hacyclic hnone

theorem eraseDead_exact (hwf : f.WellFormed) (hnested : f.code.Nested)
    (hacyclic : ∀ v, ¬ Relation.TransGen f.code.Feeds v v) :
    ∃ g n, f.eraseDead = .ok (g, n) ∧ f.Thins g ∧
      (∀ op o, f.op? op = some o → (g.isLive op = .ok true ↔ o.live = true ∧
        (o.kind.isPure = true → ∃ v, o.result = some v ∧ f.code.Needs v))) ∧
      n = {op | f.isLive op = .ok true ∧ g.isLive op = .ok false}.ncard := by
  obtain ⟨g, n, hg, h⟩ := eraseDead_counts (P := f.Trims) (fun _ _ h => h.wellFormed)
    (fun _ _ _ _ _ _ _ _ h hs => h.shed hs)
    ⟨hwf, hnested, hwf.thins_refl, List.Subset.refl _, Nat.zero_add _, fun _ hh _ => hh⟩
  obtain ⟨g', n', hg', hnone⟩ := eraseDead_deadOps hwf
  obtain ⟨rfl, rfl⟩ : g = g' ∧ n = n' := by simpa using hg.symm.trans hg'
  refine ⟨g, n, hg, h.thins, fun op o ho => ?_, h.count_gone hwf⟩
  rw [h.wellFormed.isLive_iff_mem_walk, h.wellFormed.walk_eq, Code.ops_eq_map_heads, List.mem_map]
  constructor
  · rintro ⟨hd, hh, rfl⟩
    have hrecord := Represents.keeps_record hwf (h.heads hh) ho
    exact ⟨hrecord.1, hrecord.2.1 (h.keeps hacyclic hnone hh)⟩
  · rintro ⟨hlive, hneeds⟩
    obtain ⟨hd, hh, rfl, -⟩ := Represents.exists_head hwf ho hlive
    exact ⟨hd, h.kept hd hh ((Represents.keeps_record hwf hh ho).2.2 hneeds), rfl⟩

def sharedConstant : Function where
  name := "shared"
  ops := #[⟨.constant 1, [], some ⟨2⟩, none, [], [], none, true⟩,
    ⟨.constant 5, [], some ⟨3⟩, none, [], [], none, true⟩,
    ⟨.forLoop ⟨0, 4, 1, Int.one_pos⟩, [], none, none, [⟨3⟩, ⟨4⟩, ⟨5⟩, ⟨6⟩], [⟨4⟩], none, true⟩,
    ⟨.addIndex, [⟨2⟩, ⟨3⟩], some ⟨5⟩, none, [], [], some ⟨2⟩, true⟩,
    ⟨.addIndex, [⟨4⟩, ⟨2⟩], some ⟨6⟩, none, [], [], some ⟨2⟩, true⟩,
    ⟨.subView ⟨[.dynamic], [1], [1]⟩, [⟨0⟩, ⟨6⟩], some ⟨7⟩, none, [], [], some ⟨2⟩, true⟩,
    ⟨.copy, [⟨7⟩, ⟨1⟩], none, some .tiledMid, [], [], some ⟨2⟩, true⟩]
  values := #[⟨.buffer (.rowMajor [8] .float32 .global), .argument 0⟩,
    ⟨.buffer (.rowMajor [1] .float32 .global), .argument 1⟩, ⟨.index, .result ⟨0⟩⟩,
    ⟨.index, .result ⟨1⟩⟩, ⟨.index, .inductionVar ⟨2⟩ 0⟩, ⟨.index, .result ⟨3⟩⟩,
    ⟨.index, .result ⟨4⟩⟩, ⟨.buffer ⟨[1], .float32, .strided none [1], .global⟩, .result ⟨5⟩⟩]
  arity := 2
  body := [⟨0⟩, ⟨1⟩, ⟨2⟩]

theorem eraseDead_exact_sharedConstant : sharedConstant.WellFormed ∧ sharedConstant.code.Nested ∧
    (∀ v, ¬ Relation.TransGen sharedConstant.code.Feeds v v) ∧
      ∃ g, sharedConstant.eraseDead = .ok (g, 2) ∧ sharedConstant.Thins g ∧
        g.walk = [⟨0⟩, ⟨2⟩, ⟨4⟩, ⟨5⟩, ⟨6⟩] := by
  have hwf : sharedConstant.WellFormed := by decide +kernel
  have hnested : sharedConstant.code.Nested := by decide +kernel
  have hacyclic := Code.acyclic_of_index_lt (c := sharedConstant.code) (by decide +kernel)
  have hok : sharedConstant.eraseDead.toOption.map (fun r => (r.2, r.1.walk)) =
      some (2, [⟨0⟩, ⟨2⟩, ⟨4⟩, ⟨5⟩, ⟨6⟩]) := by decide +kernel
  generalize sharedConstant = f at *
  obtain ⟨g, n, hg, hthins, -⟩ := eraseDead_exact hwf hnested hacyclic
  rw [hg, Except.toOption, Option.map_some, Option.some.injEq] at hok
  obtain ⟨rfl, hwalk⟩ := Prod.mk.inj hok
  exact ⟨hwf, hnested, hacyclic, g, hg, hthins, hwalk⟩

end Function

end KernelLowering
