import KernelLowering.Proofs.Arena.Edits

namespace KernelLowering.Function

variable {f : Function} {k : Spine} {b y xb xr z : Code} {hd h m : Node}

def moved (f : Function) (op holder : OpId) (left : List OpId) (parent : Option OpId)
    (region : List OpId) : Function :=
  ((f.setRegion (some holder) left).setRegion parent region).setParent op parent

theorem sameValues_moved (f : Function) (op holder : OpId) (left : List OpId)
    (parent : Option OpId) (region : List OpId) :
    f.SameValues (f.moved op holder left parent region) :=
  ((sameValues_setRegion f _ _).trans (sameValues_setRegion _ _ _)).trans
    (sameValues_modifyOp _ _ fun _ => rfl)

theorem op?_moved_of_ne {op holder other : OpId} {left region : List OpId} {parent : Option OpId}
    (hop : other ≠ op) (hholder : other ≠ holder) (hparent : parent ≠ some other) :
    (f.moved op holder left parent region).op? other = f.op? other := by
  rw [moved, setParent, op?_modifyOp_of_ne hop.symm, op?_setRegion_of_ne hparent,
    op?_setRegion_of_ne fun e => hholder (Option.some.inj e).symm]

theorem op?_moved_self {op holder : OpId} {left region : List OpId} {parent : Option OpId}
    (hne : op ≠ holder) (hparent : parent ≠ some op) :
    (f.moved op holder left parent region).op? op =
      (f.op? op).map fun o => { o with parent := parent } := by
  rw [moved, setParent, op?_modifyOp_self, op?_setRegion_of_ne hparent,
    op?_setRegion_of_ne fun e => hne (Option.some.inj e).symm]

theorem op?_moved_holder {op holder : OpId} {left region : List OpId} {parent : Option OpId}
    (hne : op ≠ holder) (hparent : parent ≠ some holder) :
    (f.moved op holder left parent region).op? holder =
      (f.op? holder).map fun o => { o with region := left } := by
  rw [moved, setParent, op?_modifyOp_of_ne hne, op?_setRegion_of_ne hparent, setRegion,
    op?_modifyOp_self]

namespace Represents

theorem detach_first (hr : f.Represents (k.plug (b ++ .node hd (.node h xb xr) z))) :
    f.detach h.op = .ok (f.setRegion (some hd.op) xr.roots) := by
  obtain ⟨-, ⟨hhd, ⟨hh, -, -⟩, -⟩⟩ := places_append.1 hr.holds.2
  have hnd := (Spine.nodup_plug.1 hr.nodup).1
  simp only [Code.ops_append, Code.ops, List.nodup_append', List.nodup_cons, List.mem_append,
    List.mem_cons, not_or] at hnd
  have hfilter : (Code.node h xb xr).roots.filter (· ≠ h.op) = xr.roots := by
    rw [Code.roots, List.filter_cons_of_neg (by simp)]
    refine List.filter_eq_self.2 fun op ho => decide_eq_true ?_
    rintro rfl
    exact hnd.2.1.2.1.1.2 (Code.mem_ops_of_mem_roots ho)
  rw [detach, op_eq_ok.2 hh]
  show (f.region (some hd.op) >>= fun o => _) = _
  rw [region, op_eq_ok.2 hhd]
  show Except.ok (f.setRegion (some hd.op) ((Code.node h xb xr).roots.filter (· ≠ h.op))) = _
  rw [hfilter]

theorem placeBefore_holder (hr : f.Represents (k.plug (b ++ .node hd (.node h xb xr) z))) :
    f.placeBefore h.op hd.op = .ok
      (f.moved h.op hd.op xr.roots k.parent (b.roots ++ h.op :: hd.op :: z.roots)) := by
  obtain ⟨hhold, hplace⟩ := hr.holds
  obtain ⟨-, ⟨hhd, -, -⟩⟩ := places_append.1 hplace
  have hnd := Spine.nodup_plug.1 hr.nodup
  have hspine : ∀ op ∈ k.ops, op ≠ hd.op := by
    rintro op ho rfl
    exact hnd.2.2 (by simp [Code.ops]) ho
  have hb : hd.op ∉ b.roots := fun ho => by
    have := hnd.1
    rw [Code.ops_append, List.nodup_append'] at this
    exact this.2.2 (Code.mem_ops_of_mem_roots ho) (by simp [Code.ops])
  have hhold' : (f.setRegion (some hd.op) xr.roots).Holds k
      (b ++ .node hd (.node h xb xr) z).roots :=
    hhold.congr (fun op ho => op?_setRegion_of_ne fun e => hspine op ho (Option.some.inj e).symm) rfl
  have hanchor : (f.setRegion (some hd.op) xr.roots).op? hd.op =
      some { hd.record k.parent (Code.node h xb xr).roots with region := xr.roots } := by
    rw [setRegion, op?_modifyOp_self, hhd]
    rfl
  rw [placeBefore, hr.detach_first, Fault.ok_bind, op_eq_ok.2 hanchor]
  show ((f.setRegion (some hd.op) xr.roots).region k.parent >>= fun o => _) = _
  rw [hhold'.region, Code.roots_append, Code.roots]
  show (Fault.require _ (insertBefore _ _ _) >>= fun o => _) = _
  rw [insertBefore_append hb]
  rfl

theorem moved_before (hr : f.Represents (k.plug (b ++ .node hd (.node h xb xr) z))) :
    (f.moved h.op hd.op xr.roots k.parent (b.roots ++ h.op :: hd.op :: z.roots)).Represents
      (k.plug (b ++ .node h xb (.node hd xr z))) := by
  obtain ⟨hhold, hplace⟩ := hr.holds
  obtain ⟨hb, hhd, ⟨hh, hxb, hxr⟩, hz⟩ := places_append.1 hplace
  obtain ⟨hnd, hk, hdisj⟩ := Spine.nodup_plug.1 hr.nodup
  have hparent : ∀ op ∈ (b ++ .node hd (.node h xb xr) z).ops, k.parent ≠ some op :=
    fun op ho e => hr.parent_not_mem e ho
  have hperm : (b ++ .node h xb (.node hd xr z)).ops.Perm (b ++ .node hd (.node h xb xr) z).ops := by
    rw [List.perm_iff_count]
    intro op
    simp only [Code.ops_append, Code.ops, List.count_append, List.count_cons]
    omega
  simp only [Code.ops_append, Code.ops] at hnd hdisj hparent
  have hne : h.op ≠ hd.op := by
    rintro e
    simp [List.nodup_append', e] at hnd
  have hkeep : ∀ op, op ∈ b.ops ∨ op ∈ xb.ops ∨ op ∈ xr.ops ∨ op ∈ z.ops → op ≠ h.op ∧ op ≠ hd.op := by
    intro op ho
    simp only [List.nodup_append', List.nodup_cons, List.mem_append, List.mem_cons, not_or,
      List.disjoint_cons_right, List.disjoint_append_right] at hnd
    refine ⟨?_, ?_⟩ <;> rintro rfl <;> tauto
  have hsame : ∀ x : Code, (∀ op ∈ x.ops, op ∈ b.ops ∨ op ∈ xb.ops ∨ op ∈ xr.ops ∨ op ∈ z.ops) →
      ∀ op ∈ x.ops, (f.moved h.op hd.op xr.roots k.parent
        (b.roots ++ h.op :: hd.op :: z.roots)).op? op = f.op? op := by
    intro x hx op ho
    obtain ⟨hne, hne'⟩ := hkeep op (hx op ho)
    refine op?_moved_of_ne hne hne' (hparent op ?_)
    have := hx op ho
    simp only [List.mem_append, List.mem_cons]
    tauto
  have hplaces : (f.moved h.op hd.op xr.roots k.parent (b.roots ++ h.op :: hd.op :: z.roots)).Places
      k.parent (b ++ .node h xb (.node hd xr z)) := by
    refine places_append.2 ⟨hb.congr (hsame b fun _ => .inl), ?_,
      hxb.congr (hsame xb fun _ h => .inr (.inl h)), ?_,
      hxr.congr (hsame xr fun _ h => .inr (.inr (.inl h))),
      hz.congr (hsame z fun _ h => .inr (.inr (.inr h)))⟩
    · rw [op?_moved_self hne (hparent _ (by simp)), hh]
      rfl
    · rw [op?_moved_holder hne (hparent _ (by simp)), hhd]
      rfl
  have hholds : (f.moved h.op hd.op xr.roots k.parent (b.roots ++ h.op :: hd.op :: z.roots)).Holds k
      (b ++ .node h xb (.node hd xr z)).roots := by
    rw [Code.roots_append]
    have hspine : ∀ op ∈ k.ops, op ≠ h.op ∧ op ≠ hd.op := by
      intro op ho
      refine ⟨?_, ?_⟩ <;> rintro rfl <;> exact hdisj (by simp) ho
    have hhold' : (f.setRegion (some hd.op) xr.roots).Holds k
        (b ++ .node hd (.node h xb xr) z).roots :=
      hhold.congr (fun op ho => op?_setRegion_of_ne fun e =>
        (hspine op ho).2 (Option.some.inj e).symm) rfl
    exact (hhold'.setRegion hk).congr
      (fun op ho => op?_modifyOp_of_ne (hspine op ho).1.symm _) rfl
  obtain ⟨hbody, hplaces⟩ := places_plug.2 ⟨hholds, hplaces⟩
  have hops := ((k.ops_plug _).trans (hperm.append_right _)).trans (k.ops_plug _).symm
  refine hr.of_sameValues (sameValues_moved _ _ _ _ _ _) hbody hplaces
    (hops.nodup_iff.2 hr.nodup) ?_ ?_
  · intro op o hop hlive
    rw [hops.mem_iff]
    by_cases hself : op = h.op
    · exact hself ▸ Spine.mem_ops_plug.2 (.inl (by simp [Code.ops]))
    by_cases hholder : op = hd.op
    · exact hholder ▸ Spine.mem_ops_plug.2 (.inl (by simp [Code.ops]))
    by_cases hp : k.parent = some op
    · exact Spine.mem_ops_plug.2 (.inr (Spine.parent_mem_ops hp))
    rw [op?_moved_of_ne hself hholder hp] at hop
    exact hr.live hop hlive
  · intro hd' hm
    refine ⟨hd', ?_, rfl, rfl, rfl, rfl⟩
    simp only [Spine.mem_heads_plug, Code.heads_append, Code.heads, List.mem_append,
      List.mem_cons] at hm ⊢
    tauto

theorem placeAtEnd_preceding
    (hr : f.Represents (k.plug (b ++ .node m y (.node hd (.node h xb xr) z)))) :
    f.placeAtEnd h.op (some m.op) =
      .ok (f.moved h.op hd.op xr.roots (some m.op) (y.roots ++ [h.op])) := by
  have hsplit : b ++ .node m y (.node hd (.node h xb xr) z) =
      (b ++ .node m y .nil) ++ .node hd (.node h xb xr) z := by
    rw [Code.append_assoc]
    rfl
  obtain ⟨-, ⟨hm, -, -⟩⟩ := places_append.1 hr.holds.2
  have hne : hd.op ≠ m.op := by
    rintro e
    have hnd := (Spine.nodup_plug.1 hr.nodup).1
    simp [Code.ops_append, Code.ops, List.nodup_append', e] at hnd
  have hm' : (f.setRegion (some hd.op) xr.roots).op? m.op = some (m.record k.parent y.roots) :=
    (op?_setRegion_of_ne fun e => hne (Option.some.inj e)).trans hm
  have hr' := hr
  rw [hsplit] at hr'
  rw [placeAtEnd, hr'.detach_first, Fault.ok_bind]
  show ((·.region) <$> (f.setRegion (some hd.op) xr.roots).op m.op >>= fun o => _) = _
  rw [op_eq_ok.2 hm']
  rfl

theorem moved_behind (hr : f.Represents (k.plug (b ++ .node m y (.node hd (.node h xb xr) z)))) :
    (f.moved h.op hd.op xr.roots (some m.op) (y.roots ++ [h.op])).Represents
      (k.plug (b ++ .node m (y ++ .node h xb .nil) (.node hd xr z))) := by
  obtain ⟨hhold, hplace⟩ := hr.holds
  obtain ⟨hb, hm, hy, hhd, ⟨hh, hxb, hxr⟩, hz⟩ := places_append.1 hplace
  obtain ⟨hnd, -, hdisj⟩ := Spine.nodup_plug.1 hr.nodup
  have hperm : (b ++ .node m (y ++ .node h xb .nil) (.node hd xr z)).ops.Perm
      (b ++ .node m y (.node hd (.node h xb xr) z)).ops := by
    rw [List.perm_iff_count]
    intro op
    simp only [Code.ops_append, Code.ops, List.count_append, List.count_cons, List.count_nil]
    omega
  simp only [Code.ops_append, Code.ops] at hnd hdisj
  have hne : h.op ≠ hd.op ∧ h.op ≠ m.op ∧ hd.op ≠ m.op := by
    refine ⟨?_, ?_, ?_⟩ <;> intro e <;> simp [List.nodup_append', e] at hnd
  have hkeep : ∀ op, op ∈ b.ops ∨ op ∈ y.ops ∨ op ∈ xb.ops ∨ op ∈ xr.ops ∨ op ∈ z.ops ∨ op ∈ k.ops →
      op ≠ h.op ∧ op ≠ hd.op ∧ op ≠ m.op := by
    intro op ho
    simp only [List.nodup_append', List.nodup_cons, List.mem_append, List.mem_cons, not_or,
      List.disjoint_cons_right, List.disjoint_append_right, List.disjoint_append_left,
      List.disjoint_cons_left] at hnd hdisj
    refine ⟨?_, ?_, ?_⟩ <;> rintro rfl <;> tauto
  have hsame : ∀ op, op ∈ b.ops ∨ op ∈ y.ops ∨ op ∈ xb.ops ∨ op ∈ xr.ops ∨ op ∈ z.ops ∨ op ∈ k.ops →
      (f.moved h.op hd.op xr.roots (some m.op) (y.roots ++ [h.op])).op? op = f.op? op := by
    intro op ho
    obtain ⟨hop, hholder, hparent⟩ := hkeep op ho
    exact op?_moved_of_ne hop hholder fun e => hparent (Option.some.inj e).symm
  have hplaces : (f.moved h.op hd.op xr.roots (some m.op) (y.roots ++ [h.op])).Places k.parent
      (b ++ .node m (y ++ .node h xb .nil) (.node hd xr z)) := by
    refine places_append.2 ⟨hb.congr fun op ho => hsame op (.inl ho), ?_,
      places_append.2 ⟨hy.congr fun op ho => hsame op (.inr (.inl ho)), ?_,
        hxb.congr fun op ho => hsame op (.inr (.inr (.inl ho))), trivial⟩, ?_,
      hxr.congr fun op ho => hsame op (.inr (.inr (.inr (.inl ho)))),
      hz.congr fun op ho => hsame op (.inr (.inr (.inr (.inr (.inl ho)))))⟩
    · rw [Code.roots_append, moved, setParent, op?_modifyOp_of_ne hne.2.1, setRegion,
        op?_modifyOp_self, op?_setRegion_of_ne fun e => hne.2.2 (Option.some.inj e), hm]
      rfl
    · rw [op?_moved_self hne.1 fun e => hne.2.1 (Option.some.inj e).symm, hh]
      rfl
    · rw [op?_moved_holder hne.1 fun e => hne.2.2 (Option.some.inj e).symm, hhd]
      rfl
  have hholds : (f.moved h.op hd.op xr.roots (some m.op) (y.roots ++ [h.op])).Holds k
      (b ++ .node m (y ++ .node h xb .nil) (.node hd xr z)).roots := by
    rw [Code.roots_append, Code.roots, Code.roots]
    rw [Code.roots_append, Code.roots, Code.roots] at hhold
    exact hhold.congr (fun op ho => hsame op (.inr (.inr (.inr (.inr (.inr ho)))))) rfl
  obtain ⟨hbody, hplaces⟩ := places_plug.2 ⟨hholds, hplaces⟩
  have hops := ((k.ops_plug _).trans (hperm.append_right _)).trans (k.ops_plug _).symm
  refine hr.of_sameValues (sameValues_moved _ _ _ _ _ _) hbody hplaces
    (hops.nodup_iff.2 hr.nodup) ?_ ?_
  · intro op o hop hlive
    rw [hops.mem_iff]
    by_cases hone : op = h.op ∨ op = hd.op ∨ op = m.op
    · refine Spine.mem_ops_plug.2 (.inl ?_)
      rcases hone with rfl | rfl | rfl <;> simp [Code.ops]
    · simp only [not_or] at hone
      rw [op?_moved_of_ne hone.1 hone.2.1 fun e => hone.2.2 (Option.some.inj e).symm] at hop
      exact hr.live hop hlive
  · intro hd' hm
    refine ⟨hd', ?_, rfl, rfl, rfl, rfl⟩
    simp only [Spine.mem_heads_plug, Code.heads_append, Code.heads, List.mem_append,
      List.mem_cons, List.append_nil] at hm ⊢
    tauto

end Represents

end KernelLowering.Function
