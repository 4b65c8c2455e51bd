import KernelLowering.Proofs.Integrity.Intact

namespace KernelLowering

namespace Function

variable {f g : Function} {k k' : Spine} {b b' x z z' : Code} {hd : Node} {op : OpId}
  {point : InsertionPoint}

def rehomed (f : Function) (op : OpId) (left : Option OpId) (rest : List OpId)
    (parent : Option OpId) (ops : List OpId) : Function :=
  ((f.setRegion left rest).setRegion parent ops).setParent op parent

namespace Represents

theorem detached (hr : f.Represents (k.plug (b ++ .node hd x z))) :
    (f.setRegion k.parent (b ++ z).roots).body = (k.plug (b ++ z)).roots ∧
      (f.setRegion k.parent (b ++ z).roots).Places none (k.plug (b ++ z)) ∧
        (f.setRegion k.parent (b ++ z).roots).Places k.parent (.node hd x .nil) := by
  obtain ⟨hhold, hplace⟩ := hr.holds
  obtain ⟨hb, hnode, hx, hz⟩ := places_append.1 hplace
  have hkeep : ∀ {y : Code}, f.Places k.parent y → (∀ op ∈ y.ops, op ∈ (b ++ .node hd x z).ops) →
      (f.setRegion k.parent (b ++ z).roots).Places k.parent y := fun hy hsub =>
    hy.setRegion fun op hp ho => hr.parent_not_mem hp (hsub op ho)
  have hplugged := places_plug.2 ⟨hhold.setRegion (Spine.nodup_plug.1 hr.nodup).2.1,
    hkeep (places_append.2 ⟨hb, hz⟩) fun op ho => by
      simp only [Code.ops_append, Code.ops, List.mem_append, List.mem_cons] at ho ⊢
      tauto⟩
  refine ⟨hplugged.1, hplugged.2, hkeep ⟨hnode, hx, trivial⟩ fun op ho => ?_⟩
  simp only [Code.ops_append, Code.ops, List.mem_append, List.mem_cons] at ho ⊢
  tauto

theorem nodup_detached (hr : f.Represents (k.plug (b ++ .node hd x z))) :
    ((hd.op :: x.ops) ++ (k.plug (b ++ z)).ops).Nodup := by
  refine (List.Perm.nodup_iff ?_).1 hr.nodup
  rw [List.perm_iff_count]
  intro op
  simp only [(k.ops_plug _).count_eq, Code.ops_append, Code.ops, List.count_append, List.count_cons]
  omega

theorem placeAt_eq (hr : f.Represents (k.plug (b ++ .node hd x z)))
    (hc : k.plug (b ++ z) = k'.plug (b' ++ z')) (hfaces : point.Faces k' z') :
    f.placeAt hd.op point = .ok (f.rehomed hd.op k.parent (b ++ z).roots k'.parent
      (b'.roots ++ hd.op :: z'.roots)) := by
  obtain ⟨hbody, hplaces, -⟩ := hr.detached
  have hnd := (List.nodup_append'.1 hr.nodup_detached).2.1
  rw [hc] at hbody hplaces hnd
  obtain ⟨hhold, hplace⟩ := places_plug.1 ⟨hbody, hplaces⟩
  cases z' with
  | nil =>
    obtain rfl : point = .atEnd k'.parent := hfaces
    rw [placeAt, placeAtEnd, hr.detach_eq, Fault.ok_bind, hhold.region, Fault.ok_bind,
      Code.append_nil]
    rfl
  | node hd' x' z' =>
    obtain rfl : point = .before hd'.op := hfaces
    have hmem : hd'.op ∉ b'.roots := fun ho => by
      have hnd' := (Spine.nodup_plug.1 hnd).1
      rw [Code.ops_append, List.nodup_append'] at hnd'
      exact hnd'.2.2 (Code.mem_ops_of_mem_roots ho) (by simp [Code.ops])
    rw [placeAt, placeBefore, hr.detach_eq, Fault.ok_bind, op_eq_ok.2 (places_append.1 hplace).2.1,
      Fault.ok_bind]
    show (region _ k'.parent >>= fun ops => _) = _
    rw [hhold.region, Fault.ok_bind, Code.roots_append, Code.roots, insertBefore_append hmem]
    rfl

theorem rehomed (hr : f.Represents (k.plug (b ++ .node hd x z)))
    (hc : k.plug (b ++ z) = k'.plug (b' ++ z')) :
    (f.rehomed hd.op k.parent (b ++ z).roots k'.parent
      (b'.roots ++ hd.op :: z'.roots)).Represents (k'.plug (b' ++ .node hd x z')) := by
  obtain ⟨hbody, hplaces, hnode, hx, -⟩ := hr.detached
  obtain ⟨hleft, hrest, hdisj⟩ := List.nodup_append'.1 hr.nodup_detached
  rw [hc] at hbody hplaces hrest hdisj
  obtain ⟨hhold, hplace⟩ := places_plug.1 ⟨hbody, hplaces⟩
  obtain ⟨hb', hz'⟩ := places_append.1 hplace
  obtain ⟨-, hk', hparent⟩ := Spine.nodup_plug.1 hrest
  have hout : ∀ op ∈ hd.op :: x.ops, k'.parent ≠ some op := fun op ho e =>
    hdisj ho (Spine.mem_ops_plug.2 (.inr (Spine.parent_mem_ops e)))
  have hin : ∀ op ∈ (k'.plug (b' ++ z')).ops, op ≠ hd.op := by
    rintro op ho rfl
    exact hdisj List.mem_cons_self ho
  have hsame : ∀ {op}, k'.parent ≠ some op → op ≠ hd.op →
      (f.rehomed hd.op k.parent (b ++ z).roots k'.parent (b'.roots ++ hd.op :: z'.roots)).op? op =
        (f.setRegion k.parent (b ++ z).roots).op? op := fun hp hne => by
    rw [Function.rehomed, setParent, op?_modifyOp_of_ne hne.symm, op?_setRegion_of_ne hp]
  have hcode : ∀ {y : Code} {parent : Option OpId},
      (f.setRegion k.parent (b ++ z).roots).Places parent y → (∀ op ∈ y.ops, op ∈ (b' ++ z').ops) →
        (f.rehomed hd.op k.parent (b ++ z).roots k'.parent
          (b'.roots ++ hd.op :: z'.roots)).Places parent y := fun hy hsub =>
    hy.congr fun op ho => hsame (fun e => hparent (hsub op ho) (Spine.parent_mem_ops e))
      (hin op (Spine.mem_ops_plug.2 (.inl (hsub op ho))))
  have hplaced : (f.rehomed hd.op k.parent (b ++ z).roots k'.parent
      (b'.roots ++ hd.op :: z'.roots)).Places k'.parent (b' ++ .node hd x z') := by
    refine places_append.2 ⟨hcode hb' fun op ho => by simp [ho], ?_, hx.congr fun op ho => ?_,
      hcode hz' fun op ho => by simp [ho]⟩
    · rw [Function.rehomed, setParent, op?_modifyOp_self,
        op?_setRegion_of_ne (hout _ List.mem_cons_self), hnode]
      rfl
    · refine hsame (hout op (List.mem_cons_of_mem _ ho)) ?_
      rintro rfl
      exact (List.nodup_cons.1 hleft).1 ho
  have hheld : (f.rehomed hd.op k.parent (b ++ z).roots k'.parent
      (b'.roots ++ hd.op :: z'.roots)).Holds k' (b' ++ .node hd x z').roots := by
    rw [Code.roots_append b' (.node hd x z')]
    exact (hhold.setRegion hk').congr (fun op ho => op?_modifyOp_of_ne
      (hin op (Spine.mem_ops_plug.2 (.inr ho))).symm _) rfl
  have hops : (k'.plug (b' ++ .node hd x z')).ops.Perm (k.plug (b ++ .node hd x z)).ops := by
    rw [List.perm_iff_count]
    intro op
    have hcount := congrArg (fun c : Code => c.ops.count op) hc
    simp only [(k.ops_plug _).count_eq, (k'.ops_plug _).count_eq, Code.ops_append, Code.ops,
      List.count_append, List.count_cons] at hcount ⊢
    omega
  obtain ⟨hbody', hplaces'⟩ := places_plug.2 ⟨hheld, hplaced⟩
  have hvalues : f.SameValues (f.rehomed hd.op k.parent (b ++ z).roots k'.parent
      (b'.roots ++ hd.op :: z'.roots)) :=
    ((sameValues_setRegion f _ _).trans (sameValues_setRegion _ _ _)).trans
      (sameValues_modifyOp _ _ fun _ => rfl)
  refine hr.of_sameValues hvalues hbody' hplaces' (hops.nodup_iff.2 hr.nodup) ?_ fun hd' hm => ?_
  · intro op o hop hlive
    rw [hops.mem_iff]
    by_cases hself : op = hd.op
    · exact hself ▸ Spine.mem_ops_plug.2 (.inl (by simp [Code.ops]))
    by_cases hp : k'.parent = some op
    · refine hops.mem_iff.1 (Spine.mem_ops_plug.2 (.inr (Spine.parent_mem_ops hp)))
    by_cases hp' : k.parent = some op
    · exact Spine.mem_ops_plug.2 (.inr (Spine.parent_mem_ops hp'))
    rw [hsame hp hself, op?_setRegion_of_ne hp'] at hop
    exact hr.live hop hlive
  · refine ⟨hd', ?_, rfl, rfl, rfl, rfl⟩
    have hmem : ∀ h, h ∈ (k'.plug (b' ++ z')).heads ↔ h ∈ (k.plug (b ++ z)).heads := by
      rw [hc]
      exact fun _ => Iff.rfl
    rw [Spine.mem_heads_node] at hm ⊢
    exact hm.imp_right fun hm => hm.imp_right (hmem hd').1

end Represents

theorem Intact.placeAt (h : f.Intact) (hlive : f.isLive op = .ok true) (hpoint : f.Open point)
    (hout : ∀ anchor ∈ point.anchor?, anchor ∉ f.subtree op) (hg : f.placeAt op point = .ok g) :
    g.Intact := by
  have hrewires : f.Rewires True g := rewires_placeAt hg hpoint.sound
  refine ⟨?_, hrewires.sealed h.sealed⟩
  obtain ⟨k, b, hd, x, z, rfl, hcode⟩ := h.wellFormed.exists_at hlive
  have hr : f.Represents (k.plug (b ++ .node hd x z)) := hcode ▸ h.wellFormed
  have hrest := hr.without
  have hopen : (f.without k.parent (b ++ z).roots (hd.op :: x.ops)).Open point := by
    intro anchor ha
    refine hrest.isLive_of_mem ?_
    obtain ⟨o, ho, hl⟩ := isLive_eq_ok.1 (hpoint anchor ha)
    have hmem := hr.live ho hl
    have hnot := hout anchor ha
    rw [hr.subtree_eq, List.mem_cons] at hnot
    simp only [Spine.mem_ops_plug, Code.ops_append, Code.ops, List.mem_append, List.mem_cons]
      at hmem ⊢
    tauto
  obtain ⟨k', b', z', hcursor, hc⟩ := hrest.wellFormed.exists_cursor hopen
  rw [hrest.code_eq] at hc
  rw [hr.placeAt_eq hc hcursor.faces, Except.ok.injEq] at hg
  exact hg ▸ (hr.rehomed hc).wellFormed

end Function

end KernelLowering
