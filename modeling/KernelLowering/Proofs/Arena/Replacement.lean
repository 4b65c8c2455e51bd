import KernelLowering.Proofs.Arena.Cursor

namespace KernelLowering

namespace Code

theorem defined_rename (σ : ValueId → ValueId) (x : Code) : (x.rename σ).defined = x.defined := by
  rw [defined, heads_rename, List.flatMap_map]
  rfl

end Code

def Node.redirect (hd : Node) (w : ValueId) : ValueId → ValueId :=
  match hd.result with
  | some (r, _) => Function.swapped r w
  | none => id

theorem Node.redirect_of_result {hd : Node} {r : ValueId} {t : ValueType}
    (hres : hd.result = some (r, t)) (w : ValueId) : hd.redirect w = Function.swapped r w := by
  rw [redirect, hres]

@[simp] theorem Node.redirect_to (hd : Node) (w : ValueId) : hd.redirect w w = w := by
  unfold redirect
  cases hd.result with
  | none => rfl
  | some r => exact ite_id w

theorem Node.redirect_of_not_mem {hd : Node} {v : ValueId} (hv : v ∉ hd.defined) (w : ValueId) :
    hd.redirect w v = v := by
  unfold redirect
  cases hres : hd.result with
  | none => rfl
  | some r =>
    refine if_neg ?_
    rintro rfl
    simp [defined, hres] at hv

theorem Node.redirect_cases (hd : Node) (w v : ValueId) :
    hd.redirect w v = v ∨ hd.redirect w v = w := by
  unfold redirect
  cases hd.result with
  | none => exact .inl rfl
  | some r =>
    obtain ⟨r, t⟩ := r
    by_cases hv : v = r
    · exact .inr (if_pos hv)
    · exact .inl (if_neg hv)

namespace Function

theorem Represents.record_at {f : Function} {k : Spine} {b x z : Code} {hd : Node}
    (hr : f.Represents (k.plug (b ++ .node hd x z))) :
    f.op hd.op = .ok (hd.record k.parent x.roots) :=
  op_eq_ok.2 (places_append.1 hr.holds.2).2.1

end Function

theorem Writes.yields_replaceOp {s s' : Builder} {k : Spine} {b y x z : Code} {hd : Node}
    {r : ValueId} {t : ValueType} {p : Prop} (h : Writes s s' k b y (.node hd x z))
    (hres : hd.result = some (r, t)) (w : ValueId) :
    Yields p ((Build.replaceOp hd.op (some w)).run s') fun out =>
      Splice s.function out.2.function (k.rename (Function.swapped r w)) (b.rename (Function.swapped r w))
        (y.rename (Function.swapped r w)) (z.rename (Function.swapped r w)) := by
  have hrep := h.cursor.represents
  have hop : s'.function.op hd.op = .ok (hd.record k.parent x.roots) :=
    Function.op_eq_ok.2 (Function.places_append.1 hrep.holds.2).2.1
  have hrun : s'.function.replaceOp hd.op (some w) =
      (s'.function.replaceUses r w).erase hd.op := by
    rw [Function.replaceOp, hop, Fault.ok_bind]
    simp only [Node.record, hres, Option.map_some]
  have hswap := hrep.replaceUses r w
  rw [Spine.rename_plug, Code.rename_append, Code.rename] at hswap
  have herase := hswap.erase_eq
  have hwithout := hswap.without
  rw [Build.replaceOp, Build.yields_edit, hrun]
  rw [show (hd.rename (Function.swapped r w)).op = hd.op from rfl] at herase hwithout
  rw [herase]
  have hsame := (Function.sameValues_replaceUses s'.function r w).trans
    (Function.sameValues_without (s'.function.replaceUses r w) (k.rename (Function.swapped r w)).parent
      ((b ++ y).rename (Function.swapped r w) ++ z.rename (Function.swapped r w)).roots
      (hd.op :: (x.rename (Function.swapped r w)).ops))
  have hcode : (k.rename (Function.swapped r w)).plug (b.rename (Function.swapped r w) ++
      (y.rename (Function.swapped r w) ++ z.rename (Function.swapped r w))) =
        (k.rename (Function.swapped r w)).plug ((b ++ y).rename (Function.swapped r w) ++
          z.rename (Function.swapped r w)) := by
    rw [← Code.append_assoc, ← Code.rename_append]
  refine ⟨hcode ▸ hwithout, h.grows.trans hsame.grows, ?_, ?_⟩
  · rw [Code.ops_rename]
    exact h.ops
  · rw [Code.defined_rename, h.defined]
    exact congrArg (freshValues _) (congrArg Array.size hsame.values.symm)

theorem Writes.yields_redirect {s s' : Builder} {k : Spine} {b y x z : Code} {hd : Node} {p : Prop}
    (h : Writes s s' k b y (.node hd x z)) (w : ValueId) :
    Yields p ((Build.replaceOp hd.op (some w)).run s') fun out =>
      Splice s.function out.2.function (k.rename (hd.redirect w)) (b.rename (hd.redirect w))
        (y.rename (hd.redirect w)) (z.rename (hd.redirect w)) := by
  cases hres : hd.result with
  | some r =>
    obtain ⟨r, t⟩ := r
    rw [hd.redirect_of_result hres]
    exact h.yields_replaceOp hres w
  | none =>
    have hid : hd.redirect w = id := by rw [Node.redirect, hres]
    have hrun : s'.function.replaceOp hd.op (some w) = s'.function.erase hd.op := by
      rw [Function.replaceOp, h.cursor.represents.record_at, Fault.ok_bind]
      simp only [Node.record, hres, Option.map_none]
    rw [Build.replaceOp, Build.yields_edit, hrun, hid]
    simp only [Spine.rename_id, Code.rename_id]
    have herase := h.yields_erase (p := p)
    rwa [Build.erase, Build.yields_edit] at herase

end KernelLowering
