import KernelLowering.Program.Edit
import KernelLowering.Proofs.Arena.Spine
import Mathlib.Data.List.Range
import Mathlib.Data.Finset.Card

namespace KernelLowering

namespace Function

variable {f g : Function} {parent : Option OpId} {x y : Code} {k : Spine}

theorem places_append : f.Places parent (x ++ y) ↔ f.Places parent x ∧ f.Places parent y := by
  induction x with
  | nil => simp [Places]
  | node h body rest _ ih => simp [Places, ih, and_assoc]

theorem Places.congr (h : f.Places parent x) (hg : ∀ op ∈ x.ops, g.op? op = f.op? op) :
    g.Places parent x := by
  induction x generalizing parent with
  | nil => trivial
  | node hd body rest ihb ihr =>
    simp only [Code.ops, List.mem_cons, List.mem_append, forall_eq_or_imp] at hg
    exact ⟨hg.1.trans h.1, ihb h.2.1 fun op ho => hg.2 op (.inl ho),
      ihr h.2.2 fun op ho => hg.2 op (.inr ho)⟩

theorem Places.exists_op (h : f.Places parent x) {op : OpId} (ho : op ∈ x.ops) :
    ∃ o, f.op? op = some o := by
  induction x generalizing parent with
  | nil => simp [Code.ops] at ho
  | node hd body rest ihb ihr =>
    simp only [Code.ops, List.mem_cons, List.mem_append] at ho
    rcases ho with rfl | ho | ho
    · exact ⟨_, h.1⟩
    · exact ihb h.2.1 ho
    · exact ihr h.2.2 ho

theorem Places.live (h : f.Places parent x) {op : OpId} (ho : op ∈ x.ops) :
    ∃ o, f.op? op = some o ∧ o.live = true := by
  induction x generalizing parent with
  | nil => simp [Code.ops] at ho
  | node hd body rest ihb ihr =>
    simp only [Code.ops, List.mem_cons, List.mem_append] at ho
    rcases ho with rfl | ho | ho
    · exact ⟨_, h.1, rfl⟩
    · exact ihb h.2.1 ho
    · exact ihr h.2.2 ho

def Holds (f : Function) : Spine → List OpId → Prop
  | .body, region => f.body = region
  | .inside h b a k, region =>
    f.op? h.op = some (h.record k.parent region) ∧ f.Places k.parent b ∧ f.Places k.parent a ∧
      f.Holds k (b.roots ++ h.op :: a.roots)

theorem places_plug : f.body = (k.plug x).roots ∧ f.Places none (k.plug x) ↔
    f.Holds k x.roots ∧ f.Places k.parent x := by
  induction k generalizing x with
  | body => exact Iff.rfl
  | inside h b a k ih =>
    rw [Spine.plug, ih]
    simp only [Holds, places_append, Places, Code.roots_append, Code.roots, Spine.parent]
    tauto

theorem Holds.congr {region : List OpId} (h : f.Holds k region)
    (hg : ∀ op ∈ k.ops, g.op? op = f.op? op) (hb : g.body = f.body) : g.Holds k region := by
  induction k generalizing region with
  | body => exact hb.trans h
  | inside hd b a k ih =>
    simp only [Spine.ops, List.mem_append, List.mem_cons] at hg
    exact ⟨(hg _ (by simp)).trans h.1, h.2.1.congr fun op ho => hg op (by simp [ho]),
      h.2.2.1.congr fun op ho => hg op (by simp [ho]),
      ih h.2.2.2 fun op ho => hg op (by simp [ho])⟩

theorem op?_setRegion_of_ne {op : OpId} {ops : List OpId} (h : parent ≠ some op) :
    (f.setRegion parent ops).op? op = f.op? op := by
  cases parent with
  | none => rfl
  | some p => exact op?_modifyOp_of_ne (fun e => h (congrArg some e)) _

theorem Holds.setRegion {region region' : List OpId} (h : f.Holds k region) (hk : k.ops.Nodup) :
    (f.setRegion k.parent region').Holds k region' := by
  cases k with
  | body => rfl
  | inside hd b a k =>
    simp only [Spine.ops] at hk
    rw [List.nodup_append', List.nodup_append', List.nodup_cons] at hk
    obtain ⟨⟨-, ⟨hself, -⟩, hbefore⟩, -, houter⟩ := hk
    have hne : ∀ op, op ∈ b.ops ∨ op ∈ a.ops ∨ op ∈ k.ops →
        (f.setRegion (some hd.op) region').op? op = f.op? op := by
      intro op ho
      refine op?_setRegion_of_ne ?_
      intro he
      cases he
      rcases ho with ho | ho | ho
      · exact hbefore ho (by simp)
      · exact hself ho
      · exact houter (by simp) ho
    refine ⟨?_, h.2.1.congr fun op ho => hne op (.inl ho),
      h.2.2.1.congr fun op ho => hne op (.inr (.inl ho)),
      h.2.2.2.congr (fun op ho => hne op (.inr (.inr ho))) rfl⟩
    rw [Spine.parent, setRegion, op?_modifyOp_self, h.1]
    rfl

theorem Places.setRegion {region : List OpId} {p : Option OpId} (h : f.Places parent x)
    (hp : ∀ op, p = some op → op ∉ x.ops) : (f.setRegion p region).Places parent x :=
  h.congr fun _ ho => op?_setRegion_of_ne fun e => hp _ e ho

theorem Holds.region {region : List OpId} (h : f.Holds k region) :
    f.region k.parent = .ok region := by
  cases k with
  | body => exact congrArg Except.ok h
  | inside hd b a k =>
    show (·.region) <$> f.op hd.op = _
    rw [op_eq_ok.2 h.1]
    rfl

end Function

namespace Function

variable {f : Function} {parent : Option OpId} {x : Code}

theorem Places.regionOf {h : Node} {body rest : Code} (hp : f.Places parent (.node h body rest)) :
    f.regionOf h.op = body.roots := by
  simp [Function.regionOf, hp.1, Node.record]

theorem Places.unfold (h : f.Places parent x) {depth : Nat} (hd : x.depth ≤ depth) :
    f.unfold depth x.roots = x.forest := by
  induction x generalizing parent depth with
  | nil => exact unfold_nil f depth
  | node hd' body rest ihb ihr =>
    simp only [Code.depth] at hd
    obtain ⟨depth, rfl⟩ : ∃ d, depth = d + 1 := ⟨depth - 1, by omega⟩
    rw [Code.roots, unfold_cons, h.regionOf, ihb h.2.1 (by omega), ihr h.2.2 (by omega),
      Code.forest]

theorem length_ops_le (hp : ∀ op ∈ x.ops, ∃ o, f.op? op = some o) (hn : x.ops.Nodup) :
    x.ops.length ≤ f.ops.size := by
  have hsub : x.ops.map (·.index) ⊆ List.range f.ops.size := by
    intro i hi
    obtain ⟨op, ho, rfl⟩ := List.mem_map.1 hi
    obtain ⟨o, hop⟩ := hp op ho
    exact List.mem_range.2 (Array.getElem?_eq_some_iff.1 hop).1
  have hinj : (x.ops.map (·.index)).Nodup :=
    hn.map fun a b hab => by cases a; cases b; exact congrArg OpId.mk hab
  simpa using (List.Nodup.subperm hinj hsub).length_le

namespace Represents

variable {c : Code}

theorem forest_eq (h : f.Represents c) : f.forest = c.forest := by
  have hlen := length_ops_le (fun _ ho => h.places.exists_op ho) h.nodup
  rw [Function.forest, h.body]
  exact h.places.unfold (by have := c.depth_le_length_ops; simp only [nesting]; omega)

theorem walk_eq (h : f.Represents c) : f.walk = c.ops := by
  rw [walk, h.forest_eq, Code.preorder_forest]

theorem head?_eq (h : f.Represents c) {parent : Option OpId} {hd : Node} {region : List OpId}
    (hop : f.op? hd.op = some (hd.record parent region)) (hm : hd ∈ c.heads) :
    f.head? hd.op = some hd := by
  obtain ⟨op, kind, operands, result, marker, vars⟩ := hd
  cases result with
  | none => simp [Function.head?, hop, Node.record]
  | some r =>
    obtain ⟨v, t⟩ := r
    have := h.result hm rfl
    simp_all [Function.head?, Node.record]

theorem code_eq (h : f.Represents c) : f.code = c := by
  have hcode : ∀ (x : Code) (parent : Option OpId), f.Places parent x → x.heads ⊆ c.heads →
      x.forest.code f = x := by
    intro x
    induction x with
    | nil => intro _ _ _; rfl
    | node hd body rest ihb ihr =>
      intro parent hp hx
      simp only [Code.heads, List.cons_subset, List.append_subset] at hx
      rw [Code.forest, Forest.code, h.head?_eq hp.1 hx.1]
      simp only [ihb _ hp.2.1 hx.2.1, ihr _ hp.2.2 hx.2.2]
  rw [Function.code, h.forest_eq]
  exact hcode c none h.places (List.Subset.refl _)

theorem wellFormed (h : f.Represents c) : f.WellFormed := by
  rw [WellFormed, h.code_eq]
  exact h

end Represents

end Function

end KernelLowering
