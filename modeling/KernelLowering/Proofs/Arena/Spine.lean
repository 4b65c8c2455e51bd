import Mathlib.Data.List.Nodup
import Mathlib.Data.List.Perm.Basic
import Mathlib.Tactic.Tauto
import KernelLowering.Program.Code

namespace KernelLowering

inductive Spine where
  | body
  | inside (head : Node) (before after : Code) (outer : Spine)
  deriving DecidableEq, Repr

namespace Spine

def plug : Spine → Code → Code
  | body, x => x
  | inside h b a k, x => k.plug (b ++ .node h x a)

def parent : Spine → Option OpId
  | body => none
  | inside h _ _ _ => some h.op

def ops : Spine → List OpId
  | body => []
  | inside h b a k => b.ops ++ h.op :: a.ops ++ k.ops

def heads : Spine → List Node
  | body => []
  | inside h b a k => b.heads ++ h :: a.heads ++ k.heads

def rename (σ : ValueId → ValueId) : Spine → Spine
  | body => body
  | inside h b a k => inside (h.rename σ) (b.rename σ) (a.rename σ) (k.rename σ)

theorem ops_plug (k : Spine) (x : Code) : (k.plug x).ops.Perm (x.ops ++ k.ops) := by
  induction k generalizing x with
  | body => simp [plug, ops]
  | inside h b a k ih =>
    refine (ih _).trans ?_
    rw [List.perm_iff_count]
    intro op
    simp only [Code.ops_append, Code.ops, ops, List.count_append, List.count_cons]
    omega

theorem heads_plug (k : Spine) (x : Code) : (k.plug x).heads.Perm (x.heads ++ k.heads) := by
  induction k generalizing x with
  | body => simp [plug, heads]
  | inside h b a k ih =>
    refine (ih _).trans ?_
    rw [List.perm_iff_count]
    intro op
    simp only [Code.heads_append, Code.heads, heads, List.count_append, List.count_cons]
    omega

theorem mem_ops_plug {k : Spine} {x : Code} {op : OpId} :
    op ∈ (k.plug x).ops ↔ op ∈ x.ops ∨ op ∈ k.ops := by
  rw [(k.ops_plug x).mem_iff, List.mem_append]

theorem mem_heads_plug {k : Spine} {x : Code} {h : Node} :
    h ∈ (k.plug x).heads ↔ h ∈ x.heads ∨ h ∈ k.heads := by
  rw [(k.heads_plug x).mem_iff, List.mem_append]

theorem mem_heads_at (k : Spine) (b x z : Code) (hd : Node) :
    hd ∈ (k.plug (b ++ .node hd x z)).heads := by
  rw [mem_heads_plug, Code.heads_append, List.mem_append]
  exact .inl (.inr List.mem_cons_self)

theorem mem_heads_around {k : Spine} {b z : Code} {h : Node} (hh : h ∈ (k.plug (b ++ z)).heads)
    (hd : Node) (x : Code) : h ∈ (k.plug (b ++ .node hd x z)).heads := by
  rw [mem_heads_plug, Code.heads_append, List.mem_append] at hh ⊢
  rw [Code.heads, List.mem_cons, List.mem_append]
  rcases hh with (hh | hh) | hh
  · exact .inl (.inl hh)
  · exact .inl (.inr (.inr (.inr hh)))
  · exact .inr hh

theorem nodup_plug {k : Spine} {x : Code} :
    (k.plug x).ops.Nodup ↔ x.ops.Nodup ∧ k.ops.Nodup ∧ x.ops.Disjoint k.ops := by
  rw [(k.ops_plug x).nodup_iff, List.nodup_append']

@[simp] theorem parent_rename (σ : ValueId → ValueId) (k : Spine) :
    (k.rename σ).parent = k.parent := by
  cases k <;> rfl

theorem heads_rename (σ : ValueId → ValueId) (k : Spine) :
    (k.rename σ).heads = k.heads.map (·.rename σ) := by
  induction k with
  | body => rfl
  | inside h b a k ih =>
    simp only [rename, heads, Code.heads_rename, ih, List.map_append, List.map_cons]

@[simp] theorem rename_id (k : Spine) : k.rename id = k := by
  induction k with
  | body => rfl
  | inside h b a k ih => simp only [rename, ih, Node.rename_id, Code.rename_id]

theorem rename_plug (σ : ValueId → ValueId) (k : Spine) (x : Code) :
    (k.plug x).rename σ = (k.rename σ).plug (x.rename σ) := by
  induction k generalizing x with
  | body => rfl
  | inside h b a k ih => rw [plug, ih, rename, plug, Code.rename_append, Code.rename]

theorem mem_heads_node {k : Spine} {b x z : Code} {hd h : Node} :
    h ∈ (k.plug (b ++ .node hd x z)).heads ↔
      h = hd ∨ h ∈ x.heads ∨ h ∈ (k.plug (b ++ z)).heads := by
  simp only [mem_heads_plug, Code.heads_append, Code.heads, List.mem_append, List.mem_cons]
  tauto

theorem mem_heads_splice {σ : ValueId → ValueId} {k : Spine} {b y z : Code} {h : Node} :
    h ∈ ((k.rename σ).plug (b.rename σ ++ (y ++ z.rename σ))).heads ↔
      (∃ h' ∈ (k.plug (b ++ z)).heads, h'.rename σ = h) ∨ h ∈ y.heads := by
  have hplug : (k.rename σ).plug (b.rename σ ++ z.rename σ) = (k.plug (b ++ z)).rename σ := by
    rw [rename_plug, Code.rename_append]
  rw [← List.mem_map, ← Code.heads_rename, ← hplug]
  simp only [mem_heads_plug, Code.heads_append, List.mem_append]
  tauto

theorem parent_mem_ops {k : Spine} {op : OpId} (h : k.parent = some op) : op ∈ k.ops := by
  cases k with
  | body => cases h
  | inside hd b a k =>
    cases h
    simp [ops]

end Spine

theorem Code.exists_spine_from {c : Code} {op : OpId} (h : op ∈ c.ops) (k : Spine) (b : Code) :
    ∃ (k' : Spine) (b' : Code) (hd : Node) (x z : Code),
      hd.op = op ∧ k.plug (b ++ c) = k'.plug (b' ++ .node hd x z) := by
  induction c generalizing k b with
  | nil => simp [ops] at h
  | node hd body rest ihb ihr =>
    simp only [ops, List.mem_cons, List.mem_append] at h
    rcases h with rfl | h | h
    · exact ⟨k, b, hd, body, rest, rfl, rfl⟩
    · exact ihb h (.inside hd b rest k) .nil
    · obtain ⟨k', b', hd', x, z, rfl, he⟩ := ihr h k (b ++ .node hd body .nil)
      exact ⟨k', b', hd', x, z, rfl, by rw [← he, append_assoc]; rfl⟩

theorem Code.exists_spine {c : Code} {op : OpId} (h : op ∈ c.ops) :
    ∃ (k : Spine) (b : Code) (hd : Node) (x z : Code),
      hd.op = op ∧ c = k.plug (b ++ .node hd x z) :=
  exists_spine_from h .body .nil

namespace Code

def Nested : Code → Prop
  | nil => True
  | node h body rest => (h.kind.isLoop = true ∨ body = nil) ∧ body.Nested ∧ rest.Nested

instance Nested.decide : ∀ c : Code, Decidable c.Nested
  | nil => isTrue trivial
  | node h body rest =>
    have := Nested.decide body
    have := Nested.decide rest
    inferInstanceAs (Decidable ((h.kind.isLoop = true ∨ body = nil) ∧ body.Nested ∧ rest.Nested))

@[simp] theorem nested_append {x y : Code} : (x ++ y).Nested ↔ x.Nested ∧ y.Nested := by
  induction x with
  | nil => simp [Nested]
  | node h body rest _ ih => simp only [node_append, Nested, ih, and_assoc]

theorem Nested.rename {x : Code} (h : x.Nested) (σ : ValueId → ValueId) : (x.rename σ).Nested := by
  induction x with
  | nil => trivial
  | node hd body rest ihb ihr =>
    refine ⟨h.1.imp id fun hbody => ?_, ihb h.2.1, ihr h.2.2⟩
    rw [hbody]
    rfl

end Code

theorem Spine.nested_plug {k : Spine} {x : Code} (h : (k.plug x).Nested) (hx : x ≠ .nil) :
    x.Nested ∧ ∀ (σ : ValueId → ValueId) (y : Code), y.Nested → ((k.rename σ).plug y).Nested := by
  induction k generalizing x with
  | body => exact ⟨h, fun _ _ hy => hy⟩
  | inside hd b a k ih =>
    have hne : b ++ .node hd x a ≠ .nil := by cases b <;> simp
    obtain ⟨hcode, houter⟩ := ih h hne
    obtain ⟨hb, hloop, hx', ha⟩ := Code.nested_append.1 hcode
    refine ⟨hx', fun σ y hy => houter σ _ (Code.nested_append.2 ⟨hb.rename σ, ?_, hy, ha.rename σ⟩)⟩
    exact .inl (hloop.resolve_right hx)

theorem Spine.nested_splice {k : Spine} {b x z : Code} {hd : Node}
    (h : (k.plug (b ++ .node hd x z)).Nested) : (hd.kind.isLoop = true ∨ x = .nil) ∧
      ∀ (σ : ValueId → ValueId) (y : Code), y.Nested →
        ((k.rename σ).plug (b.rename σ ++ (y ++ z.rename σ))).Nested := by
  obtain ⟨hcode, houter⟩ := nested_plug h (by cases b <;> simp)
  obtain ⟨hb, hloop, -, hz⟩ := Code.nested_append.1 hcode
  exact ⟨hloop, fun σ y hy => houter σ _
    (Code.nested_append.2 ⟨hb.rename σ, Code.nested_append.2 ⟨hy, hz.rename σ⟩⟩)⟩

theorem Spine.body_eq_nil {k : Spine} {b x z : Code} {hd : Node}
    (h : (k.plug (b ++ .node hd x z)).Nested) (hloop : hd.kind.isLoop = false) : x = .nil :=
  (Spine.nested_splice h).1.resolve_left (by simp [hloop])

theorem Spine.nested_body {k : Spine} {b x z : Code} {hd : Node}
    (h : (k.plug (b ++ .node hd x z)).Nested) : x.Nested :=
  (Code.nested_append.1 (Spine.nested_plug h (by cases b <;> simp)).1).2.2.1

namespace Spine

def earlier : Spine → List Node
  | body => []
  | inside h b _ k => k.earlier ++ (b.heads ++ [h])

def later : Spine → List Node
  | body => []
  | inside _ _ a k => a.heads ++ k.later

def before (k : Spine) (b : Code) : List Node := k.earlier ++ b.heads

def behind (k : Spine) (z : Code) : List Node := z.heads ++ k.later

variable {k : Spine} {b x z : Code} {hd : Node} {σ : ValueId → ValueId}

theorem heads_plug_eq (k : Spine) (x : Code) : (k.plug x).heads = k.earlier ++ (x.heads ++ k.later) := by
  induction k generalizing x with
  | body => simp [plug, earlier, later]
  | inside h b a k ih =>
    simp only [plug, ih, Code.heads_append, Code.heads, earlier, later, List.append_assoc,
      List.cons_append, List.nil_append]

theorem earlier_rename : (k.rename σ).earlier = k.earlier.map (·.rename σ) := by
  induction k with
  | body => rfl
  | inside h b a k ih => simp [rename, earlier, ih, Code.heads_rename]

theorem later_rename : (k.rename σ).later = k.later.map (·.rename σ) := by
  induction k with
  | body => rfl
  | inside h b a k ih => simp [rename, later, ih, Code.heads_rename]

theorem before_rename : (k.rename σ).before (b.rename σ) = (k.before b).map (·.rename σ) := by
  simp [before, earlier_rename, Code.heads_rename]

theorem behind_rename : (k.rename σ).behind (z.rename σ) = (k.behind z).map (·.rename σ) := by
  simp [behind, later_rename, Code.heads_rename]

theorem heads_at : (k.plug (b ++ .node hd x z)).heads = k.before b ++ hd :: (x.heads ++ k.behind z) := by
  simp [heads_plug_eq, Code.heads, before, behind]

theorem heads_splice {y : Code} : ((k.rename σ).plug (b.rename σ ++ (y ++ z.rename σ))).heads =
    (k.before b).map (·.rename σ) ++ (y.heads ++ (k.behind z).map (·.rename σ)) := by
  rw [heads_plug_eq, ← before_rename, ← behind_rename]
  simp [before, behind]

end Spine

end KernelLowering
