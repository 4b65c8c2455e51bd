import KernelLowering.Lowering.Pipeline
import KernelLowering.Proofs.Arena.Edits

namespace KernelLowering

namespace Node

def unmarked (op : OpId) (h : Node) : Node := if h.op = op then { h with marker := none } else h

variable (op : OpId) (h : Node)

@[simp] theorem op_unmarked : (h.unmarked op).op = h.op := by
  unfold unmarked
  split <;> rfl

@[simp] theorem kind_unmarked : (h.unmarked op).kind = h.kind := by
  unfold unmarked
  split <;> rfl

@[simp] theorem operands_unmarked : (h.unmarked op).operands = h.operands := by
  unfold unmarked
  split <;> rfl

@[simp] theorem result_unmarked : (h.unmarked op).result = h.result := by
  unfold unmarked
  split <;> rfl

@[simp] theorem inductionVars_unmarked : (h.unmarked op).inductionVars = h.inductionVars := by
  unfold unmarked
  split <;> rfl

end Node

namespace Code

def unmarked (op : OpId) : Code → Code
  | nil => nil
  | node h body rest => node (h.unmarked op) (body.unmarked op) (rest.unmarked op)

variable (op : OpId) (x y : Code)

@[simp] theorem unmarked_append : (x ++ y).unmarked op = x.unmarked op ++ y.unmarked op := by
  induction x with
  | nil => rfl
  | node h body rest _ ih => simp only [node_append, unmarked, ih]

@[simp] theorem heads_unmarked : (x.unmarked op).heads = x.heads.map (·.unmarked op) := by
  induction x with
  | nil => rfl
  | node h body rest ihb ihr => simp [unmarked, heads, ihb, ihr]

@[simp] theorem ops_unmarked : (x.unmarked op).ops = x.ops := by
  simp [ops_eq_map_heads, Function.comp_def]

@[simp] theorem roots_unmarked : (x.unmarked op).roots = x.roots := by
  induction x with
  | nil => rfl
  | node h body rest _ ih => simp [unmarked, roots, ih]

end Code

namespace Spine

def unmarked (op : OpId) : Spine → Spine
  | body => body
  | inside h b a k => inside (h.unmarked op) (b.unmarked op) (a.unmarked op) (k.unmarked op)

theorem unmarked_plug (op : OpId) (k : Spine) (x : Code) :
    (k.plug x).unmarked op = (k.unmarked op).plug (x.unmarked op) := by
  induction k generalizing x with
  | body => rfl
  | inside h b a k ih => rw [plug, ih, Code.unmarked_append, unmarked, plug, Code.unmarked]

end Spine

namespace Function

variable {f : Function} {c : Code} {parent : Option OpId}

theorem Places.stripMarker (h : f.Places parent c) (op : OpId) :
    (f.stripMarker op).Places parent (c.unmarked op) := by
  induction c generalizing parent with
  | nil => trivial
  | node hd body rest ihb ihr =>
    obtain ⟨hop, hbody, hrest⟩ := h
    refine ⟨?_, by simpa using ihb hbody, ihr hrest⟩
    rw [Function.stripMarker, op?_modifyOp, Node.op_unmarked, hop, Code.roots_unmarked]
    by_cases hsame : hd.op = op
    · simp [Node.unmarked, Node.record, hsame]
    · simp [Node.unmarked, hsame, Ne.symm hsame]

theorem Represents.stripMarker (h : f.Represents c) (op : OpId) :
    (f.stripMarker op).Represents (c.unmarked op) := by
  refine h.of_sameValues (f.sameValues_modifyOp op fun _ => rfl)
    (h.body.trans (c.roots_unmarked op).symm) (h.places.stripMarker op) (by simpa using h.nodup)
    (fun {other o} ho hlive => ?_) fun hd hh => ?_
  · rw [Function.stripMarker, op?_modifyOp] at ho
    rw [Code.ops_unmarked]
    split at ho
    · obtain ⟨o, hop, rfl⟩ := Option.map_eq_some_iff.1 ho
      exact h.live hop hlive
    · exact h.live ho hlive
  · rw [Code.heads_unmarked] at hh
    obtain ⟨hd, hmem, rfl⟩ := List.mem_map.1 hh
    exact ⟨hd, hmem, by simp⟩

end Function

theorem Pipeline.stripMarkers_induction {P : Function → Prop} {f : Function}
    (h : ∀ f op, P f → P (f.stripMarker op)) (hf : P f) : P (stripMarkers f) := by
  rw [stripMarkers]
  generalize f.collect (·.kind.isLinalg) = ops
  induction ops generalizing f with
  | nil => exact hf
  | cons op ops ih => exact ih (h f op hf)

end KernelLowering
