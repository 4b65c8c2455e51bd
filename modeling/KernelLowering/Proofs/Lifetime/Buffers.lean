import KernelLowering.Proofs.Arena.Spine
import KernelLowering.Proofs.Convergence.Layers
import KernelLowering.Proofs.Scope.Tiles

namespace KernelLowering

namespace Code

def tops : Code → List Node
  | nil => []
  | node h _ rest => h :: rest.tops

def Beside (a d : Node) : Code → Prop
  | nil => False
  | node h body rest => h = a ∧ d ∈ rest.tops ∨ body.Beside a d ∨ rest.Beside a d

variable {x y : Code} {a d : Node} {σ : ValueId → ValueId}

@[simp] theorem tops_append (x y : Code) : (x ++ y).tops = x.tops ++ y.tops := by
  induction x with
  | nil => rfl
  | node h body rest _ ih => simp only [node_append, tops, ih, List.cons_append]

@[simp] theorem tops_rename (σ : ValueId → ValueId) (x : Code) :
    (x.rename σ).tops = x.tops.map (·.rename σ) := by
  induction x with
  | nil => rfl
  | node h body rest _ ih => simp only [rename, tops, ih, List.map_cons]

theorem tops_subset_heads (x : Code) : x.tops ⊆ x.heads := by
  induction x with
  | nil => exact List.Subset.refl _
  | node h body rest _ ih =>
    exact List.cons_subset_cons h (List.Subset.trans ih (List.subset_append_right _ _))

theorem Beside.mem_heads (h : x.Beside a d) : a ∈ x.heads ∧ d ∈ x.heads := by
  induction x with
  | nil => cases h
  | node hd body rest ihb ihr =>
    simp only [heads, List.mem_cons, List.mem_append]
    rcases h with ⟨rfl, hd⟩ | h | h
    · exact ⟨.inl rfl, .inr (.inr (rest.tops_subset_heads hd))⟩
    · exact ⟨.inr (.inl (ihb h).1), .inr (.inl (ihb h).2)⟩
    · exact ⟨.inr (.inr (ihr h).1), .inr (.inr (ihr h).2)⟩

theorem Beside.rename (h : x.Beside a d) (σ : ValueId → ValueId) :
    (x.rename σ).Beside (a.rename σ) (d.rename σ) := by
  induction x with
  | nil => cases h
  | node hd body rest ihb ihr =>
    rcases h with ⟨rfl, hd⟩ | h | h
    · exact .inl ⟨rfl, by rw [tops_rename]; exact List.mem_map_of_mem hd⟩
    · exact .inr (.inl (ihb h))
    · exact .inr (.inr (ihr h))

theorem Beside.of_pairwise {R : Node → Node → Prop} (h : x.Beside a d) (hR : x.heads.Pairwise R) : R a d := by
  induction x with
  | nil => cases h
  | node hd body rest ihb ihr =>
    rw [heads, List.pairwise_cons, List.pairwise_append] at hR
    rcases h with ⟨rfl, hd⟩ | h | h
    · exact hR.1 d (List.mem_append_right _ (rest.tops_subset_heads hd))
    · exact ihb h hR.2.1
    · exact ihr h hR.2.2.1

theorem beside_of_tops (ha : a ∈ x.tops) (hd : d ∈ x.tops) : a = d ∨ x.Beside a d ∨ x.Beside d a := by
  induction x with
  | nil => cases ha
  | node h body rest _ ih =>
    rw [tops, List.mem_cons] at ha hd
    rcases ha with rfl | ha <;> rcases hd with rfl | hd
    · exact .inl rfl
    · exact .inr (.inl (.inl ⟨rfl, hd⟩))
    · exact .inr (.inr (.inl ⟨rfl, ha⟩))
    · exact (ih ha hd).imp_right fun h => h.imp (fun h => .inr (.inr h)) fun h => .inr (.inr h)

theorem Beside.total {e : Node} (hnd : x.heads.Nodup) (h : x.Beside e a) (h' : x.Beside e d) :
    a = d ∨ x.Beside a d ∨ x.Beside d a := by
  induction x with
  | nil => cases h
  | node hd body rest ihb ihr =>
    rw [heads, List.nodup_cons, List.nodup_append', List.mem_append, not_or] at hnd
    obtain ⟨⟨hbody, hrest⟩, hndb, hndr, hapart⟩ := hnd
    rcases h with ⟨rfl, ha⟩ | h | h <;> rcases h' with ⟨he, hd⟩ | h' | h'
    · exact (beside_of_tops ha hd).imp_right fun h => h.imp (fun h => .inr (.inr h)) fun h => .inr (.inr h)
    · exact (hbody h'.mem_heads.1).elim
    · exact (hrest h'.mem_heads.1).elim
    · exact (hbody (he ▸ h.mem_heads.1)).elim
    · exact (ihb hndb h h').imp_right fun h => h.imp (fun h => .inr (.inl h)) fun h => .inr (.inl h)
    · exact (hapart h.mem_heads.1 h'.mem_heads.1).elim
    · exact (hrest (he ▸ h.mem_heads.1)).elim
    · exact (hapart h'.mem_heads.1 h.mem_heads.1).elim
    · exact (ihr hndr h h').imp_right fun h => h.imp (fun h => .inr (.inr h)) fun h => .inr (.inr h)

theorem beside_append : (x ++ y).Beside a d ↔
    x.Beside a d ∨ y.Beside a d ∨ a ∈ x.tops ∧ d ∈ y.tops := by
  induction x with
  | nil => simp [Beside, tops]
  | node h body rest _ ih =>
    simp only [node_append, Beside, ih, tops_append, tops, List.mem_append, List.mem_cons,
      eq_comm (a := a)]
    grind

end Code

namespace Spine

variable {k : Spine} {b x y z : Code} {a d hd : Node} {σ : ValueId → ValueId}

theorem beside_plug : (k.plug x).Beside a d ↔ x.Beside a d ∨ (k.plug .nil).Beside a d := by
  induction k generalizing x with
  | body => simp [plug, Code.Beside]
  | inside h b a' k ih =>
    rw [plug, plug, ih, ih (x := b ++ .node h .nil a')]
    simp only [Code.beside_append, Code.Beside, Code.tops]
    grind

theorem beside_at : (k.plug (b ++ .node hd x z)).Beside a d ↔ x.Beside a d ∨
    (k.plug (b ++ z)).Beside a d ∨ a ∈ b.tops ∧ d = hd ∨ a = hd ∧ d ∈ z.tops := by
  rw [beside_plug, beside_plug (x := b ++ z)]
  simp only [Code.beside_append, Code.Beside, Code.tops, List.mem_cons, eq_comm (a := a)]
  grind

theorem beside_splice : (k.plug (b ++ (y ++ z))).Beside a d ↔ y.Beside a d ∨
    (k.plug (b ++ z)).Beside a d ∨ a ∈ b.tops ∧ d ∈ y.tops ∨ a ∈ y.tops ∧ d ∈ z.tops := by
  rw [beside_plug, beside_plug (x := b ++ z)]
  simp only [Code.beside_append, Code.tops_append, List.mem_append]
  grind

theorem beside_rename (ha : a ≠ hd) (hd' : d ≠ hd)
    (hx : x.Beside a d → y.Beside (a.rename σ) (d.rename σ)) (h : (k.plug (b ++ .node hd x z)).Beside a d) :
    ((k.rename σ).plug (b.rename σ ++ (y ++ z.rename σ))).Beside (a.rename σ) (d.rename σ) := by
  rw [beside_splice]
  rcases beside_at.1 h with h | h | ⟨-, rfl⟩ | ⟨rfl, -⟩
  · exact .inl (hx h)
  · have hren := h.rename σ
    rw [rename_plug, Code.rename_append] at hren
    exact .inr (.inl hren)
  · exact (hd' rfl).elim
  · exact (ha rfl).elim

end Spine

theorem Code.exists_of_mem_tops {x : Code} {d : Node} (hd : d ∈ x.tops) :
    ∃ (b q z : Code), x = b ++ .node d q z := by
  induction x with
  | nil => cases hd
  | node h body rest _ ih =>
    rcases List.mem_cons.1 hd with rfl | hd
    · exact ⟨.nil, body, rest, rfl⟩
    · obtain ⟨b, q, z, rfl⟩ := ih hd
      exact ⟨.node h body b, q, z, rfl⟩

theorem Code.Beside.exists_between {c : Code} {a d : Node} (h : c.Beside a d) (k : Spine) (b : Code) :
    ∃ (k' : Spine) (b' p m q z : Code),
      k.plug (b ++ c) = k'.plug (b' ++ .node a p (m ++ .node d q z)) := by
  induction c generalizing k b with
  | nil => cases h
  | node hd body rest ihb ihr =>
    rcases h with ⟨rfl, hd⟩ | h | h
    · obtain ⟨m, q, z, rfl⟩ := exists_of_mem_tops hd
      exact ⟨k, b, body, m, q, z, rfl⟩
    · exact ihb h (.inside hd b rest k) .nil
    · obtain ⟨k', b', p, m, q, z, he⟩ := ihr h k (b ++ .node hd body .nil)
      exact ⟨k', b', p, m, q, z, by rw [← he, append_assoc]; rfl⟩

def OpKind.shows : OpKind → Bool
  | view | subView _ => true
  | _ => false

theorem OpKind.shows_of_window {kind : OpKind} (h : kind.window?.isSome = true) : kind.shows = true := by
  cases kind <;> first | rfl | cases h

inductive Shows (hs : List Node) (v : ValueId) : ValueId → Prop
  | self : Shows hs v v
  | view {h : Node} {u w : ValueId} {t : ValueType} (hh : h ∈ hs) (hkind : h.kind.shows = true)
      (hu : u ∈ h.operands.head?) (hres : h.result = some (w, t)) (hshows : Shows hs v u) : Shows hs v w

def Node.Touches (hs : List Node) (v : ValueId) (h : Node) : Prop := ∃ u ∈ h.operands, Shows hs v u

structure Held (hs : List Node) (Beside : Node → Node → Prop) (view tile : Node) : Prop where
  window : tile.kind.window?.isSome = true
  alone : tile.operands.length = 1
  single : ∀ h ∈ hs, h.Uses view → h = tile
  freed : ∀ alloc ∈ hs, alloc.kind = .alloc → view.On alloc →
    ∀ h ∈ hs, h.Uses alloc → h = view ∨ h.kind = .dealloc
  beside : ∀ alloc ∈ hs, alloc.kind = .alloc → view.On alloc → Beside alloc tile

structure Tended (hs : List Node) (Beside : Node → Node → Prop) : Prop where
  allocated : ∀ d ∈ hs, d.kind = .dealloc → ∃ a ∈ hs, a.kind = .alloc ∧ ∃ v t,
    a.result = some (v, t) ∧ d.operands = [v]
  ended : hs.Pairwise fun d later => d.kind = .dealloc → ∀ v ∈ d.operands, ¬ later.Touches hs v
  freed : ∀ a ∈ hs, a.kind = .alloc → ∀ h ∈ hs, h.Uses a →
    ∃ d ∈ hs, d.kind = .dealloc ∧ d.Uses a ∧ Beside a d
  held : ∀ view ∈ hs, view.kind = .view → ∀ tile ∈ hs, tile.Uses view → Held hs Beside view tile

def Function.TendsBuffers (f : Function) : Prop := Tended f.code.heads f.code.Beside

namespace Code

def InOrder (c : Code) : Prop :=
  c.heads.Pairwise fun h later => ¬ h.Idle c → ∀ v ∈ h.operands, v ∉ later.defined

/-- Every buffer that is allocated is freed once, behind that in the same region, and whatever else works
on it, directly or through views, comes in between. Nothing else is freed. -/
structure Balanced (c : Code) : Prop where
  freed : ∀ a ∈ c.heads, a.kind = .alloc → ∃ (v : ValueId) (t : ValueType) (k : Spine) (b m z : Code)
    (d : Node), a.result = some (v, t) ∧ d.kind = .dealloc ∧ d.operands = [v] ∧
      c = k.plug (b ++ .node a .nil (m ++ .node d .nil z)) ∧
        ∀ h ∈ c.heads, h.Touches c.heads v → h = d ∨ h ∈ m.heads ∧ h.kind ≠ .dealloc
  owned : ∀ d ∈ c.heads, d.kind = .dealloc → ∃ a ∈ c.heads, a.kind = .alloc ∧ ∃ v t,
    a.result = some (v, t) ∧ d.operands = [v]

end Code

variable {f : Function} {c : Code} {hs hs' : List Node} {a d h : Node} {u v : ValueId} {t : ValueType}
  {Beside : Node → Node → Prop}

theorem Shows.mono (hsub : hs ⊆ hs') (h : Shows hs v u) : Shows hs' v u := by
  induction h with
  | self => exact .self
  | view hh hkind hu hres _ ih => exact .view (hsub hh) hkind hu hres ih

theorem Node.Touches.mono (hsub : hs ⊆ hs') (h : d.Touches hs v) : d.Touches hs' v := by
  obtain ⟨u, hu, hshows⟩ := h
  exact ⟨u, hu, hshows.mono hsub⟩

theorem Shows.eq_of_alloc (hr : f.Represents c) (h : Shows c.heads u v) (ha : a ∈ c.heads)
    (halloc : a.kind = .alloc) (hres : a.result = some (v, t)) : u = v := by
  cases h with
  | self => rfl
  | view hh hkind _ hres' =>
    rw [hr.eq_of_result hh ha hres' hres, halloc] at hkind
    cases hkind

theorem Shows.exists_definer {before behind : List Node}
    (horder : (before ++ a :: behind).Pairwise fun h later => ∀ v ∈ h.operands, v ∉ later.defined)
    (hres : a.result = some (v, t)) (h : Shows (before ++ a :: behind) v u) :
    ∃ n ∈ a :: behind, u ∈ n.defined := by
  rw [List.pairwise_append] at horder
  induction h with
  | self => exact ⟨a, List.mem_cons_self, by simp [Node.defined, hres]⟩
  | view hh _ hu hres' _ ih =>
    obtain ⟨n, hn, hdef⟩ := ih
    rcases List.mem_append.1 hh with hh | hh
    · exact (horder.2.2 _ hh n hn _ (List.mem_of_mem_head? hu) hdef).elim
    · exact ⟨_, hh, by simp [Node.defined, hres']⟩

theorem Tended.of_plain (h : ∀ n ∈ hs, n.kind ≠ .alloc ∧ n.kind ≠ .dealloc ∧ n.kind ≠ .view) :
    Tended hs Beside where
  allocated d hd' hkind := ((h d hd').2.1 hkind).elim
  ended := List.pairwise_of_forall_mem_list fun d hd' _ _ hkind => ((h d hd').2.1 hkind).elim
  freed a ha halloc := ((h a ha).1 halloc).elim
  held view hview hkind := ((h view hview).2.2 hkind).elim

namespace Function

theorem Represents.not_idle (hr : f.Represents c) (hdead : f.deadOps = []) (hh : h ∈ c.heads) :
    ¬ h.Idle c := by
  rintro ⟨hview, hunused⟩
  obtain ⟨v, t, hres, user, huser, hv⟩ := hr.used_of_deadOps hdead hh (by rw [hview]; rfl)
  exact hunused user huser ⟨v, hv, by simp [Node.defined, hres]⟩

end Function

theorem Tended.balanced (hr : f.Represents c) (hs : f.Sorted) (hnested : c.Nested) (ho : c.InOrder)
    (hdead : f.deadOps = []) (h : Tended c.heads c.Beside) : c.Balanced := by
  have horder : c.heads.Pairwise fun h later => ∀ v ∈ h.operands, v ∉ later.defined :=
    ho.imp_of_mem fun hh _ hpair => hpair (hr.not_idle hdead hh)
  refine ⟨fun a ha halloc => ?_, h.allocated⟩
  obtain ⟨v, t, hres, user, huser, hv⟩ := hr.used_of_deadOps hdead ha (by rw [halloc]; rfl)
  obtain ⟨d, hd, hkind, ⟨u, hu, hdef⟩, hbeside⟩ :=
    h.freed a ha halloc user huser ⟨v, hv, by simp [Node.defined, hres]⟩
  obtain ⟨a', ha', halloc', v', t', hres', hops⟩ := h.allocated d hd hkind
  obtain rfl : u = v' := by simpa [hops] using hu
  obtain rfl := hr.eq_of_defined ha ha' hdef (by simp [Node.defined, hres'])
  obtain ⟨rfl, rfl⟩ : v = u ∧ t = t' := by simpa [hres] using hres'
  obtain ⟨k, b, p, m, q, z, hc⟩ := hbeside.exists_between .body .nil
  simp only [Spine.plug, Code.nil_append] at hc
  subst hc
  obtain rfl : p = .nil := Spine.body_eq_nil hnested (by rw [halloc]; rfl)
  have hat : b ++ .node a .nil (m ++ .node d q z) = (b ++ .node a .nil m) ++ .node d q z := by
    rw [Code.append_assoc]
    rfl
  obtain rfl : q = .nil := Spine.body_eq_nil (k := k) (b := b ++ .node a .nil m) (z := z)
    (hat ▸ hnested) (by rw [hkind]; rfl)
  refine ⟨v, t, k, b, m, z, d, hres, hkind, hops, rfl, fun user huser huses => ?_⟩
  obtain ⟨u, hu, hshows⟩ := huses
  have hheads : (k.plug (b ++ .node a .nil (m ++ .node d .nil z))).heads =
      k.before b ++ a :: (m.heads ++ d :: k.behind z) := by
    simp [Spine.heads_at, Spine.behind, Code.heads]
  have hended := h.ended
  have hallocated := h.allocated
  rw [hheads] at horder hshows hended hallocated huser
  -- Nothing before the allocation knows of what shows it, and nothing behind its end works on it.
  have hbehind : ∀ n ∈ k.before b, n ≠ user := by
    rintro n hn rfl
    obtain ⟨n', hn', hdef⟩ := hshows.exists_definer horder hres
    rw [List.pairwise_append] at horder
    exact horder.2.2 _ hn n' hn' u hu hdef
  have hafter : ∀ n ∈ k.behind z, n ≠ user := by
    rintro n hn rfl
    rw [List.pairwise_append, List.pairwise_cons, List.pairwise_append, List.pairwise_cons] at hended
    exact hended.2.1.2.2.1.1 n hn hkind v (by simp [hops]) ⟨u, hu, hshows⟩
  simp only [List.mem_append, List.mem_cons] at huser
  rcases huser with huser | rfl | huser | rfl | huser
  · exact (hbehind user huser rfl).elim
  · have hnone := ((hr.sorted_iff.1 hs user ha).of_alloc halloc).1
    simp [hnone] at hu
  · refine .inr ⟨huser, fun hfree => ?_⟩
    obtain ⟨a', ha', halloc', v', t', hres', hops'⟩ := hallocated user (by simp [huser]) hfree
    obtain rfl : u = v' := by simpa [hops'] using hu
    obtain rfl := (hheads ▸ hshows : Shows _ v u).eq_of_alloc hr (by rwa [hheads]) halloc' hres'
    rw [List.pairwise_append, List.pairwise_cons, List.pairwise_append] at hended
    exact hended.2.1.2.2.2 user huser d List.mem_cons_self hfree v (by simp [hops'])
      ⟨v, by simp [hops], .self⟩
  · exact .inl rfl
  · exact (hafter user huser rfl).elim

end KernelLowering
