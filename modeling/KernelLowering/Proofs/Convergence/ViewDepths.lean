import KernelLowering.Proofs.Convergence.Cleanup
import KernelLowering.Proofs.Convergence.Fixpoints
import KernelLowering.Proofs.Simulation.Lookup

namespace KernelLowering

namespace Code

variable {c : Code} {v : Option ValueId} {h d : Node} {m n : Nat} {views : List Node}

def Low (c : Code) (v : Option ValueId) (n : Nat) : Prop :=
  ∃ views, c.Stack v views ∧ views.length ≤ n

theorem Stack.low (hs : c.Stack v views) : c.Low v views.length := ⟨views, hs, le_rfl⟩

namespace Low

theorem mono (hl : c.Low v m) (hle : m ≤ n) : c.Low v n := by
  obtain ⟨views, hs, hlen⟩ := hl
  exact ⟨views, hs, hlen.trans hle⟩

theorem ground (hnone : ∀ d ∈ v.bind c.definer?, d.kind.window? = none) : c.Low v n :=
  ⟨[], .ground hnone, Nat.zero_le n⟩

theorem view (hdef : v.bind c.definer? = some d) (hwindow : d.kind.window?.isSome = true)
    (hl : c.Low d.operands.head? n) : c.Low v (n + 1) := by
  obtain ⟨views, hs, hlen⟩ := hl
  exact ⟨d :: views, .view hdef hwindow hs, Nat.succ_le_succ hlen⟩

theorem of_view (hl : c.Low v n) (hdef : v.bind c.definer? = some d)
    (hwindow : d.kind.window?.isSome = true) : ∃ m, n = m + 1 ∧ c.Low d.operands.head? m := by
  obtain ⟨views, hs, hlen⟩ := hl
  cases hs with
  | ground hnone => simp [hnone d hdef] at hwindow
  | view hdef' _ hbelow =>
    obtain rfl := Option.some.inj (hdef'.symm.trans hdef)
    cases n with
    | zero => cases hlen
    | succ m => exact ⟨m, rfl, _, hbelow, Nat.le_of_succ_le_succ hlen⟩

theorem height_le (hl : c.Low v n) : c.height c.heads.length v ≤ n := by
  obtain ⟨views, hs, hlen⟩ := hl
  rwa [hs.height_eq hs.length_le]

theorem low_height (hl : c.Low v n) : c.Low v (c.height c.heads.length v) := by
  obtain ⟨views, hs, -⟩ := hl
  rw [hs.height_eq hs.length_le]
  exact hs.low

end Low

def depthOf (c : Code) (h : Node) : Nat :=
  if h.kind.window?.isSome then c.height c.heads.length h.operands.head? + 1 else 0

def totalDepth (c : Code) : Nat := (c.heads.map c.depthOf).sum

theorem depthOf_eq_zero (hnone : h.kind.window? = none) : c.depthOf h = 0 := by
  simp [depthOf, hnone]

theorem depthOf_of_window (hwindow : h.kind.window?.isSome = true) :
    c.depthOf h = c.height c.heads.length h.operands.head? + 1 := if_pos hwindow

theorem Low.depthOf_le (hl : c.Low h.operands.head? n) : c.depthOf h ≤ n + 1 := by
  unfold depthOf
  split
  · exact Nat.succ_le_succ hl.height_le
  · exact Nat.zero_le _

def Grounded (c : Code) : Prop :=
  ∀ h ∈ c.heads, h.kind.window?.isSome = true → ∃ n, c.Low h.operands.head? n

theorem Grounded.low (hc : c.Grounded) (hh : h ∈ c.heads) (hwindow : h.kind.window?.isSome = true) :
    c.Low h.operands.head? (c.height c.heads.length h.operands.head?) := by
  obtain ⟨n, hl⟩ := hc h hh hwindow
  exact hl.low_height

end Code

theorem ViewFolding.Ready.low_source {f : Function} {k : Spine} {b x z : Code} {hd inner : Node}
    {w w' : Window} {u source : ValueId} {supplied supplied' : List ValueId} {type : BufferType}
    {n : Nat} (hready : ViewFolding.Ready f (k.plug (b ++ .node hd x z)) hd inner w w' u source supplied
      supplied' type) (hl : (k.plug (b ++ .node hd x z)).Low hd.operands.head? n) :
    ∃ m, n = m + 1 ∧ (k.plug (b ++ .node hd x z)).Low (some source) m := by
  rw [hready.operands, List.head?_cons] at hl
  obtain ⟨m, rfl, hm⟩ := hl.of_view hready.definer hready.inner_window
  rw [hready.innerOperands, List.head?_cons] at hm
  exact ⟨m, rfl, hm⟩

namespace Function

structure Acyclic (f : Function) : Prop where
  has : ∀ h ∈ f.code.heads, ∀ v ∈ h.operands, f.Has v
  ranked : ∃ rank : ValueId → Nat, ∀ h ∈ f.code.heads, ∀ u ∈ h.operands, ∀ v ∈ h.result.map (·.1),
    rank u < rank v

theorem Acyclic.grounded {f : Function} (hf : f.Acyclic) : f.code.Grounded := by
  obtain ⟨rank, hrank⟩ := hf.ranked
  have hvalue : ∀ m v, rank v < m → ∃ views, f.code.Stack (some v) views := by
    intro m
    induction m with
    | zero => exact fun v hv => absurd hv (Nat.not_lt_zero _)
    | succ m ih =>
      intro v hv
      cases hdef : f.code.definer? v with
      | none => exact ⟨[], .ground (by simp [hdef])⟩
      | some d =>
        cases hwindow : d.kind.window? with
        | none => exact ⟨[], .ground (by simp [hdef, hwindow])⟩
        | some w =>
          obtain ⟨hd, t, hres⟩ := Code.of_definer? hdef
          obtain ⟨views, hs⟩ : ∃ views, f.code.Stack d.operands.head? views := by
            cases hu : d.operands.head? with
            | none => exact ⟨[], .ground (by simp)⟩
            | some u =>
              have hlt := hrank d hd u (List.mem_of_mem_head? hu) v (by simp [hres])
              exact ih u (by omega)
          exact ⟨d :: views, .view hdef (by simp [hwindow]) hs⟩
  intro h hh _
  cases hu : h.operands.head? with
  | none => exact ⟨0, .ground (by simp)⟩
  | some u =>
    obtain ⟨views, hs⟩ := hvalue (rank u + 1) u (Nat.lt_succ_self _)
    exact ⟨_, hs.low⟩

namespace Replaces

variable {f g : Function} {k : Spine} {b x z : Code} {hd : Node} {σ : ValueId → ValueId}
  {new : List Node} (hg : f.Replaces g k b x z σ new)
  (hr : f.Represents (k.plug (b ++ .node hd x z)))
  (hhas : ∀ h ∈ (k.plug (b ++ .node hd x z)).heads, ∀ v ∈ h.operands, f.Has v)

include hg

theorem totalDepth_add_le {n : Nat} (hr : f.Represents (k.plug (b ++ .node hd x z)))
    (hkept : ∀ h ∈ (k.plug (b ++ .node hd x z)).heads,
      g.code.depthOf (h.rename σ) ≤ (k.plug (b ++ .node hd x z)).depthOf h)
    (hnew : (new.map g.code.depthOf).sum + n ≤ (k.plug (b ++ .node hd x z)).depthOf hd) :
    g.code.totalDepth + n ≤ f.code.totalDepth := by
  have hsum : ∀ hs : List Node, (∀ h ∈ hs, h ∈ (k.plug (b ++ .node hd x z)).heads) →
      ((hs.map (·.rename σ)).map g.code.depthOf).sum ≤
        (hs.map (k.plug (b ++ .node hd x z)).depthOf).sum := by
    intro hs hin
    rw [List.map_map]
    exact List.sum_le_sum fun h hh => hkept h (hin h hh)
  have hbefore := hsum (k.before b) fun h hh => Spine.mem_heads_iff.2 (.inl hh)
  have hbehind := hsum (k.behind z) fun h hh => Spine.mem_heads_iff.2 (.inr (.inr (.inr hh)))
  have hbody := hsum x.heads fun h hh => Spine.mem_heads_iff.2 (.inr (.inr (.inl hh)))
  obtain ⟨kept, hkept, hheads⟩ := hg.heads
  have hkept' : ((kept.map (·.rename σ)).map g.code.depthOf).sum ≤
      (x.heads.map (k.plug (b ++ .node hd x z)).depthOf).sum := by
    rcases hkept with rfl | rfl
    · exact hbody
    · exact Nat.zero_le _
  rw [hr.code_eq, Code.totalDepth, Code.totalDepth, hheads]
  conv_rhs => rw [Spine.heads_at]
  simp only [List.map_append, List.sum_append, List.map_cons, List.sum_cons]
  omega

include hr hhas

theorem low (hmoved : ∀ u n, f.Has u → σ u ≠ u → (k.plug (b ++ .node hd x z)).Low (some u) n →
      (∀ v m, m < n → (∀ u ∈ v, f.Has u) → (k.plug (b ++ .node hd x z)).Low v m →
        g.code.Low (v.map σ) m) → g.code.Low (some (σ u)) n) {v : Option ValueId} {n : Nat}
    (hv : ∀ u ∈ v, f.Has u) (hl : (k.plug (b ++ .node hd x z)).Low v n) : g.code.Low (v.map σ) n := by
  induction n using Nat.strong_induction_on generalizing v with
  | _ n ih =>
    cases v with
    | none => exact .ground (by simp)
    | some u =>
      have hu := hv u rfl
      by_cases hsame : σ u = u
      · rw [Option.map_some, hsame]
        cases hdef : g.code.definer? u with
        | none => exact .ground (by simp [hdef])
        | some d =>
          obtain ⟨hd', t, hres⟩ := Code.of_definer? hdef
          rcases hg.cases hd' with hnew | ⟨h, hh, rfl⟩
          · exact absurd hu (hg.values d hnew u (by simp [Node.defined, hres]))
          have hin : h ∈ (k.plug (b ++ .node hd x z)).heads := Spine.mem_heads_iff.2 (hh.imp_right .inr)
          cases hwindow : h.kind.window? with
          | none => exact .ground (by simp [hdef, Node.rename, hwindow])
          | some w =>
            obtain ⟨m, rfl, hm⟩ := hl.of_view (hr.definer?_eq hin hres) (by simp [hwindow])
            have hbelow := ih m (Nat.lt_succ_self m)
              (fun u hu => hhas h hin u (List.mem_of_mem_head? hu)) hm
            refine .view hdef (by simp [Node.rename, hwindow]) ?_
            rwa [Node.rename, List.head?_map]
      · exact hmoved u n hu hsame hl fun v m hm hv hl => ih m hm hv hl

omit hg hr
variable (hlow : ∀ {v n}, (∀ u ∈ v, f.Has u) → (k.plug (b ++ .node hd x z)).Low v n →
    g.code.Low (v.map σ) n)
  (hground : (k.plug (b ++ .node hd x z)).Grounded)

include hlow hground

theorem low_rename {h : Node} (hh : h ∈ (k.plug (b ++ .node hd x z)).heads)
    (hwindow : h.kind.window?.isSome = true) : g.code.Low (h.rename σ).operands.head?
      ((k.plug (b ++ .node hd x z)).height (k.plug (b ++ .node hd x z)).heads.length
        h.operands.head?) := by
  rw [Node.rename, List.head?_map]
  exact hlow (fun u hu => hhas h hh u (List.mem_of_mem_head? hu)) (hground.low hh hwindow)

theorem depthOf_le {h : Node} (hh : h ∈ (k.plug (b ++ .node hd x z)).heads) :
    g.code.depthOf (h.rename σ) ≤ (k.plug (b ++ .node hd x z)).depthOf h := by
  cases hwindow : h.kind.window? with
  | none => rw [Code.depthOf_eq_zero hwindow, Code.depthOf_eq_zero (by exact hwindow)]
  | some w =>
    have hsome : h.kind.window?.isSome = true := by rw [hwindow]; rfl
    rw [Code.depthOf_of_window hsome]
    exact (low_rename hhas hlow hground hh hsome).depthOf_le

include hg in
theorem grounded (hnew : ∀ n ∈ new, n.kind.window?.isSome = true → ∃ m, g.code.Low n.operands.head? m) :
    g.code.Grounded := by
  intro h hh hwindow
  rcases hg.cases hh with hin | ⟨h₁, hh₁, rfl⟩
  · exact hnew h hin hwindow
  · exact ⟨_, low_rename hhas hlow hground (Spine.mem_heads_iff.2 (hh₁.imp_right .inr)) hwindow⟩

end Replaces

namespace Cleaned

variable {f g : Function} {k : Spine} {b x z : Code} {hd : Node} {σ : ValueId → ValueId}
  {new : List Node} (hc : f.Cleaned g k b x z hd σ new)
  (hr : f.Represents (k.plug (b ++ .node hd x z)))
  (hhas : ∀ h ∈ (k.plug (b ++ .node hd x z)).heads, ∀ v ∈ h.operands, f.Has v)

include hc hr hhas

theorem low {v : Option ValueId} {n : Nat} (hv : ∀ u ∈ v, f.Has u)
    (hl : (k.plug (b ++ .node hd x z)).Low v n) : g.code.Low (v.map σ) n := by
  refine hc.replaces.low hr hhas (fun u n hu hne hl ih => ?_) hv hl
  cases hc with
  | reallocated _ hreplaces =>
    rw [Reallocation.merged_of_moved hne]
    have hdef := Represents.definer?_eq hreplaces.wellFormed
      (hreplaces.mem_new (List.mem_singleton_self _)) rfl
    exact .ground (by simp [hdef, Reallocation.made, Node.value, OpKind.window?])
  | @folded inner w w' u' source r v' supplied supplied' vs below result t y offsets op hready hres
      hsums hreplaces =>
    obtain rfl : u = r := by
      by_contra hur
      exact hne (by rw [hd.redirect_of_result hres, swapped_of_ne hur])
    obtain ⟨_, rfl, hbelow⟩ := hl.of_view (hr.definer?_eq (Spine.mem_heads_at k b x z hd) hres)
      hready.window
    obtain ⟨m, rfl, hm⟩ := hready.low_source hbelow
    have hsource := ih (some source) m (by omega)
      (by simp [has_of_bufferType? hready.source]) hm
    have hnew := hreplaces.mem_new
      (List.mem_map_of_mem (List.mem_append_right _ (List.mem_singleton_self _)))
    have hdef := Represents.definer?_eq hreplaces.wellFormed hnew rfl
    rw [hd.redirect_of_result hres, swapped_self]
    exact (Code.Low.view (v := some v') hdef rfl hsource).mono (by omega)

variable (hground : (k.plug (b ++ .node hd x z)).Grounded)

include hground

theorem low_new : ∀ n ∈ new, n.kind.window?.isSome = true → ∃ m,
    g.code.Low n.operands.head? m ∧ m + 2 = (k.plug (b ++ .node hd x z)).depthOf hd := by
  intro n hn hwindow
  have hlow := fun v n => hc.low (v := v) (n := n) hr hhas
  cases hc with
  | reallocated =>
    rw [List.mem_singleton.1 hn] at hwindow
    cases hwindow
  | @folded inner w w' u source r v supplied supplied' vs below result t y offsets op hready _ hsums =>
    obtain ⟨n₁, hn₁, rfl⟩ := List.mem_map.1 hn
    rcases List.mem_append.1 hn₁ with hn₁ | hn₁
    · rcases hsums.kind_eq n₁ hn₁ with hk | ⟨i, hk⟩ <;> simp [Node.rename, hk, OpKind.window?] at hwindow
    obtain ⟨m, hm, hsource⟩ := hready.low_source
      (hground.low (Spine.mem_heads_at k b x z hd) hready.window)
    rw [List.mem_singleton.1 hn₁, Code.depthOf_of_window hready.window, hm]
    exact ⟨m, hlow (some source) m (by simp [has_of_bufferType? hready.source]) hsource, rfl⟩

theorem sum_depths_lt :
    (new.map g.code.depthOf).sum + 1 ≤ (k.plug (b ++ .node hd x z)).depthOf hd := by
  have hview := hc.low_new hr hhas hground
  cases hc with
  | reallocated hwindow =>
    rw [Code.depthOf_of_window hwindow, List.map_singleton, List.sum_singleton,
      Code.depthOf_eq_zero rfl]
    omega
  | @folded inner w w' u source r v supplied supplied' vs below result t y offsets op hready _ hsums =>
    obtain ⟨m, hm, hdepth⟩ := hview _
      (List.mem_map_of_mem (List.mem_append_right _ (List.mem_singleton_self _))) rfl
    have hsums : ((y.heads.map (·.rename (hd.redirect v))).map g.code.depthOf).sum = 0 := by
      rw [List.map_map]
      refine List.sum_eq_zero (List.forall_mem_map.2 fun n hn => Code.depthOf_eq_zero ?_)
      rcases hsums.kind_eq n hn with hk | ⟨i, hk⟩ <;> simp [Node.rename, hk, OpKind.window?]
    have hle := hm.depthOf_le
    rw [List.map_append, List.map_append, List.sum_append, hsums, List.map_singleton,
      List.map_singleton, List.sum_singleton]
    omega

theorem totalDepth_lt : g.code.Grounded ∧ g.code.totalDepth < f.code.totalDepth :=
  have hlow := fun {v n} => hc.low hr hhas (v := v) (n := n)
  ⟨hc.replaces.grounded hhas hlow hground fun n hn hwindow =>
      (hc.low_new hr hhas hground n hn hwindow).imp fun _ => And.left,
    hc.replaces.totalDepth_add_le hr (fun _ hh => Replaces.depthOf_le hhas hlow hground hh)
      (hc.sum_depths_lt hr hhas hground)⟩

end Cleaned

theorem Sheds.totalDepth_le {f g : Function} {k : Spine} {b x z : Code} {hd : Node}
    (hs : f.Sheds g k b x z hd)
    (hhas : ∀ h ∈ (k.plug (b ++ .node hd x z)).heads, ∀ v ∈ h.operands, f.Has v)
    (hground : (k.plug (b ++ .node hd x z)).Grounded) :
    g.code.Grounded ∧ g.code.totalDepth ≤ f.code.totalDepth :=
  have hlow := fun {v n} => hs.replaces.low hs.before hhas (fun _ _ _ hne => (hne rfl).elim)
    (v := v) (n := n)
  ⟨hs.replaces.grounded hhas hlow hground (by simp),
    hs.replaces.totalDepth_add_le (n := 0) hs.before
      (fun _ hh => Replaces.depthOf_le hhas hlow hground hh) (by simp)⟩

structure Stacked (made : Prop) (f : Function) : Prop where
  wellFormed : f.WellFormed
  has : ∀ h ∈ f.code.heads, ∀ v ∈ h.operands, f.Has v
  grounded : f.code.Grounded
  made : made → ∀ h ∈ f.code.heads, h.Made f

end Function

namespace Greedy

theorem lowers_totalDepth (made : Prop) : Lowers (fun fault => made → fault = .overflow)
    (Function.Stacked made) (·.code.totalDepth) Rule.viewCleanup where
  wellFormed _ h := h.wellFormed
  sheds f g k b x z hd h hs := by
    have hcode := hs.before.code_eq
    obtain ⟨hground, hle⟩ := hs.totalDepth_le (hcode ▸ h.has) (hcode ▸ h.grounded)
    have hstay : ∀ h' ∈ g.code.heads, h' ∈ f.code.heads := by
      intro h' hh'
      rcases hs.replaces.cases hh' with hnew | ⟨h₁, hh₁, rfl⟩
      · cases hnew
      · rw [Node.rename_id]
        exact hcode ▸ Spine.mem_heads_iff.2 (hh₁.imp_right .inr)
    refine ⟨⟨hs.after.wellFormed, fun h' hh' v hv => hs.same.grows.has (h.has h' (hstay h' hh') v hv),
      hground, fun hmade h' hh' => ?_⟩, hle⟩
    have hkept := hs.same.grows.respectsBuffers.made (h.made hmade h' (hstay h' hh'))
    rwa [Node.rename_id] at hkept
  rule {f k b hd x z} h hr rule hrule := by
    obtain ⟨-, hhas, hground, hmade⟩ := h
    rw [hr.code_eq] at hhas hground hmade
    refine Inspect.endsWith_of_gives (fun h => Rule.gives_of_made hrule hr (hmade h)) fun g hg => ?_
    obtain ⟨σ, new, hc⟩ := Rule.cleaned_of_answers hrule hr hg
    obtain ⟨hground', hlt⟩ := hc.totalDepth_lt hr hhas hground
    exact ⟨⟨⟨hc.replaces.wellFormed, hc.has hhas, hground', fun h => hc.made hhas (hmade h)⟩,
      hc.replaces.grows.ops⟩, hr.code_eq ▸ hlt⟩

theorem run_viewCleanup_le_depths {f : Function} (hwf : f.WellFormed) (hf : f.Acyclic) (maxSweeps : Nat) :
    Ends (fun fault => (∀ h ∈ f.code.heads, h.Made f) → fault = .overflow)
      (run Rule.viewCleanup maxSweeps f).outcome fun r =>
        r.2.changes ≤ f.code.totalDepth ∧
          (f.code.totalDepth + 2 ≤ maxSweeps → r.2.converged = true) :=
  (lowers_totalDepth _).run maxSweeps ⟨hwf, hf.has, hf.grounded, id⟩

def windowedTile : Function where
  name := "windowed"
  ops := #[⟨.alloc, [], some ⟨1⟩, none, [], [], none, true⟩,
    ⟨.view, [⟨1⟩], some ⟨2⟩, none, [], [], none, true⟩,
    ⟨.subView ⟨[.static 0], [4], [1]⟩, [⟨2⟩], some ⟨3⟩, none, [], [], none, true⟩,
    ⟨.subView ⟨[.static 1], [3], [1]⟩, [⟨3⟩], some ⟨4⟩, none, [], [], none, true⟩,
    ⟨.subView ⟨[.static 1], [2], [1]⟩, [⟨4⟩], some ⟨5⟩, none, [], [], none, true⟩,
    ⟨.copy, [⟨5⟩, ⟨0⟩], none, none, [], [], none, true⟩]
  values := #[⟨.buffer (.rowMajor [2] .float32 .global), .argument 0⟩,
    ⟨.buffer (.rowMajor [16] .uint8 .global), .result ⟨0⟩⟩,
    ⟨.buffer (.rowMajor [4] .float32 .global), .result ⟨1⟩⟩,
    ⟨.buffer ⟨[4], .float32, .strided (some 0) [1], .global⟩, .result ⟨2⟩⟩,
    ⟨.buffer ⟨[3], .float32, .strided (some 1) [1], .global⟩, .result ⟨3⟩⟩,
    ⟨.buffer ⟨[2], .float32, .strided (some 2) [1], .global⟩, .result ⟨4⟩⟩]
  arity := 1
  body := [⟨0⟩, ⟨1⟩, ⟨2⟩, ⟨3⟩, ⟨4⟩, ⟨5⟩]

theorem run_viewCleanup_le_depths_windowedTile : windowedTile.WellFormed ∧ windowedTile.Acyclic ∧
    (∀ h ∈ windowedTile.code.heads, h.Made windowedTile) ∧ windowedTile.code.totalDepth = 6 ∧
      ∃ g outcome, (run Rule.viewCleanup 8 windowedTile).outcome = .ok (g, outcome) ∧
        outcome.changes = 2 ∧ outcome.changes ≤ 6 ∧ outcome.converged = true := by
  have hwf : windowedTile.WellFormed := by decide +kernel
  have hacyclic : windowedTile.Acyclic := ⟨by decide +kernel, (·.index), by decide +kernel⟩
  have hmade : ∀ h ∈ windowedTile.code.heads, h.Made windowedTile := by decide +kernel
  have hdepth : windowedTile.code.totalDepth = 6 := by decide +kernel
  have hok : (run Rule.viewCleanup 8 windowedTile).outcome.toOption.map (·.2.changes) = some 2 := by
    decide +kernel
  generalize windowedTile = f at *
  obtain ⟨⟨g, outcome⟩, hrun, hchanges⟩ := Fault.toOption_map_eq_some.1 hok
  obtain ⟨hle, hconverged⟩ := (run_viewCleanup_le_depths hwf hacyclic 8).of_ok hrun
  exact ⟨hwf, hacyclic, hmade, hdepth, g, outcome, hrun, hchanges, hdepth ▸ hle,
    hconverged (by omega)⟩

def unsuppliedWindow : Function where
  name := "unsupplied"
  ops := #[⟨.subView ⟨[.dynamic], [4], [1]⟩, [⟨0⟩], some ⟨1⟩, none, [], [], none, true⟩,
    ⟨.subView ⟨[.static 0], [2], [1]⟩, [⟨1⟩], some ⟨2⟩, none, [], [], none, true⟩,
    ⟨.copy, [⟨2⟩, ⟨2⟩], none, none, [], [], none, true⟩]
  values := #[⟨.buffer (.rowMajor [8] .float32 .global), .argument 0⟩,
    ⟨.buffer ⟨[4], .float32, .strided none [1], .global⟩, .result ⟨0⟩⟩,
    ⟨.buffer ⟨[2], .float32, .strided none [1], .global⟩, .result ⟨1⟩⟩]
  arity := 1
  body := [⟨0⟩, ⟨1⟩, ⟨2⟩]

theorem run_viewCleanup_faults_unsuppliedWindow : unsuppliedWindow.WellFormed ∧
    unsuppliedWindow.Acyclic ∧ unsuppliedWindow.code.totalDepth + 2 = 5 ∧
      (run Rule.viewCleanup 5 unsuppliedWindow).outcome = .error .missingOffsetOperand :=
  ⟨by decide +kernel, ⟨by decide +kernel, (·.index), by decide +kernel⟩, by decide +kernel, rfl⟩

end Greedy

end KernelLowering
