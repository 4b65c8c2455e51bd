import KernelLowering.Proofs.Layout.Windows
import KernelLowering.Proofs.Safety.Rules

namespace KernelLowering

theorem ValueType.buffer?_eq_some {t : ValueType} {type : BufferType} :
    t.buffer? = some type ↔ t = .buffer type := by
  cases t <;> simp [buffer?]

namespace Function

variable {f g : Function} {k : Spine} {b x y z c : Code} {hd h : Node} {σ : ValueId → ValueId}
  {v : ValueId}

def viewTypes? (f : Function) (h : Node) : Option (BufferType × BufferType) := do
  let source ← h.operands.head?
  let below ← (← f.value? source).type.buffer?
  let type ← (← h.result).2.buffer?
  return (below, type)

def Firm (f : Function) (v : ValueId) : Prop :=
  v ∈ f.arguments ∨ ∃ kind, f.definingKind? v = .ok (some kind) ∧ kind.window? = none

theorem viewTypes?_eq_some {below type : BufferType} : f.viewTypes? h = some (below, type) ↔
    ∃ source rest v, h.operands = source :: rest ∧ f.bufferType? source = .ok (some below) ∧
      h.result = some (v, .buffer type) := by
  simp only [viewTypes?, Option.bind_eq_bind, Option.bind_eq_some_iff, Option.pure_def,
    Option.some.injEq, Prod.mk.injEq, List.head?_eq_some_iff, bufferType?, Fault.map_eq_ok,
    value_eq_ok]
  constructor
  · rintro ⟨source, ⟨rest, hops⟩, a, ha, below, hbelow, ⟨v, t⟩, hres, type, htype, rfl, rfl⟩
    rw [show t = .buffer type from ValueType.buffer?_eq_some.1 htype] at hres
    exact ⟨source, rest, v, hops, ⟨a, ha, hbelow⟩, hres⟩
  · rintro ⟨source, rest, v, hops, ⟨a, ha, hbelow⟩, hres⟩
    exact ⟨source, ⟨rest, hops⟩, a, ha, below, hbelow, (v, .buffer type), hres, type, rfl, rfl, rfl⟩

end Function

/-- A sub-view has the type of its window over its source. -/
def Node.Exact (f : Function) (h : Node) : Prop :=
  ∀ w ∈ h.kind.window?, ∃ t ∈ f.viewTypes? h, w.resultType t.1 = .ok t.2

/-- A sub-view has the type of its window over its source but may leave open where it begins, and that
only if its source is not firm. -/
def Node.Shown (f : Function) (h : Node) : Prop :=
  ∀ w ∈ h.kind.window?, ∃ t ∈ f.viewTypes? h, w.Types t.1 t.2 ∧
    ((∀ source ∈ h.operands.head?, f.Firm source) → w.resultType t.1 = .ok t.2)

instance (f : Function) (h : Node) : Decidable (h.Exact f) := by
  unfold Node.Exact
  infer_instance

theorem Node.Exact.shown {f : Function} {h : Node} (he : h.Exact f) : h.Shown f := fun w hw =>
  have ⟨t, ht, htype⟩ := he w hw
  ⟨t, ht, .inl htype, fun _ => htype⟩

theorem Node.Shown.of_not_subView {f : Function} {h : Node} (hk : h.kind.window? = none) :
    h.Shown f := by
  intro w hw
  rw [hk] at hw
  cases hw

def Node.SumsIndices (h : Node) : Prop := h.kind = .addIndex → ∀ r ∈ h.result, r.2 = .index

instance (h : Node) : Decidable h.SumsIndices := by
  unfold Node.SumsIndices
  infer_instance

namespace Function

variable {f g : Function} {k : Spine} {b x y z c : Code} {hd h : Node} {σ : ValueId → ValueId}
  {v : ValueId}

def Sharpens (g : Function) (σ : ValueId → ValueId) : Prop :=
  ∀ v type, g.bufferType? v = .ok (some type) → σ v = v ∨ ∃ h ∈ g.code.heads, ∃ w type',
    h.kind = .subView w ∧ h.result = some (σ v, .buffer type') ∧ type.Outlines type'

theorem not_firm_of_subView (hwf : f.WellFormed) (hh : h ∈ f.code.heads) {w : Window}
    {t : ValueType} (hkind : h.kind = .subView w) (hres : h.result = some (v, t)) : ¬ f.Firm v := by
  have hvalue := hwf.result hh hres
  rintro (harg | ⟨kind, hdef, hwindow⟩)
  · obtain ⟨i, hi, rfl⟩ := List.mem_map.1 harg
    obtain ⟨t', ht'⟩ := hwf.argument (List.mem_range.1 hi)
    rw [hvalue] at ht'
    cases ht'
  · have hhas : f.Has v := (Array.getElem?_eq_some_iff.1 hvalue).1
    rw [hwf.definingKind?_eq hhas, hwf.definer?_eq hh hres, Option.map_some, Except.ok.injEq,
      Option.some.injEq] at hdef
    rw [← hdef, hkind] at hwindow
    cases hwindow

theorem Sharpens.shown (hσ : g.Sharpens σ) (hwf : g.WellFormed) (hs : h.Shown g) :
    (h.rename σ).Shown g := by
  intro w hw
  obtain ⟨⟨below, type⟩, ht, hshows, hexact⟩ := hs w hw
  obtain ⟨source, rest, v, hops, hbelow, hres⟩ := viewTypes?_eq_some.1 ht
  have hops' : (h.rename σ).operands = σ source :: rest.map σ := by
    rw [Node.rename, hops, List.map_cons]
  rcases hσ source below hbelow with hsame | ⟨h', hh', w', below', hkind', hres', houtlines⟩
  · refine ⟨(below, type), viewTypes?_eq_some.2 ⟨_, _, v, hops', by rwa [hsame], hres⟩, hshows,
      fun hfirm => hexact fun u hu => ?_⟩
    obtain rfl : source = u := by simpa [hops] using hu
    rw [← hsame]
    exact hfirm _ (by rw [hops', List.head?_cons, Option.mem_some])
  · refine ⟨(below', type),
      viewTypes?_eq_some.2 ⟨_, _, v, hops', hwf.bufferType?_eq hh' hres', hres⟩,
      hshows.outlines houtlines, fun hfirm => ?_⟩
    exact (not_firm_of_subView hwf hh' hkind' hres'
      (hfirm _ (by rw [hops', List.head?_cons, Option.mem_some]))).elim

structure Shown (f : Function) : Prop where
  wellFormed : f.WellFormed
  views : ∀ h ∈ f.code.heads, h.Shown f
  sums : ∀ h ∈ f.code.heads, h.SumsIndices

namespace Shown

theorem views_of (h : f.Shown) (hr : f.Represents c) : ∀ hd ∈ c.heads, hd.Shown f :=
  hr.code_eq ▸ h.views

theorem sums_of (h : f.Shown) (hr : f.Represents c) : ∀ hd ∈ c.heads, hd.SumsIndices :=
  hr.code_eq ▸ h.sums

theorem splice (h : f.Shown) (hr : f.Represents (k.plug (b ++ .node hd x z)))
    (hg : g.Represents ((k.rename σ).plug (b.rename σ ++ (y ++ z.rename σ)))) (hgrows : f.Grows g)
    (hσ : g.Sharpens σ)
    (hy : ∀ h' ∈ y.heads, (∃ h ∈ x.heads, h.rename σ = h') ∨
      h'.Shown g ∧ h'.SumsIndices ∧ ∀ v ∈ h'.defined, ¬ f.Has v) : g.Shown := by
  have hheads : ∀ h' ∈ ((k.rename σ).plug (b.rename σ ++ (y ++ z.rename σ))).heads,
      (∃ h ∈ (k.plug (b ++ .node hd x z)).heads, h.rename σ = h') ∨
        h'.Shown g ∧ h'.SumsIndices ∧ ∀ v ∈ h'.defined, ¬ f.Has v := by
    intro h' hh'
    rcases Spine.mem_heads_splice.1 hh' with ⟨h'', hh'', e⟩ | hh'
    · exact .inl ⟨h'', Spine.mem_heads_around hh'' hd x, e⟩
    · refine (hy h' hh').imp_left fun ⟨h'', hh'', e⟩ => ⟨h'', ?_, e⟩
      exact Spine.mem_heads_node.2 (.inr (.inl hh''))
  have hfirm : ∀ v, f.Has v → g.Firm v → f.Firm v := by
    rintro v hv (harg | ⟨kind, hdef, hwindow⟩)
    · rw [Function.arguments, hgrows.arity] at harg
      exact .inl harg
    · rw [hg.definingKind?_eq (hgrows.has hv), Except.ok.injEq, Option.map_eq_some_iff] at hdef
      obtain ⟨h', hdef, rfl⟩ := hdef
      obtain ⟨hh', t, hres⟩ := Code.of_definer? hdef
      rcases hheads h' hh' with ⟨h'', hh'', rfl⟩ | ⟨-, -, hnew⟩
      · refine .inr ⟨h''.kind, ?_, hwindow⟩
        rw [hr.definingKind?_eq hv, hr.definer?_eq hh'' hres, Option.map_some]
      · exact (hnew v (by simp [Node.defined, hres]) hv).elim
  refine ⟨hg.wellFormed, fun h' hh' => ?_, fun h' hh' => ?_⟩
  · rw [hg.code_eq] at hh'
    rcases hheads h' hh' with ⟨h'', hh'', rfl⟩ | ⟨hshown, -⟩
    · refine hσ.shown hg.wellFormed fun w hw => ?_
      obtain ⟨⟨below, type⟩, ht, hshows, hexact⟩ := h.views_of hr h'' hh'' w hw
      obtain ⟨source, rest, v, hops, hbelow, hres⟩ := viewTypes?_eq_some.1 ht
      refine ⟨(below, type), viewTypes?_eq_some.2 ⟨_, _, v, hops, hgrows.bufferType? hbelow, hres⟩,
        hshows, fun hsource => hexact fun u hu => ?_⟩
      obtain rfl : source = u := by simpa [hops] using hu
      exact hfirm _ (has_of_bufferType? hbelow) (hsource _ hu)
    · exact hshown
  · rw [hg.code_eq] at hh'
    rcases hheads h' hh' with ⟨h'', hh'', rfl⟩ | ⟨-, hsums, -⟩
    · exact h.sums_of hr h'' hh''
    · exact hsums

theorem shed (h : f.Shown) (hs : f.Sheds g k b x z hd) : g.Shown :=
  h.splice (σ := id) (y := .nil) hs.before (by simpa using hs.after) hs.same.grows
    (fun _ _ _ => .inl rfl) fun _ hh => by cases hh

end Shown

end Function

variable {f g : Function} {k : Spine} {b x y z : Code} {hd h : Node}

theorem Node.SumsIndices.of_ne {h : Node} (hk : h.kind ≠ .addIndex) : h.SumsIndices :=
  fun he => (hk he).elim

namespace TrivialLoops

theorem shown {ρ : ValueId → ValueId} (h : f.Shown) (hr : f.Represents (k.plug (b ++ .node hd x z)))
    (ht : Trimmed f hd x ρ y)
    (hg : g.Represents ((k.rename ρ).plug (b.rename ρ ++ (y ++ z.rename ρ)))) (hgrows : f.Grows g) :
    g.Shown := by
  refine h.splice hr hg hgrows (fun v type hv => .inl ?_) fun h' hh' => ?_
  · refine vars_of_trimmed hr ht fun hvar => ?_
    obtain ⟨i, hi⟩ := List.mem_iff_getElem?.1 hvar
    have hvalue := hgrows.value (hr.var (Spine.mem_heads_at k b x z hd) hi)
    rw [Function.bufferType?, Function.value_eq_ok.2 hvalue] at hv
    cases hv
  · have hconstants : ∀ {pairs kept swaps yd}, Drops pairs kept swaps yd → ∀ h ∈ yd.heads,
        ∃ n, h.kind = .constant n := by
      intro pairs kept swaps yd hdrops
      induction hdrops with
      | nil => simp [Code.heads]
      | single op v _ _ ih =>
        simp only [Code.heads, List.nil_append, List.forall_mem_cons]
        exact ⟨⟨_, rfl⟩, ih⟩
      | keep _ ih => exact ih
    have hnew : ∀ {kind : OpKind}, kind.window? = none → kind ≠ .addIndex → h'.kind = kind →
        (∀ v ∈ h'.defined, ¬ f.Has v) → h'.Shown g ∧ h'.SumsIndices ∧ ∀ v ∈ h'.defined, ¬ f.Has v :=
      fun hwindow hadd hkind hfresh =>
        ⟨.of_not_subView (hkind ▸ hwindow), .of_ne (hkind ▸ hadd), hfresh⟩
    have hbody : h' ∈ (x.rename ρ).heads → ∃ h ∈ x.heads, h.rename ρ = h' := fun hh' =>
      List.mem_map.1 (Code.heads_rename _ x ▸ hh')
    cases ht with
    | never => cases hh'
    | once hdrops hfresh =>
      rw [Code.heads_append, List.mem_append] at hh'
      rcases hh' with hh' | hh'
      · obtain ⟨n, hkind⟩ := hconstants hdrops h' hh'
        exact .inr (hnew rfl (by simp) hkind fun v hv => hfresh v (List.mem_flatMap.2 ⟨h', hh', hv⟩))
      · exact .inl (hbody hh')
    | @loop kept swaps yd kind vars op hdrops hloop hranges hlen hfresh =>
      rw [Code.heads_append, List.mem_append, Code.heads, List.mem_cons] at hh'
      rcases hh' with hh' | rfl | hh'
      · obtain ⟨n, hkind⟩ := hconstants hdrops h' hh'
        exact .inr (hnew rfl (by simp) hkind fun v hv =>
          hfresh v (List.mem_append_left _ (List.mem_flatMap.2 ⟨h', hh', hv⟩)))
      · have hwindow : kind.window? = none := by
          cases kind <;> first | rfl | cases hloop
        have hadd : kind ≠ .addIndex := by
          rintro rfl
          cases hloop
        refine .inr (hnew hwindow hadd rfl fun v hv => hfresh v (List.mem_append_right _ ?_))
        · simpa [Node.defined, Node.loop] using hv
      · simp only [Code.heads, List.append_nil] at hh'
        exact .inl (hbody hh')

end TrivialLoops

theorem Splice.not_has (hs : Splice f g k b y z) {h : Node}
    (hh : h ∈ y.heads) {v : ValueId} (hv : v ∈ h.defined) : ¬ f.Has v :=
  Nat.not_lt_of_le (hs.size_le (List.mem_flatMap.2 ⟨h, hh, hv⟩))

namespace AdditionFolding

theorem shown (h : f.Shown) (hr : f.Represents (k.plug (b ++ .node hd x z)))
    (hcheck : (check f hd.op).Answers ()) (hg : Rule.additionFolding.performAt f hd.op = .ok g) :
    g.Shown ∧ f.Grows g := by
  obtain ⟨hkind, lhs, rhs, rest, hops, hl, hr', hfold⟩ :=
    (gives_check hr (ready_of_answers hr hcheck)).of_answers hcheck
  obtain ⟨y, w, hy, hsplice⟩ := (yields_perform hr hops hl hr' hfold).of_ok hg
  refine ⟨h.splice hr hsplice.represents hsplice.grows (fun v type hv => .inl ?_)
    fun h' hh' => .inr ⟨?_, ?_, fun v => hsplice.not_has hh'⟩, hsplice.grows⟩
  · rw [Node.redirect]
    cases hres : hd.result with
    | none => rfl
    | some r =>
      obtain ⟨r, t⟩ := r
      refine Function.swapped_of_ne ?_
      rintro rfl
      have htype := hsplice.grows.bufferType? (hr.bufferType?_eq (Spine.mem_heads_at k b x z hd) hres)
      obtain rfl : t = .index := h.sums_of hr hd (Spine.mem_heads_at k b x z hd) hkind _ hres
      rw [hv] at htype
      cases htype
  all_goals
    obtain ⟨h'', hh'', rfl⟩ := List.mem_map.1 (Code.heads_rename _ y ▸ hh')
    cases hy with
    | constants op v =>
      obtain rfl := List.mem_singleton.1 hh''
      first | exact .of_not_subView rfl | exact .of_ne (by simp [Node.rename, Node.value])
    | _ => cases hh''

end AdditionFolding

namespace OffsetFolding

theorem sharpened_foldedWindow (c : Code) (w : Window) (supplied : List ValueId) :
    w.Sharpened (foldedWindow c w supplied) := by
  refine ⟨rfl, rfl, ?_⟩
  rw [foldedWindow]
  dsimp only
  generalize w.offsets = offsets
  fun_induction Offset.supply offsets supplied with
  | case1 => exact .nil
  | case2 value offsets sources ih => exact .cons (.inl rfl) ih
  | case3 offsets source sources ih => exact .cons (.inr rfl) ih
  | case4 offsets ih => exact .cons (.inr rfl) ih

theorem shown (h : f.Shown) (hr : f.Represents (k.plug (b ++ .node hd x z)))
    (hg : Rule.offsetFolding.performAt f hd.op = .ok g) : g.Shown ∧ f.Grows g := by
  obtain ⟨w, source, supplied, below, hready⟩ := ready_of_ok hr hg
  obtain ⟨op, v, result, hresult, hsplice⟩ := (yields_perform hr hready).of_ok hg
  have hin := Spine.mem_heads_at k b x z hd
  obtain ⟨⟨below', type⟩, ht, hshows, -⟩ := h.views_of hr hd hin w (by rw [hready.kind]; rfl)
  obtain ⟨source', rest, r, hops, hbelow, hres⟩ := Function.viewTypes?_eq_some.1 ht
  obtain ⟨rfl, rfl⟩ : source = source' ∧ supplied = rest := by simpa using hready.operands.symm.trans hops
  obtain rfl : below = below' := by simpa using hready.source.symm.trans hbelow
  have houtlines : type.Outlines result := hshows.sharpened (sharpened_foldedWindow _ w supplied) hresult
  set new : Node := .value op (.subView (foldedWindow (k.plug (b ++ .node hd x z)) w supplied))
    (source :: remaining (k.plug (b ++ .node hd x z)) w supplied) v (.buffer result) with hnew
  have hmem : new.rename (hd.redirect v) ∈ g.code.heads := by
    rw [hsplice.represents.code_eq, Spine.mem_heads_plug]
    simp [Code.heads, Code.rename]
  have hσ : g.Sharpens (hd.redirect v) := by
    intro u type' hu
    rw [hd.redirect_of_result hres]
    by_cases hur : u = r
    · subst hur
      rw [hsplice.grows.bufferType? (hr.bufferType?_eq hin hres), Except.ok.injEq] at hu
      obtain rfl : type = type' := Option.some.inj hu
      refine .inr ⟨_, hmem, _, result, rfl, ?_, houtlines⟩
      rw [Function.swapped_self]
      rfl
    · exact .inl (Function.swapped_of_ne hur)
  refine ⟨h.splice hr hsplice.represents hsplice.grows hσ fun h' hh' => .inr ?_, hsplice.grows⟩
  have hfresh : ∀ v ∈ h'.defined, ¬ f.Has v := fun v => hsplice.not_has hh'
  rw [Code.heads_rename] at hh'
  obtain rfl : new.rename (hd.redirect v) = h' := by simpa [Code.heads, eq_comm] using hh'
  refine ⟨hσ.shown hsplice.represents.wellFormed fun w' hw' => ?_, .of_ne (by simp [hnew, Node.rename, Node.value]), hfresh⟩
  obtain rfl : _ = w' := by simpa [hnew, Node.value, OpKind.window?] using hw'
  exact ⟨(below, result), Function.viewTypes?_eq_some.2
    ⟨source, _, v, rfl, hsplice.grows.bufferType? hbelow, rfl⟩, .inl hresult, fun _ => hresult⟩

end OffsetFolding

theorem Rule.shown {rule : Rule} (hrule : rule ∈ canonicalization) (h : f.Shown)
    (hr : f.Represents (k.plug (b ++ .node hd x z))) (hg : (rule.apply f hd.op).Answers g) :
    g.Shown ∧ f.Grows g := by
  rw [apply, Inspect.answers_bind] at hg
  obtain ⟨⟨⟩, hcheck, hg⟩ := hg
  rw [Inspect.answers_lift] at hg
  simp only [canonicalization, List.mem_cons, List.not_mem_nil, or_false] at hrule
  rcases hrule with rfl | rfl | rfl
  · obtain ⟨ρ, y, ht, hrep, hgrows⟩ := (TrivialLoops.yields_perform hr).of_ok hg
    exact ⟨TrivialLoops.shown h hr ht hrep hgrows, hgrows⟩
  · exact AdditionFolding.shown h hr hcheck hg
  · exact OffsetFolding.shown h hr hg

namespace Greedy

theorem keeps_shown : Keeps (fun _ => True) Function.Shown Rule.canonicalization where
  wellFormed _ h := h.wellFormed
  sheds _ _ _ _ _ _ _ h hs := h.shed hs
  rule rule hmem _ _ _ _ _ _ h hr := Ends.of_eq_ok fun r hrun g hg =>
    have hstep := Rule.shown hmem h hr (by rw [Inspect.Answers, hrun, hg])
    ⟨hstep.1, hstep.2.ops⟩

theorem run_canonicalization_types {f : Function} (hwf : f.WellFormed)
    (hexact : ∀ h ∈ f.code.heads, h.Exact f) (hsums : ∀ h ∈ f.code.heads, h.SumsIndices)
    (maxSweeps : Nat) :
    (∀ g outcome, (run Rule.canonicalization maxSweeps f).outcome = .ok (g, outcome) →
      ∀ h ∈ g.code.heads, h.Shown g) ∧
    (f.Built → Yields True (run Rule.canonicalization maxSweeps f).outcome fun (g, _) =>
      ∀ h ∈ g.code.heads, h.Shown g) := by
  have hshown : f.Shown := ⟨hwf, fun h hh => (hexact h hh).shown, hsums⟩
  have hkeeps := keeps_shown.run maxSweeps hshown
  refine ⟨fun g outcome hrun => (hkeeps.of_ok hrun).views, fun hbuilt => ?_⟩
  exact ((Rule.yields_built hbuilt).2 _ maxSweeps).mono fun r hrun _ => (hkeeps.of_ok hrun).views

def tower : Function where
  name := "tower"
  ops := #[⟨.constant 1, [], some ⟨2⟩, none, [], [], none, true⟩,
    ⟨.subView ⟨[.dynamic], [4], [1]⟩, [⟨0⟩, ⟨2⟩], some ⟨3⟩, none, [], [], none, true⟩,
    ⟨.subView ⟨[.static 2], [2], [1]⟩, [⟨3⟩], some ⟨4⟩, none, [], [], none, true⟩,
    ⟨.copy, [⟨4⟩, ⟨1⟩], none, none, [], [], none, true⟩]
  values := #[⟨.buffer (.rowMajor [8] .float32 .global), .argument 0⟩,
    ⟨.buffer (.rowMajor [2] .float32 .global), .argument 1⟩, ⟨.index, .result ⟨0⟩⟩,
    ⟨.buffer ⟨[4], .float32, .strided none [1], .global⟩, .result ⟨1⟩⟩,
    ⟨.buffer ⟨[2], .float32, .strided none [1], .global⟩, .result ⟨2⟩⟩]
  arity := 2
  body := [⟨0⟩, ⟨1⟩, ⟨2⟩, ⟨3⟩]

def addedBuffer : Function where
  name := "added"
  ops := #[⟨.constant 0, [], some ⟨1⟩, none, [], [], none, true⟩,
    ⟨.addIndex, [⟨1⟩, ⟨0⟩], some ⟨2⟩, none, [], [], none, true⟩,
    ⟨.subView (.origin [2]), [⟨2⟩], some ⟨3⟩, none, [], [], none, true⟩,
    ⟨.copy, [⟨3⟩, ⟨3⟩], none, none, [], [], none, true⟩]
  values := #[⟨.buffer (.rowMajor [8] .float32 .global), .argument 0⟩, ⟨.index, .result ⟨0⟩⟩,
    ⟨.buffer (.rowMajor [8] .uint8 .global), .result ⟨1⟩⟩,
    ⟨.buffer ⟨[2], .uint8, .strided (some 0) [1], .global⟩, .result ⟨2⟩⟩]
  arity := 1
  body := [⟨0⟩, ⟨1⟩, ⟨2⟩, ⟨3⟩]

theorem run_canonicalization_types_tower : ∃ g outcome,
    (run Rule.canonicalization 4 tower).outcome = .ok (g, outcome) ∧ outcome.changes = 1 ∧
      ∀ h ∈ g.code.heads, h.Shown g := by
  have hok : ((run Rule.canonicalization 4 tower).outcome.toOption.map (·.2.changes)) = some 1 := by
    decide +kernel
  have hwf : tower.WellFormed := by decide +kernel
  have hexact : ∀ h ∈ tower.code.heads, h.Exact tower := by decide +kernel
  have hsums : ∀ h ∈ tower.code.heads, h.SumsIndices := by decide +kernel
  have hbuilt : tower.Built := by decide +kernel
  generalize tower = f at *
  have hyields := (run_canonicalization_types hwf hexact hsums 4).2 hbuilt
  obtain ⟨⟨g, outcome⟩, hrun, hchanges⟩ := Fault.toOption_map_eq_some.1 hok
  exact ⟨g, outcome, hrun, hchanges, hyields.of_ok hrun⟩

theorem not_exact_run_tower :
    (tower.WellFormed ∧ (∀ h ∈ tower.code.heads, h.Exact tower) ∧ ∃ g outcome,
      (run Rule.canonicalization 4 tower).outcome = .ok (g, outcome) ∧
        ¬ ∀ h ∈ g.code.heads, h.Exact g) ∧
    addedBuffer.WellFormed ∧ (∀ h ∈ addedBuffer.code.heads, h.Exact addedBuffer) ∧ ∃ g outcome,
      (run Rule.canonicalization 4 addedBuffer).outcome = .ok (g, outcome) ∧
        ¬ ∀ h ∈ g.code.heads, h.Exact g := by
  have hruns : ∀ f ∈ [tower, addedBuffer], ((run Rule.canonicalization 4 f).outcome.toOption.map
      fun r => decide (∀ h ∈ r.1.code.heads, h.Exact r.1)) = some false := by decide +kernel
  have hfinds : ∀ f ∈ [tower, addedBuffer], ∃ g outcome,
      (run Rule.canonicalization 4 f).outcome = .ok (g, outcome) ∧
        ¬ ∀ h ∈ g.code.heads, h.Exact g := fun f hf =>
    have ⟨⟨g, outcome⟩, hrun, hout⟩ := Fault.toOption_map_eq_some.1 (hruns f hf)
    ⟨g, outcome, hrun, of_decide_eq_false hout⟩
  exact ⟨⟨by decide +kernel, by decide +kernel, hfinds _ (by simp)⟩, by decide +kernel,
    by decide +kernel, hfinds _ (by simp)⟩

end Greedy

end KernelLowering
