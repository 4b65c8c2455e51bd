import KernelLowering.Proofs.Address.Replacement
import KernelLowering.Proofs.Arena.DeadCode
import KernelLowering.Proofs.Folding.Views

namespace KernelLowering.ViewFolding

variable {f g : Function} {c c' : Code} {bindings : Bindings} {limit : Nat}
  {σ : ValueId → ValueId}

def Defines (c' : Code) (bindings : Bindings) (σ : ValueId → ValueId) (y : Code) : Prop :=
  ∀ h ∈ y.heads, ∀ v t, h.result = some (v, t) →
    σ v = v ∧ bindings.find? v = none ∧ c'.definer? v = some (h.rename σ)

theorem indexAt_shifted {op op' : OpId} {u e v : ValueId} {shift n : Int}
    (hkeeps : KeepsIndices c c' bindings σ fun _ => True)
    (hnew : Defines c' bindings σ (.node (.value op (.constant shift) [] e .index) .nil
      (.node (.value op' .addIndex [u, e] v .index) .nil .nil)))
    (hu : c.IndexAt bindings limit u n) (hfits : Checked.Fits (n + shift)) :
    c'.IndexAt bindings (limit + 1) (σ v) (n + shift) := by
  obtain ⟨he, hebound, hedef⟩ := hnew _ List.mem_cons_self e .index rfl
  obtain ⟨hv, hvbound, hvdef⟩ := hnew (.value op' .addIndex [u, e] v .index)
    (by simp [Code.heads]) v .index rfl
  have hshift : c'.IndexAt bindings limit (σ e) shift := by
    rw [he]
    cases limit with
    | zero => cases hu
    | succ limit => exact .constant hebound hedef rfl
  rw [hv]
  exact .sum hvbound hvdef rfl (x := σ u) (y := σ e) rfl
    (hu.rename hkeeps trivial) hshift hfits

theorem Summed.offsetAt {o o' : SuppliedOffset ValueId} {y : Code} {offset : Offset}
    {vs : List ValueId} {n n' : Int} (h : Summed o o' y offset vs)
    (hkeeps : KeepsIndices c c' bindings σ fun _ => True) (hnew : Defines c' bindings σ y)
    (ho : c.OffsetAt bindings limit o n) (ho' : c.OffsetAt bindings limit o' n')
    (hfits : Checked.Fits (n + n')) (offsets : List Offset) (rest : List ValueId) :
    ∃ s, Offset.supply (offset :: offsets) (vs.map σ ++ rest) = s :: Offset.supply offsets rest ∧
      c'.OffsetAt bindings (limit + 1) s (n + n') := by
  cases h with
  | static =>
    cases ho
    cases ho'
    exact ⟨_, rfl, .static _⟩
  | outer u =>
    cases ho'
    cases ho with
    | supplied hu =>
      rw [Int.add_zero]
      exact ⟨_, rfl, .supplied ((hu.rename hkeeps trivial).mono (Nat.le_succ _))⟩
  | inner u =>
    cases ho
    cases ho' with
    | supplied hu =>
      rw [Int.zero_add]
      exact ⟨_, rfl, .supplied ((hu.rename hkeeps trivial).mono (Nat.le_succ _))⟩
  | outerShifted op op' e v hb =>
    cases ho'
    cases ho with
    | supplied hu => exact ⟨_, rfl, .supplied (indexAt_shifted hkeeps hnew hu hfits)⟩
  | innerShifted op op' e v ha =>
    cases ho
    cases ho' with
    | supplied hu =>
      rw [Int.add_comm] at hfits ⊢
      exact ⟨_, rfl, .supplied (indexAt_shifted hkeeps hnew hu hfits)⟩
  | both u u' op v =>
    obtain ⟨hv, hvbound, hvdef⟩ := hnew _ List.mem_cons_self _ _ rfl
    cases ho with
    | supplied hu =>
      cases ho' with
      | supplied hu' =>
        refine ⟨_, rfl, .supplied ?_⟩
        rw [Int.add_comm] at hfits ⊢
        rw [hv]
        exact .sum hvbound hvdef rfl (x := σ u') (y := σ u) rfl (hu'.rename hkeeps trivial)
          (hu.rename hkeeps trivial) hfits

theorem SummedAll.offsetsAt {dims : List (SuppliedOffset ValueId × SuppliedOffset ValueId)}
    {y : Code} {offsets : List Offset} {supplied : List ValueId} {starts starts' : List Int}
    (h : SummedAll dims y offsets supplied)
    (hkeeps : KeepsIndices c c' bindings σ fun _ => True) (hnew : Defines c' bindings σ y)
    (ho : List.Forall₂ (c.OffsetAt bindings limit) (dims.map (·.1)) starts)
    (ho' : List.Forall₂ (c.OffsetAt bindings limit) (dims.map (·.2)) starts')
    (hfits : ∀ n ∈ List.zipWith (· + ·) starts starts', Checked.Fits n) :
    List.Forall₂ (c'.OffsetAt bindings (limit + 1)) (Offset.supply offsets (supplied.map σ))
      (List.zipWith (· + ·) starts starts') := by
  induction h generalizing starts starts' with
  | nil =>
    cases ho
    cases ho'
    exact .nil
  | @cons o o' dims y y' offset offsets vs supplied hfirst _ ih =>
    obtain ⟨n, starts, hn, hstarts, rfl⟩ := List.forall₂_cons_left_iff.1 ho
    obtain ⟨n', starts', hn', hstarts', rfl⟩ := List.forall₂_cons_left_iff.1 ho'
    rw [List.zipWith_cons_cons, List.forall_mem_cons] at hfits
    have hnew₁ : Defines c' bindings σ y := fun h hh => hnew h (by simp [hh])
    have hnew₂ : Defines c' bindings σ y' := fun h hh => hnew h (by simp [hh])
    obtain ⟨s, hs, hat⟩ := hfirst.offsetAt hkeeps hnew₁ hn hn' hfits.1 offsets (supplied.map σ)
    rw [List.map_append, hs]
    exact .cons hat (ih hnew₂ hstarts hstarts' hfits.2)

section Step

variable {k : Spine} {b y z : Code} {hd inner : Node} {w w' : Window} {r u source v : ValueId}
  {supplied supplied' : List ValueId} {type result : BufferType} {t : ValueType}
  {offsets : List Offset} {vs : List ValueId} {op : OpId}

def foldedView (op : OpId) (w : Window) (source : ValueId) (vs : List ValueId) (v : ValueId)
    (result : BufferType) : Node :=
  .value op (.subView w) (source :: vs) v (.buffer result)

theorem rewired (hr : f.Represents (k.plug (b ++ .node hd .nil z))) (hres : hd.result = some (r, t))
    (hkind : hd.kind = .subView w)
    (hsplice : Splice f g (k.rename (hd.redirect v)) (b.rename (hd.redirect v))
      (y.rename (hd.redirect v)) (z.rename (hd.redirect v))) (hv : v ∈ y.defined)
    (hscope : ∀ u n, bindings.find? u = some n → f.Has u) (hunbound : bindings.find? r = none) :
    Rewired f g (k.plug (b ++ .node hd .nil z)) ((k.rename (hd.redirect v)).plug
      (b.rename (hd.redirect v) ++ (y.rename (hd.redirect v) ++ z.rename (hd.redirect v))))
        bindings (hd.redirect v) (fun _ => True) hd := by
  have hfresh : ∀ u ∈ (y.rename (hd.redirect v)).defined, ¬ f.Has u := fun u hu => Nat.not_lt.2 (hsplice.size_le hu)
  have hvars := hr.inductionVars_eq_nil (Spine.mem_heads_at k b .nil z hd) (by rw [hkind]; rfl)
  refine .of_represents hr hsplice.represents hsplice.grows hfresh hvars
    (fun u _ hu => hd.redirect_of_not_mem hu v) (fun u _ => ?_) (fun _ _ _ _ _ => trivial)
      (fun _ _ _ => by simp [hkind, OpKind.window?])
  rw [hd.redirect_of_result hres]
  by_cases hu : u = r
  · subst u
    rw [Function.swapped_self, hunbound]
    rw [Code.defined_rename] at hfresh
    exact Option.eq_none_iff_forall_ne_some.2 fun n hn => hfresh v hv (hscope v n hn)
  · rw [Function.swapped_of_ne hu]

theorem defines {y' : Code} (hr : f.Represents (k.plug (b ++ .node hd .nil z)))
    (hsplice : Splice f g (k.rename (hd.redirect v)) (b.rename (hd.redirect v))
      (y.rename (hd.redirect v)) (z.rename (hd.redirect v)))
    (hscope : ∀ u n, bindings.find? u = some n → f.Has u) (hsub : ∀ h ∈ y'.heads, h ∈ y.heads) :
    Defines ((k.rename (hd.redirect v)).plug (b.rename (hd.redirect v) ++
      (y.rename (hd.redirect v) ++ z.rename (hd.redirect v)))) bindings (hd.redirect v) y' := by
  intro h hh e t hres
  have hrenamed : h.rename (hd.redirect v) ∈ (y.rename (hd.redirect v)).heads := by
    rw [Code.heads_rename]
    exact List.mem_map_of_mem (hsub h hh)
  have hfresh : ¬ f.Has e := Nat.not_lt.2 <| hsplice.size_le
    (List.mem_flatMap.2 ⟨_, hrenamed, by simp [Node.defined, Node.rename, hres]⟩)
  refine ⟨hd.redirect_of_not_mem (fun hm => hfresh ?_) v,
    Option.eq_none_iff_forall_ne_some.2 fun n hn => hfresh (hscope e n hn),
    hsplice.represents.definer?_eq (Spine.mem_heads_splice.2 (.inr hrenamed)) hres⟩
  exact hr.has_of_mem (List.mem_flatMap.2 ⟨hd, Spine.mem_heads_at k b .nil z hd, hm⟩)

theorem viewAt (hr : f.Represents (k.plug (b ++ .node hd .nil z))) (hres : hd.result = some (r, t))
    (hready : Ready f (k.plug (b ++ .node hd .nil z)) hd inner w w' u source supplied supplied' type)
    (hw : w.Ranked) (hrank : w.offsets.length = w'.offsets.length)
    (hones : ∀ stride ∈ w'.strides, stride = 1)
    (hsums : SummedAll
      ((Offset.supply w.offsets supplied).zip (Offset.supply w'.offsets supplied')) y offsets vs)
    (hsplice : Splice f g (k.rename (hd.redirect v)) (b.rename (hd.redirect v))
      ((y ++ .node (foldedView op (combined w offsets) source vs v result) .nil .nil).rename
        (hd.redirect v)) (z.rename (hd.redirect v)))
    (hscope : ∀ u n, bindings.find? u = some n → f.Has u) (hunbound : bindings.find? r = none)
    {d : Nat} {x root : ValueId} {a : IndexArray}
    (hat : f.ViewAt (k.plug (b ++ .node hd .nil z)) bindings limit d x root a) :
    g.ViewAt ((k.rename (hd.redirect v)).plug (b.rename (hd.redirect v) ++
      ((y ++ .node (foldedView op (combined w offsets) source vs v result) .nil .nil).rename
        (hd.redirect v) ++ z.rename (hd.redirect v)))) bindings (limit + 1) d (hd.redirect v x) root
          a := by
  have hview : foldedView op (combined w offsets) source vs v result ∈
      (y ++ .node (foldedView op (combined w offsets) source vs v result) .nil .nil).heads := by
    simp [Code.heads]
  have hv : v ∈ (y ++ .node (foldedView op (combined w offsets) source vs v result) .nil
      .nil).defined := List.mem_flatMap.2 ⟨_, hview, by simp [foldedView, Node.defined, Node.value]⟩
  have hrewired := rewired hr hres hready.kind hsplice hv hscope hunbound
  refine hrewired.viewAt (Nat.le_succ _) (fun d x root a _ hx hat ih => ?_) trivial hat
  obtain ⟨-, t', hres'⟩ := Code.of_definer? hx
  obtain ⟨rfl, rfl⟩ : r = x ∧ t = t' := by simpa [hres] using hres'
  cases hat with
  | root htype hdef hshape => 
    have := hdef hd hx
    simp [hready.kind, OpKind.window?] at this
  | @window _ _ u₀ _ _ h₀ w₀ supplied₀ starts a₁ a' htype hdef hkind hops hsource hstarts hshows =>
    obtain rfl : hd = h₀ := Option.some.inj (hx.symm.trans hdef)
    obtain rfl : w = w₀ := by simpa [hready.kind] using hkind
    obtain ⟨rfl, rfl⟩ : u = u₀ ∧ supplied = supplied₀ := by simpa [hready.operands] using hops
    cases hsource with
    | root htype hdef hshape =>
      have hnone := hdef inner hready.definer
      simp [hready.innerKind, OpKind.window?] at hnone
    | @window d _ u₁ _ _ h₁ w₁ supplied₁ starts' a₂ _ htype' hdef' hkind' hops' hsource' hstarts'
        hshows' =>
      obtain rfl : inner = h₁ := Option.some.inj (hready.definer.symm.trans hdef')
      obtain rfl : w' = w₁ := by simpa [hready.innerKind] using hkind'
      obtain ⟨rfl, rfl⟩ : source = u₁ ∧ supplied' = supplied₁ := by
        simpa [hready.innerOperands] using hops'
      have hshows'' : (combined w offsets).Shows _ a₂ a := hshows'.compose hones hshows hw offsets
      have hfits : ∀ n ∈ List.zipWith (· + ·) starts starts', Checked.Fits n := by
        obtain ⟨slices, hslices, -⟩ := hshows''
        exact hslices.fits hw.size_pos hw.stride_pos
      have hdims : (Offset.supply w.offsets supplied).length =
          (Offset.supply w'.offsets supplied').length := by
        rw [Offset.length_supply, Offset.length_supply, hrank]
      have hstarts'' := hsums.offsetsAt hrewired.toKeepsIndices
        (defines hr hsplice hscope fun h hh => by simp [hh])
        ((List.map_fst_zip hdims.le).symm ▸ hstarts) ((List.map_snd_zip hdims.ge).symm ▸ hstarts')
        hfits
      obtain ⟨-, -, hdefv⟩ := defines hr hsplice hscope (fun _ hh => hh) _ hview v _ rfl
      have htypev := hsplice.represents.bufferType?_eq (Code.of_definer? hdefv).1 rfl
      rw [hd.redirect_of_result hres, Function.swapped_self, ← hd.redirect_of_result hres]
      refine .window htypev hdefv rfl rfl ?_ hstarts'' hshows''
      have hsource := ih d source root a₂ (Nat.le_succ d) trivial hsource'
      exact hsource.mono (Nat.le_refl _) (Nat.le_succ d)

end Step

end KernelLowering.ViewFolding
