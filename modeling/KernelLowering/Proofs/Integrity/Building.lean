import KernelLowering.Proofs.Integrity.Records
import KernelLowering.Rule.Basic

namespace KernelLowering

def Builder.Sound (s : Builder) : Prop :=
  ∀ p, s.point = .atEnd (some p) → s.function.isLive p = .ok true

theorem Builder.sound_before (f : Function) (op : OpId) : Builder.Sound ⟨f, .before op⟩ :=
  fun _ hp => by cases hp

def Function.placeAt (f : Function) (op : OpId) : InsertionPoint → Except Fault Function
  | .before anchor => f.placeBefore op anchor
  | .atEnd parent => f.placeAtEnd op parent

theorem Function.rewires_placeAt {f g : Function} {op : OpId} {point : InsertionPoint} {keeps : Prop}
    (h : f.placeAt op point = .ok g)
    (hpoint : ∀ p, point = .atEnd (some p) → f.isLive p = .ok true) : f.Rewires keeps g := by
  cases point with
  | before anchor => exact rewires_placeBefore h
  | atEnd parent => exact rewires_placeAtEnd h fun p hp => hpoint p (hp ▸ rfl)

namespace Build

variable {α β : Type} {s s' : Builder} {faults : Fault → Prop} {I : Function → Prop}
  {kind : OpKind} {operands : List ValueId} {type : Option ValueType} {marker : Option Stage}
  {op : OpId}

@[simp] theorem ends_bind {x : Build α} {next : α → Build β} {q : β × Builder → Prop} :
    Ends faults ((x >>= next).run s) q ↔
      Ends faults (x.run s) fun r => Ends faults ((next r.1).run r.2) q := by
  rw [StateT.run_bind, Ends.bind_iff]

@[simp] theorem ends_lift {x : Except Fault α} {q : α × Builder → Prop} :
    Ends faults ((liftM x : Build α).run s) q ↔ Ends faults x fun a => q (a, s) := by
  rw [show (liftM x : Build α).run s = x >>= fun a => pure (a, s) from StateT.run_monadLift x s,
    Ends.bind_iff]
  rfl

@[simp] theorem ends_function {q : Function × Builder → Prop} :
    Ends faults (Build.function.run s) q ↔ q (s.function, s) := Iff.rfl

@[simp] theorem ends_point {q : InsertionPoint × Builder → Prop} :
    Ends faults (Build.point.run s) q ↔ q (s.point, s) := Iff.rfl

theorem run_place : (place op).run s =
    (fun f => ((), { s with function := f })) <$> s.function.placeAt op s.point := by
  obtain ⟨f, point⟩ := s
  cases point with
  | before anchor => cases h : f.placeBefore op anchor <;> simp [place, Build.point, edit, Function.placeAt, h]
  | atEnd parent => cases h : f.placeAtEnd op parent <;> simp [place, Build.point, edit, Function.placeAt, h]

theorem run_insert : (insert kind operands type marker).run s =
    (fun f => (⟨s.function.ops.size⟩, { s with function := f })) <$>
      (s.function.addOp kind operands type marker).1.placeAt ⟨s.function.ops.size⟩ s.point := by
  simp only [insert, StateT.run_bind, StateT.run_get, StateT.run_set, run_place, pure_bind,
    Function.snd_addOp]
  cases (s.function.addOp kind operands type marker).1.placeAt ⟨s.function.ops.size⟩ s.point <;> rfl

theorem rewires_insert (h : (insert kind operands type marker).run s = .ok (op, s'))
    (hs : s.Sound) : op = ⟨s.function.ops.size⟩ ∧ s'.point = s.point ∧
      (s.function.addOp kind operands type marker).1.Rewires True s'.function := by
  rw [run_insert, Fault.map_eq_ok] at h
  obtain ⟨g, hg, h⟩ := h
  cases h
  exact ⟨rfl, rfl, Function.rewires_placeAt hg fun p hp => Function.isLive_addOp_of_eq_ok (hs p hp)⟩

theorem spares_insert (h : (insert kind operands type marker).run s = .ok (op, s')) (hs : s.Sound) :
    s'.Sound ∧ s.function.Spares s'.function ∧ s'.function.isLive op = .ok true := by
  obtain ⟨rfl, hpoint, hrewires⟩ := rewires_insert h hs
  have hspares : s.function.Spares s'.function := fun p hp =>
    hrewires.spares p (Function.isLive_addOp_of_eq_ok hp)
  refine ⟨fun p hp => ?_, hspares, hrewires.spares _ Function.isLive_addOp_self⟩
  exact hspares p (hs p (hpoint ▸ hp))

structure Invariant (I : Function → Prop) : Prop where
  insert : ∀ {s kind operands type marker}, I s.function → s.Sound →
    Ends (fun _ => True) ((Build.insert kind operands type marker).run s) fun r => I r.2.function
  replaceUses : ∀ {f} (old new), I f → I (f.replaceUses old new)

def Keeps (I : Function → Prop) (x : Build α) : Prop :=
  ∀ s, I s.function → s.Sound → Ends (fun _ => True) (x.run s) fun r =>
    I r.2.function ∧ r.2.Sound ∧ s.function.Spares r.2.function

namespace Keeps

theorem pure (a : α) : Keeps I (Pure.pure a : Build α) := fun _ h hs =>
  ⟨h, hs, Function.Spares.refl _⟩

theorem bind {x : Build α} {next : α → Build β} (hx : Keeps I x) (h : ∀ a, Keeps I (next a)) :
    Keeps I (x >>= next) := by
  intro s hI hs
  rw [ends_bind]
  refine (hx s hI hs).mono fun r _ ⟨hI', hs', hspares⟩ => ?_
  exact (h r.1 r.2 hI' hs').mono fun r' _ ⟨hI'', hs'', hspares'⟩ =>
    ⟨hI'', hs'', hspares.trans hspares'⟩

theorem lift (x : Except Fault α) : Keeps I (liftM x : Build α) := by
  intro s hI hs
  rw [ends_lift]
  exact Ends.of_eq_ok fun a _ => ⟨hI, hs, Function.Spares.refl _⟩

theorem throw (fault : Fault) : Keeps I (MonadExcept.throw fault : Build α) := fun _ _ _ => trivial

theorem function : Keeps I Build.function := fun _ h hs => ⟨h, hs, Function.Spares.refl _⟩

theorem discard {x : Build α} (hx : Keeps I x) : Keeps I (Functor.discard x) :=
  fun s hI hs => by
    rw [show (Functor.discard x).run s = (fun r => ((), r.2)) <$> x.run s from StateT.run_map .., Ends.map_iff]
    exact hx s hI hs

theorem forM {xs : List α} {g : α → Build Unit} (h : ∀ a ∈ xs, Keeps I (g a)) :
    Keeps I (xs.forM g) := by
  induction xs with
  | nil => exact pure ()
  | cons x xs ih =>
    rw [List.forall_mem_cons] at h
    exact h.1.bind fun _ => ih h.2

theorem mapM {xs : List α} {g : α → Build β} (h : ∀ a, Keeps I (g a)) : Keeps I (xs.mapM g) := by
  induction xs with
  | nil => exact pure []
  | cons x xs ih =>
    rw [List.mapM_cons]
    exact (h x).bind fun _ => ih.bind fun _ => pure _

theorem foldlM {xs : List α} {g : β → α → Build β} (h : ∀ b a, Keeps I (g b a)) (b : β) :
    Keeps I (xs.foldlM g b) := by
  induction xs generalizing b with
  | nil => exact pure b
  | cons x xs ih =>
    rw [List.foldlM_cons]
    exact (h b x).bind fun b' => ih b'

theorem setPoint_before (anchor : OpId) : Keeps I (Build.setPoint (.before anchor)) :=
  fun _ hI _ => ⟨hI, fun _ hp => (by simp at hp), Function.Spares.refl _⟩

end Keeps

namespace Invariant

variable (h : Invariant I)

include h

theorem keeps_insert : Keeps I (Build.insert kind operands type marker) := fun _ hI hs =>
  (h.insert hI hs).mono fun _ hr hI' =>
    have ⟨hs', hspares, _⟩ := spares_insert hr hs
    ⟨hI', hs', hspares⟩

theorem keeps_insertValue {t : ValueType} : Keeps I (Build.insertValue kind operands t) :=
  h.keeps_insert.bind fun _ => .bind .function fun _ => .lift _

theorem keeps_constant (n : Int) : Keeps I (Build.constant n) := h.keeps_insertValue

theorem keeps_subView (source : ValueId) (window : Window) (offsets : List ValueId) :
    Keeps I (Build.subView source window offsets) := by
  unfold Build.subView
  split
  · exact fun _ _ _ => trivial
  · exact .bind .function fun f => .bind (.lift _) fun t => .bind (.lift _) fun _ =>
      .bind (.lift _) fun _ => h.keeps_insertValue

theorem keeps_replaceUses (old new : ValueId) : Keeps I (Build.replaceUses old new) :=
  fun s hI hs =>
    have hrewires : s.function.Rewires True _ := Function.rewires_replaceUses s.function old new
    have hspares := hrewires.spares
    ⟨h.replaceUses old new hI, fun p hp => hspares p (hs p hp), hspares⟩

theorem keeps_inside {next : List ValueId → Build α} (hnext : ∀ vars, Keeps I (next vars)) :
    Keeps I (Build.loop kind >>= fun r => Build.setPoint (.atEnd (some r.1)) >>= fun _ => next r.2) := by
  intro s hI hs
  simp only [Build.loop, ends_bind]
  refine (h.insert hI hs).mono ?_
  rintro ⟨loop, s'⟩ hr hI'
  obtain ⟨-, hspares, hlive⟩ := spares_insert hr hs
  show Ends _ ((liftM (s'.function.op loop) : Build Operation).run s') _
  rw [ends_lift]
  refine Ends.of_eq_ok fun o _ => ?_
  refine (hnext o.inductionVars ⟨s'.function, .atEnd (some loop)⟩ hI' fun p hp => ?_).mono ?_
  · cases hp
    exact hlive
  · rintro r - ⟨hI'', hs'', hspares'⟩
    exact ⟨hI'', hs'', hspares.trans hspares'⟩

end Invariant

end Build

end KernelLowering
