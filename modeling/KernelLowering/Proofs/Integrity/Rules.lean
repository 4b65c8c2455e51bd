import KernelLowering.Proofs.Integrity.Building

namespace KernelLowering

namespace Build

variable {α β : Type} {I : Function → Prop} {s : Builder}

structure Editing (I : Function → Prop) : Prop extends Invariant I where
  erase : ∀ {f g op}, I f → f.erase op = .ok g → I g

theorem run_edit {change : Function → Except Fault Function} : (edit change).run s =
    (fun f => ((), { s with function := f })) <$> change s.function := by
  cases h : change s.function <;> simp [edit, h]

def Ensures (I : Function → Prop) (x : Build α) : Prop :=
  ∀ s, I s.function → s.Sound → Ends (fun _ => True) (x.run s) fun r => I r.2.function

theorem Keeps.then {x : Build α} {next : α → Build β} (hx : Keeps I x)
    (h : ∀ a, Ensures I (next a)) : Ensures I (x >>= next) := by
  intro s hI hs
  rw [ends_bind]
  exact (hx s hI hs).mono fun r _ ⟨hI', hs', _⟩ => h r.1 r.2 hI' hs'

namespace Editing

variable (h : Editing I)

include h

theorem replaceOp {f g : Function} {op : OpId} {new : Option ValueId} (hI : I f)
    (hg : f.replaceOp op new = .ok g) : I g := by
  obtain ⟨o, -, hg⟩ := Fault.bind_eq_ok.1 hg
  split at hg
  · exact h.erase (h.replaceUses _ _ hI) hg
  · exact h.erase hI hg

theorem ensures_erase (op : OpId) : Ensures I (Build.erase op) := by
  intro s hI _
  rw [Build.erase, run_edit, Ends.map_iff]
  exact Ends.of_eq_ok fun g hg => h.erase hI hg

theorem ensures_replaceOp (op : OpId) (new : Option ValueId) :
    Ensures I (Build.replaceOp op new) := by
  intro s hI _
  rw [Build.replaceOp, run_edit, Ends.map_iff]
  exact Ends.of_eq_ok fun g hg => h.replaceOp hI hg

end Editing

end Build

open Build

variable {I : Function → Prop}

namespace Tiling

variable (t : Tiling) (h : Invariant I)

include h

theorem keeps_buildSequential (nest : Nest) (dims : List Nat) (vars : LoopVars) :
    Keeps I (buildSequential nest dims vars) := by
  induction dims generalizing vars with
  | nil => exact .pure vars
  | cons d dims ih => exact .bind (.lift _) fun _ => h.keeps_inside fun values => ih _

theorem keeps_buildLoops (plan : TilePlan) (nest : Nest) : Keeps I (t.buildLoops plan nest) := by
  have hparallel : ∀ dims vars, Keeps I (buildParallel nest dims vars) := by
    intro dims vars
    unfold buildParallel
    split
    · exact .pure vars
    · exact .bind (.mapM fun _ => .lift _) fun _ => h.keeps_inside fun values => .pure _
  unfold buildLoops
  dsimp only
  split
  · exact keeps_buildSequential h nest _ _
  · exact (hparallel _ _).bind fun _ => keeps_buildSequential h nest _ _

theorem keeps_buildOperand (nest : Nest) (vars : LoopVars) (operand : ValueId) (type : BufferType)
    (map : OperandMap) : Keeps I (buildOperand nest vars operand type map) := by
  have hsum : ∀ first rest, Keeps I (buildSum first rest) := fun first rest =>
    .foldlM (fun _ _ => h.keeps_insertValue) first
  have hoffset : ∀ terms, Keeps I (buildOffset vars terms) := by
    intro terms
    unfold buildOffset
    split
    · exact .pure _
    · exact (hsum _ _).bind fun _ => .pure _
  unfold buildOperand
  refine .bind (.mapM fun terms => (hoffset terms).bind fun _ => .bind (.lift _) fun _ => .pure _)
    fun dims => ?_
  dsimp only
  split
  · exact .pure operand
  · exact h.keeps_subView _ _ _

theorem keeps_buildNest (plan : TilePlan) (operands : List ValueId) (nest : Nest) :
    Keeps I (t.buildNest plan operands nest) :=
  (keeps_buildLoops t h plan nest).bind fun vars =>
    .bind (.mapM fun _ => keeps_buildOperand h nest vars _ _ _) fun _ => .discard h.keeps_insert

end Tiling

namespace Promotion

variable (p : Promotion) (h : Invariant I)

include h

theorem keeps_allocateAll (targets : List (Nat × BufferType)) (operands : List ValueId) :
    Keeps I (p.allocateAll targets operands) := by
  have hallocate : ∀ type, Keeps I (p.allocate type) := by
    intro type
    unfold allocate
    dsimp only
    split
    · exact h.keeps_insertValue.bind fun _ => .pure _
    · exact .bind (.lift _) fun _ => h.keeps_insertValue.bind fun _ => h.keeps_insertValue.bind fun _ =>
        (h.keeps_subView _ _ _).bind fun _ => .pure _
  induction targets generalizing operands with
  | nil => exact .pure _
  | cons target targets ih =>
    exact (hallocate _).bind fun _ => (ih _).bind fun _ => .pure _

end Promotion

namespace ViewFolding

theorem keeps_buildOffset (h : Invariant I) (o o' : SuppliedOffset ValueId) :
    Keeps I (buildOffset o o') := by
  have hshifted : ∀ v shift, Keeps I (buildShifted v shift) := by
    intro v shift
    unfold buildShifted
    split
    · exact .pure v
    · exact (h.keeps_constant shift).bind fun _ => h.keeps_insertValue
  unfold buildOffset
  split
  · exact .bind (.lift _) fun _ => .pure _
  · exact (hshifted _ _).bind fun _ => .pure _
  · exact (hshifted _ _).bind fun _ => .pure _
  · exact h.keeps_insertValue.bind fun _ => .pure _
  · exact .throw _

end ViewFolding

namespace TrivialLoops

variable (h : Invariant I)

include h

theorem keeps_dropSingle (pairs : List (LoopRange × ValueId)) : Keeps I (dropSingle pairs) := by
  induction pairs with
  | nil => exact .pure _
  | cons pair pairs ih =>
    refine .bind (.lift _) fun trips => ?_
    split
    · exact (h.keeps_constant _).bind fun _ => (h.keeps_replaceUses _ _).bind fun _ => ih
    · exact ih.bind fun _ => .pure _

theorem ends_buildTarget (op : OpId) (kind : OpKind) (kept : List (LoopRange × ValueId))
    {s : Builder} (hI : I s.function) (hs : s.Sound) :
    Ends (fun _ => True) ((buildTarget op kind kept).run s) fun r =>
      I r.2.function ∧ s.function.Spares r.2.function ∧ Builder.Sound ⟨r.2.function, r.1⟩ := by
  cases kept with
  | nil => exact ⟨hI, .refl _, fun p hp => by cases hp⟩
  | cons pair kept =>
    have hloop : ∃ kind', buildLoop kind pair.1 ((pair :: kept).map (·.1)) = Build.loop kind' := by
      unfold buildLoop
      split
      · exact ⟨_, rfl⟩
      · exact ⟨_, rfl⟩
    obtain ⟨kind', hloop⟩ := hloop
    simp only [buildTarget, hloop, Build.loop, ends_bind]
    refine (h.insert hI hs).mono ?_
    rintro ⟨loop, s'⟩ hr hI'
    obtain ⟨hs', hspares, hlive⟩ := spares_insert hr hs
    refine (Keeps.function s' hI' hs').mono ?_
    rintro ⟨f, s''⟩ - ⟨hI'', hs'', hspares'⟩
    rw [ends_lift]
    refine Ends.of_eq_ok fun o _ => ?_
    refine (Keeps.forM (fun _ _ => h.keeps_replaceUses _ _) s'' hI'' hs'').mono ?_
    rintro ⟨u, s₃⟩ - ⟨hI₃, -, hspares₃⟩
    refine ⟨hI₃, hspares.trans (hspares'.trans hspares₃), fun p hp => ?_⟩
    cases hp
    exact hspares₃ loop (hspares' loop hlive)

theorem ensures_perform (he : ∀ {f g op}, I f → f.erase op = .ok g → I g) (op : OpId) {f : Function}
    (hI : I f) (hbody : ∀ o, f.op op = .ok o → ∀ r ∈ o.region, Keeps I (Build.place r)) :
    Ends (fun _ => True) ((perform op).run ⟨f, .before op⟩) fun r => I r.2.function := by
  have herase := Editing.ensures_erase ⟨h, he⟩ op
  have hs : Builder.Sound ⟨f, .before op⟩ := fun p hp => by cases hp
  rw [perform, ends_bind, ends_function, ends_bind, ends_lift]
  refine Ends.of_eq_ok fun o ho => ?_
  have hany : Keeps I (o.kind.loopRanges.anyM fun r => do return (← r.tripCount) = 0 : Build Bool) := by
    induction o.kind.loopRanges with
    | nil => exact .pure _
    | cons r ranges ih =>
      refine .bind (.bind (.lift _) fun _ => .pure _) fun found => ?_
      cases found with
      | true => exact .pure _
      | false => exact ih
  refine hany.then (fun found => ?_) _ hI hs
  split
  · exact herase
  · refine (keeps_dropSingle h _).then fun kept s hI hs => ?_
    rw [ends_bind]
    refine (ends_buildTarget h op o.kind kept hI hs).mono ?_
    rintro ⟨target, s'⟩ - ⟨hI', -, hs'⟩
    exact (Keeps.forM (hbody o ho)).then (fun _ => herase) ⟨s'.function, target⟩ hI' hs'

end TrivialLoops

namespace Rule

variable (h : Editing I) {f : Function} (op : OpId) (hI : I f)

include h hI

theorem ends_tiling (t : Tiling) :
    Ends (fun _ => True) ((t.perform op).run ⟨f, .before op⟩) fun r => I r.2.function := by
  simp only [Tiling.perform, ends_bind, ends_function, ends_lift, ends_point]
  refine Ends.of_eq_ok fun plan _ => Ends.of_eq_ok fun o _ => Ends.of_eq_ok fun nests _ => ?_
  refine (Keeps.forM (fun nest _ => (Keeps.setPoint_before op).bind fun _ =>
    Tiling.keeps_buildNest t h.toInvariant plan o.operands nest) _ hI (Builder.sound_before f op)).mono ?_
  rintro r - ⟨hI', hs', -⟩
  exact h.ensures_erase op _ hI' hs'

theorem ends_promotion (p : Promotion) :
    Ends (fun _ => True) ((p.perform op).run ⟨f, .before op⟩) fun r => I r.2.function := by
  have hinsert : ∀ {kind operands marker}, Keeps I (Build.insert kind operands none marker) :=
    h.toInvariant.keeps_insert
  simp only [Promotion.perform, ends_bind, ends_function, ends_lift]
  refine Ends.of_eq_ok fun positions _ => Ends.of_eq_ok fun o _ => ?_
  have hread : Keeps I (positions.mapM fun i => do
      f.bufferType? (← Promotion.operandAt o.operands i) : Build (List (Option BufferType))) :=
    .mapM fun _ => .bind (.lift _) fun _ => .lift _
  refine (hread _ hI (Builder.sound_before f op)).mono ?_
  rintro r - ⟨hI', hs', -⟩
  refine (Promotion.keeps_allocateAll p h.toInvariant _ _ _ hI' hs').mono ?_
  rintro r - ⟨hI', hs', -⟩
  have hend : Ensures I (do
      r.1.1.forM fun buffer => discard (Build.dealloc buffer)
      Build.erase op) :=
    (Keeps.forM fun _ _ => .discard hinsert).then fun _ => h.ensures_erase op
  refine (Keeps.forM (fun _ _ => .bind (.lift _) fun _ => .bind (.lift _) fun _ =>
    .discard hinsert) _ hI' hs').mono ?_
  rintro r' - ⟨hI', hs', -⟩
  refine (Keeps.discard hinsert _ hI' hs').mono ?_
  rintro r' - ⟨hI', hs', -⟩
  split
  · exact ((Keeps.lift _).then fun _ => (Keeps.lift _).then fun _ =>
      (Keeps.discard hinsert).then fun _ => hend) _ hI' hs'
  · exact hend _ hI' hs'

theorem ends_viewFolding :
    Ends (fun _ => True) ((ViewFolding.perform op).run ⟨f, .before op⟩) fun r => I r.2.function := by
  simp only [ViewFolding.perform, ends_bind, ends_function, ends_lift]
  iterate 10 refine Ends.of_eq_ok fun _ _ => ?_
  refine (Keeps.mapM (fun _ => ViewFolding.keeps_buildOffset h.toInvariant _ _) _ hI
    (Builder.sound_before f op)).mono ?_
  rintro r - ⟨hI', hs', -⟩
  refine (h.keeps_subView _ _ _ _ hI' hs').mono ?_
  rintro r - ⟨hI', hs', -⟩
  exact h.ensures_replaceOp op _ _ hI' hs'

theorem ends_reallocation (space : MemorySpace) :
    Ends (fun _ => True) ((Reallocation.perform space op).run ⟨f, .before op⟩) fun r =>
      I r.2.function := by
  simp only [Reallocation.perform, ends_bind, ends_function, ends_lift]
  iterate 5 refine Ends.of_eq_ok fun _ _ => ?_
  refine (h.toInvariant.keeps_insertValue _ hI (Builder.sound_before f op)).mono ?_
  rintro r - ⟨hI', hs', -⟩
  refine (h.ensures_replaceOp op _ _ hI' hs').mono fun r _ hI' => ?_
  exact h.replaceUses _ _ hI'

theorem ends_additionFolding :
    Ends (fun _ => True) ((AdditionFolding.perform op).run ⟨f, .before op⟩) fun r =>
      I r.2.function := by
  have hend : ∀ new, Ensures I (Build.replaceOp op new) := h.ensures_replaceOp op
  simp only [AdditionFolding.perform, ends_bind, ends_function, ends_lift]
  iterate 5 refine Ends.of_eq_ok fun _ _ => ?_
  split
  · exact ((Keeps.lift _).then fun n => (h.keeps_constant n).then fun _ => hend _) _ hI
      (Builder.sound_before f op)
  · exact hend _ _ hI (Builder.sound_before f op)
  · exact hend _ _ hI (Builder.sound_before f op)

theorem ends_offsetFolding :
    Ends (fun _ => True) ((OffsetFolding.perform op).run ⟨f, .before op⟩) fun r =>
      I r.2.function := by
  simp only [OffsetFolding.perform, ends_bind, ends_function, ends_lift]
  iterate 4 refine Ends.of_eq_ok fun _ _ => ?_
  refine (h.keeps_subView _ _ _ _ hI (Builder.sound_before f op)).mono ?_
  rintro r - ⟨hI', hs', -⟩
  exact h.ensures_replaceOp op _ _ hI' hs'

theorem ends_performAt (rule : Rule) (hbody : rule = .trivialLoops → ∀ o, f.op op = .ok o →
    ∀ r ∈ o.region, Keeps I (Build.place r)) : Ends (fun _ => True) (rule.performAt f op) I := by
  suffices Ends (fun _ => True) ((rule.perform op).run ⟨f, .before op⟩) fun r => I r.2.function by
    rw [performAt, Ends.map_iff, Build.runOn, Ends.bind_iff]
    exact this
  cases rule with
  | tiling t => exact ends_tiling h op hI t
  | promotion p => exact ends_promotion h op hI p
  | viewFolding => exact ends_viewFolding h op hI
  | reallocation space => exact ends_reallocation h op hI space
  | trivialLoops =>
    exact TrivialLoops.ensures_perform h.toInvariant h.erase op hI (hbody rfl)
  | additionFolding => exact ends_additionFolding h op hI
  | offsetFolding => exact ends_offsetFolding h op hI

end Rule

end KernelLowering
