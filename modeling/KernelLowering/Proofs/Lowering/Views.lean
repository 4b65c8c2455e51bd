import KernelLowering.Proofs.Convergence.ViewDepths
import KernelLowering.Proofs.Folding.Frame
import KernelLowering.Proofs.Integrity.Uses
import KernelLowering.Proofs.Lowering.Runs

namespace KernelLowering

namespace Program

theorem insertInto_append_cons {f g : Function} {done todo : List Function} (hname : g.name = f.name)
    (hdone : f.name ∉ done.map (·.name)) :
    insertInto g (done ++ f :: todo) = done ++ g :: todo := by
  induction done with
  | nil => exact if_pos hname.symm
  | cons h done ih =>
    rw [List.map_cons, List.mem_cons, not_or] at hdone
    rw [List.cons_append, insertInto, if_neg fun e => hdone.1 (hname.symm.trans e.symm), ih hdone.2,
      List.cons_append]

end Program

namespace Lowering

variable {α β : Type} {options : LoweringOptions} {p : Program} {name : String} {f : Function}

def outcome (x : Pass α) (p : Program) : Except Fault (Except LoweringError α × Program) :=
  (x.run.run p).outcome

theorem outcome_bind (x : Pass α) (next : α → Pass β) (p : Program) :
    outcome (x >>= next) p = outcome x p >>= fun r =>
      match r.1 with
      | .ok a => outcome (next a) r.2
      | .error e => .ok (.error e, r.2) := by
  rw [outcome, ExceptT.run_bind, StateT.run_bind, Logged.outcome_bind]
  refine congrArg (outcome x p >>= ·) (funext fun ⟨r, p'⟩ => ?_)
  cases r <;> rfl

theorem outcome_bind_ok {x : Pass α} {next : α → Pass β} {p p' : Program} {a : α}
    (hx : outcome x p = .ok (.ok a, p')) : outcome (x >>= next) p = outcome (next a) p' := by
  rw [outcome_bind, hx]
  rfl

theorem outcome_get_bind (next : Program → Pass β) (p : Program) :
    outcome (get >>= next) p = outcome (next p) p :=
  outcome_bind_ok rfl

theorem outcome_logged_bind (x : Logged α) (next : α → Pass β) (p : Program) :
    outcome (logged x >>= next) p = x.outcome >>= fun a => outcome (next a) p := by
  rw [outcome_bind]
  obtain ⟨events, out⟩ := x
  cases out <;> rfl

theorem outcome_functionNamed (hf : p.find? name = some f) :
    outcome (functionNamed name) p = .ok (.ok f, p) := by
  rw [functionNamed, outcome_get_bind, hf]
  rfl

theorem outcome_cleanUpViews (hf : p.find? name = some f) :
    outcome (cleanUpViews options name) p =
      (Greedy.run Rule.viewCleanup options.maxSweeps f).outcome >>= fun r =>
        .ok (.ok r.2.changes, p.insert r.1) := by
  rw [cleanUpViews, outcome_bind_ok (outcome_functionNamed hf), outcome_logged_bind]
  rfl

theorem outcome_mapM_cleanUpViews {todo done : List Function}
    (hnodup : ((done ++ todo).map (·.name)).Nodup)
    (hname : ∀ f ∈ todo, ∀ r, (Greedy.run Rule.viewCleanup options.maxSweeps f).outcome = .ok r →
      r.1.name = f.name) :
    outcome ((todo.map (·.name)).mapM (cleanUpViews options)) ⟨done ++ todo⟩ =
      (todo.mapM fun f => (Greedy.run Rule.viewCleanup options.maxSweeps f).outcome) >>= fun rs =>
        .ok (.ok (rs.map (·.2.changes)), ⟨done ++ rs.map (·.1)⟩) := by
  induction todo generalizing done with
  | nil =>
    simp only [List.append_nil, List.map_nil, List.mapM_nil]
    exact congrArg (fun fs => Except.ok (Except.ok [], Program.mk fs)) (List.append_nil done).symm
  | cons f todo ih =>
    rw [List.forall_mem_cons] at hname
    have hfind : Program.find? ⟨done ++ f :: todo⟩ f.name = some f :=
      Program.find?_of_mem hnodup (by simp)
    rw [List.map_cons, List.mapM_cons, List.mapM_cons, outcome_bind, outcome_cleanUpViews hfind]
    cases hrun : (Greedy.run Rule.viewCleanup options.maxSweeps f).outcome with
    | error fault => rfl
    | ok r =>
      have hr := hname.1 r hrun
      have hout : f.name ∉ done.map (·.name) := by
        rw [List.map_append, List.map_cons] at hnodup
        exact fun h => (List.nodup_append.1 hnodup).2.2 _ h _ List.mem_cons_self rfl
      have hinsert : Program.insert ⟨done ++ f :: todo⟩ r.1 = ⟨(done ++ [r.1]) ++ todo⟩ := by
        rw [Program.insert, Program.insertInto_append_cons hr hout, List.append_assoc]
        rfl
      have hnodup' : (((done ++ [r.1]) ++ todo).map (·.name)).Nodup := by
        simpa [hr] using hnodup
      simp only [Fault.ok_bind, hinsert, outcome_bind, ih hnodup' hname.2]
      cases (todo.mapM fun f => (Greedy.run Rule.viewCleanup options.maxSweeps f).outcome) with
      | error fault => rfl
      | ok rs =>
        simp only [Fault.ok_bind, List.append_assoc, List.singleton_append]
        rfl

theorem outcome_run (hviews : options.viewsOnly = true) (hnodup : p.names.Nodup)
    (hname : ∀ f ∈ p.functions, ∀ r,
      (Greedy.run Rule.viewCleanup options.maxSweeps f).outcome = .ok r → r.1.name = f.name) :
    (run options p).outcome =
      (p.functions.mapM fun f => (Greedy.run Rule.viewCleanup options.maxSweeps f).outcome) >>=
        fun rs => .ok (.ok ⟨[], (rs.map (·.2.changes)).sum⟩, ⟨rs.map (·.1)⟩) := by
  have hmap := @outcome_mapM_cleanUpViews options p.functions [] hnodup hname
  show outcome (pass options) p = _
  rw [pass, outcome_logged_bind]
  simp only [Logged.outcome_report, Fault.ok_bind]
  rw [outcome_get_bind, if_pos hviews, outcome_bind]
  show (outcome ((p.functions.map (·.name)).mapM (cleanUpViews options)) ⟨[] ++ p.functions⟩ >>= _) = _
  rw [hmap]
  cases (p.functions.mapM fun f => (Greedy.run Rule.viewCleanup options.maxSweeps f).outcome) with
  | error fault => rfl
  | ok rs =>
    simp only [Fault.ok_bind, List.nil_append, List.sum_eq_foldl]
    rfl

theorem viewCleanup_retains :
    (∀ f maxSweeps, f.WellFormed → f.code.Nested →
      Ends (fun fault => f.Built → fault = .overflow)
        (Greedy.run Rule.viewCleanup maxSweeps f).outcome
        fun r => r.1.WellFormed ∧ f.Retains r.1) ∧
    ∀ options p, options.viewsOnly = true → p.names.Nodup →
      (∀ f ∈ p.functions, f.WellFormed ∧ f.code.Nested) →
      Ends (fun fault => (∀ f ∈ p.functions, f.Built) → fault = .overflow) (run options p).outcome
        fun r => ∃ runs : List (Function × Greedy.Outcome),
          List.Forall₂ (fun f s => (Greedy.run Rule.viewCleanup options.maxSweeps f).outcome = .ok s ∧
            s.1.WellFormed ∧ f.Retains s.1) p.functions runs ∧
          r = (.ok ⟨[], (runs.map (·.2.changes)).sum⟩, ⟨runs.map (·.1)⟩) ∧ r.2.names = p.names := by
  refine ⟨fun f maxSweeps hwf hnested =>
    (Greedy.ends_viewCleanup hwf hnested maxSweeps).mono fun r _ hr => ⟨hr.1, hr.2.2⟩,
    fun options p hviews hnodup hp => ?_⟩
  have hrun : ∀ f ∈ p.functions, Ends (fun fault => f.Built → fault = .overflow)
      (Greedy.run Rule.viewCleanup options.maxSweeps f).outcome
      fun r => r.1.WellFormed ∧ f.Retains r.1 := fun f hf =>
    (Greedy.ends_viewCleanup (hp f hf).1 (hp f hf).2 options.maxSweeps).mono fun r _ hr => ⟨hr.1, hr.2.2⟩
  rw [outcome_run hviews hnodup fun f hf r hr => ((hrun f hf).of_ok hr).2.grows.name, Ends.bind_iff]
  refine (Ends.mapM fun f hf => (hrun f hf).weaken fun fault _ hfault hbuilt =>
    hfault (hbuilt f hf)).mono fun runs _ hruns => ⟨runs, hruns, rfl, ?_⟩
  show (runs.map (·.1)).map (·.name) = p.functions.map (·.name)
  rw [eq_comm, ← List.forall₂_eq_eq_eq, List.map_map, List.forall₂_map_left_iff,
    List.forall₂_map_right_iff]
  exact hruns.imp fun f r hr => hr.2.2.grows.name.symm

theorem viewCleanup_retains_pair : ∃ g outcome h h',
    (Greedy.run Rule.viewCleanup 8 Greedy.windowedTile).outcome = .ok (g, outcome) ∧
      Greedy.windowedTile.Retains g ∧
    (run { LoweringOptions.default with viewsOnly := true }
      ⟨[Reallocation.overlap, Greedy.windowedTile]⟩).outcome = .ok (.ok ⟨[], 3⟩, ⟨[h, h']⟩) ∧
      Reallocation.overlap.Retains h ∧ Greedy.windowedTile.Retains h' := by
  have hoverlap : Reallocation.overlap.WellFormed ∧ Reallocation.overlap.code.Nested := by
    decide +kernel
  have hwindowed : Greedy.windowedTile.WellFormed ∧ Greedy.windowedTile.code.Nested := by
    decide +kernel
  have hnodup : (Program.mk [Reallocation.overlap, Greedy.windowedTile]).names.Nodup := by
    decide +kernel
  have hone : (Greedy.run Rule.viewCleanup 8 Greedy.windowedTile).outcome.toOption.map (·.2.changes) =
      some 2 := by
    decide +kernel
  have hall : (run { LoweringOptions.default with viewsOnly := true }
      ⟨[Reallocation.overlap, Greedy.windowedTile]⟩).outcome.toOption.map
        (·.1.toOption.map (·.viewChanges)) = some (some 3) := by
    decide +kernel
  generalize hoptions : { LoweringOptions.default with viewsOnly := true } = options at *
  have hviews : options.viewsOnly = true := by rw [← hoptions]
  generalize Reallocation.overlap = f, Greedy.windowedTile = f' at *
  obtain ⟨⟨g, outcome⟩, hg, -⟩ := Fault.toOption_map_eq_some.1 hone
  obtain ⟨r, hr, hchanges⟩ := Fault.toOption_map_eq_some.1 hall
  have hboth : ∀ f₁ ∈ [f, f'], f₁.WellFormed ∧ f₁.code.Nested := by
    simpa using And.intro hoverlap hwindowed
  obtain ⟨runs, hruns, rfl, -⟩ := (viewCleanup_retains.2 options _ hviews hnodup hboth).of_ok hr
  rw [List.forall₂_cons_left_iff] at hruns
  obtain ⟨s, rest, hs, hrest, rfl⟩ := hruns
  rw [List.forall₂_cons_left_iff] at hrest
  obtain ⟨s', rest, hs', hrest, rfl⟩ := hrest
  obtain rfl := List.forall₂_nil_left_iff.1 hrest
  refine ⟨g, outcome, s.1, s'.1, hg,
    ((viewCleanup_retains.1 f' 8 hwindowed.1 hwindowed.2).of_ok hg).2, ?_, hs.2.2, hs'.2.2⟩
  have hsum : (([s, s'].map (·.2.changes)).sum : Nat) = 3 := Option.some.inj hchanges
  rw [hr, hsum]
  rfl

def handed : Function where
  name := "handed"
  ops := #[⟨.alloc, [], some ⟨0⟩, none, [], [], none, true⟩,
    ⟨.view, [⟨0⟩], some ⟨1⟩, none, [], [], none, true⟩,
    ⟨.subView ⟨[.static 0], [4], [1]⟩, [⟨1⟩], some ⟨2⟩, none, [], [], none, true⟩,
    ⟨.copy, [⟨2⟩, ⟨2⟩], none, none, [], [], none, true⟩,
    ⟨.call "g", [⟨0⟩], none, none, [], [], none, true⟩]
  values := #[⟨.index, .result ⟨0⟩⟩, ⟨.buffer (.rowMajor [8] .float32 .global), .result ⟨1⟩⟩,
    ⟨.buffer ⟨[4], .float32, .strided (some 0) [1], .global⟩, .result ⟨2⟩⟩]
  arity := 0
  body := [⟨0⟩, ⟨1⟩, ⟨2⟩, ⟨3⟩, ⟨4⟩]

theorem not_index_run_handed : handed.WellFormed ∧ handed.code.Nested ∧
    handed.operandsOf ⟨4⟩ = [⟨0⟩] ∧ handed.typeOf ⟨0⟩ = .ok .index ∧
      ∃ g outcome, (Greedy.run Rule.viewCleanup 10 handed).outcome = .ok (g, outcome) ∧
        g.operandsOf ⟨4⟩ = [⟨3⟩] ∧ g.typeOf ⟨3⟩ = .ok (.buffer (.rowMajor [4] .float32 .l1)) := by
  have hhanded : handed.WellFormed ∧ handed.code.Nested ∧ handed.operandsOf ⟨4⟩ = [⟨0⟩] ∧
      handed.typeOf ⟨0⟩ = .ok .index := by
    decide +kernel
  have hok : (Greedy.run Rule.viewCleanup 10 handed).outcome.toOption.map
      (fun r => (r.1.operandsOf ⟨4⟩, r.1.typeOf ⟨3⟩)) =
        some ([⟨3⟩], .ok (.buffer (.rowMajor [4] .float32 .l1))) := by
    decide +kernel
  obtain ⟨⟨g, outcome⟩, hrun, hg⟩ := Fault.toOption_map_eq_some.1 hok
  rw [Prod.mk.injEq] at hg
  exact ⟨hhanded.1, hhanded.2.1, hhanded.2.2.1, hhanded.2.2.2, g, outcome, hrun, hg⟩

end Lowering

end KernelLowering
