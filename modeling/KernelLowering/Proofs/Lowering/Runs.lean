import KernelLowering.Proofs.Lowering.Calls
import KernelLowering.Proofs.Lowering.Pass

namespace KernelLowering

namespace Pipeline

theorem keeps_name (name : String) (rules : List Rule) :
    Greedy.Keeps (· = .overflow) (fun f => f.Built ∧ f.name = name) rules where
  wellFormed _ h := h.1.wellFormed
  sheds _ _ _ _ _ _ _ h hs := ⟨h.1.shed hs, hs.same.name.trans h.2⟩
  rule rule _ _ _ _ _ _ _ h hr := ends_overflow.2 <|
    Yields.mono (rule.gives_built h.1 hr) fun _ _ hgives g hg =>
      have hstep := hgives g hg
      ⟨⟨hstep.1, hstep.2.name.trans h.2⟩, hstep.2.ops⟩

variable {f : Function}

@[simp] theorem name_stripMarkers (f : Function) : (stripMarkers f).name = f.name := by
  rw [stripMarkers]
  generalize f.collect (·.kind.isLinalg) = ops
  induction ops generalizing f with
  | nil => rfl
  | cons op ops ih => exact ih (f.stripMarker op)

theorem yields_run (hf : f.Built) (plan : KernelPlan) (maxSweeps : Nat) :
    Yields True (run plan maxSweeps f).outcome fun r => r.1.name = f.name := by
  have hround : ∀ (round : Round) (g : Function), g.Built ∧ g.name = f.name →
      Yields True (runRound plan maxSweeps g round).outcome fun r => r.1.Built ∧ r.1.name = f.name :=
    fun round g hg => yields_runRound (ends_overflow.1 ((keeps_name f.name _).run maxSweeps hg))
  simp only [run, Logged.outcome_bind, Yields.bind_iff]
  refine (hround .tile f ⟨hf, rfl⟩).mono fun tiled _ htiled => ?_
  refine (hround .canonicalize _ htiled).mono fun canonical _ hcanonical => ?_
  refine (hround .foldViews _ hcanonical).mono fun folded _ hfolded => ?_
  exact (name_stripMarkers folded.1).trans hfolded.2

end Pipeline

theorem Outline.built_callee {f : Function} {o : Operation} {name : String} {marker : Option Stage}
    {r : OpId × Function} {kind : KernelKind} (h : callee f o name marker = .ok r)
    (hkind : o.kind = .kernel kind) : r.2.Built := by
  have hwf : r.2.WellFormed := callee_wellFormed h
  obtain ⟨-, -, -, inner, op, hinner, hops, -, -, hcode⟩ := represents_callee h
  rw [hkind] at hinner
  have hheads : r.2.code.heads = [inner, .effect op .ret [] none] := by
    rw [hcode]
    rfl
  refine ⟨hwf, ?_, ?_, ?_⟩
  · rw [hcode]
    exact ⟨.inr rfl, trivial, .inr rfl, trivial, trivial⟩
  · rw [hheads, List.forall_mem_cons, List.forall_mem_singleton]
    refine ⟨fun v hv => ?_, fun v hv => by cases hv⟩
    exact Function.Represents.has_argument hwf (Function.mem_arguments.1 (hops ▸ hv))
  · rw [hheads, List.forall_mem_cons, List.forall_mem_singleton]
    exact ⟨.of_sorts?_eq_none (by rw [hinner]; rfl), .of_sorts?_eq_none rfl⟩

theorem KernelPlan.yields_forInstance (k : KernelInstance) (options : LoweringOptions) :
    Yields True (forInstance k options).outcome fun _ => True := by
  obtain ⟨op, kind, types⟩ := k
  cases kind with
  | matmul =>
    simp only [forInstance, matmul, TileSizes.matmul, TileSizes.herd, Logged.outcome_bind,
      TileSizes.outcome_override, Yields.bind_iff, Yields.ok_iff]
    exact (Logged.yields_mapM fun p _ => Checked.yields_fit (p.1 * p.2)).mono fun scaled _ _ => trivial
  | conv2d =>
    simp only [forInstance, conv2d, TileSizes.conv2d, Logged.outcome_lift, Yields.bind_iff]
    refine (KernelKind.yields_iterationExtents .conv2d types).mono fun extents _ _ => ?_
    split <;> trivial

namespace Program

variable {p : Program} {name : String} {f g : Function}

theorem name_of_find? (hf : p.find? name = some f) : f.name = name := by
  simpa using List.find?_some hf

theorem mem_names_of_find? (hf : p.find? name = some f) : name ∈ p.names :=
  name_of_find? hf ▸ List.mem_map_of_mem (List.mem_of_find?_eq_some hf)

theorem find?_of_mem (hp : p.names.Nodup) (hf : f ∈ p.functions) : p.find? f.name = some f := by
  obtain ⟨g, hg⟩ : ∃ g, p.find? f.name = some g :=
    Option.isSome_iff_exists.1 (List.find?_isSome.2 ⟨f, hf, by simp⟩)
  have hmem : g ∈ p.functions := List.mem_of_find?_eq_some hg
  rw [hg, List.inj_on_of_nodup_map hp hmem hf (name_of_find? hg)]

theorem names_insert_of_mem (hf : f.name ∈ p.names) : (p.insert f).names = p.names :=
  names_insertInto_of_mem hf

theorem names_insert_of_not_mem (hf : f.name ∉ p.names) : (p.insert f).names = p.names ++ [f.name] := by
  rw [names, insert, insertInto_of_not_mem hf, List.map_append]
  rfl

theorem Calls.of_insert {h : Node} {call : OpId} {callee lowered : Function} (hp : p.names.Nodup)
    (hf : p.find? name = some f) (hcalls : f.Calls g [h] (fun _ => call) fun _ => callee.name)
    (hfresh : callee.name ∉ p.names) (hlowered : lowered.name = callee.name) :
    p.Calls (((p.insert g).insert callee).insert lowered) [(name, h)] (fun _ _ => call)
      fun _ _ => callee.name := by
  have hgname : g.name = name := hcalls.grows.name.trans (name_of_find? hf)
  have hinner : (p.insert g).names = p.names :=
    names_insert_of_mem (hgname ▸ mem_names_of_find? hf)
  have hmiddle : ((p.insert g).insert callee).names = p.names ++ [callee.name] := by
    rw [names_insert_of_not_mem (hinner ▸ hfresh), hinner]
  have houter : (((p.insert g).insert callee).insert lowered).names = p.names ++ [callee.name] := by
    rw [names_insert_of_mem (by rw [hmiddle, hlowered]; simp), hmiddle]
  refine ⟨houter, houter ▸ hp.append (List.nodup_singleton _) (by simpa using hfresh), ?_⟩
  intro name' f' hf'
  have hother : callee.name ≠ name' := fun he => hfresh (he ▸ mem_names_of_find? hf')
  rw [find?_insert_of_ne _ (hlowered ▸ hother), find?_insert_of_ne _ hother]
  by_cases hname : name' = name
  · subst hname
    rw [hf, Option.some.injEq] at hf'
    subst hf'
    refine ⟨g, hgname ▸ find?_insert_self p g, ?_⟩
    simpa [sitesIn] using hcalls
  · rw [find?_insert_of_ne _ (hgname ▸ Ne.symm hname)]
    refine ⟨f', hf', ?_⟩
    simpa [sitesIn, Ne.symm hname] using Function.Calls.refl f' _ _

end Program

namespace Lowering

variable {p q r : Program} {name : String} {f g : Function} {h : Node} {kind : KernelKind}
  {options : LoweringOptions} {sites sites' : List (String × Node)}
  {reports reports' : List InstanceReport}

def Lowers (p q : Program) (sites : List (String × Node)) (reports : List InstanceReport) : Prop :=
  ∃ call callee, p.Calls q sites call callee ∧
    reports.map (fun r => (r.caller, r.callee)) = sites.map fun site => (site.1, callee site.1 site.2)

theorem Lowers.refl (hp : p.names.Nodup) : Lowers p p [] [] :=
  ⟨fun _ h => h.op, fun name _ => name, .refl hp, rfl⟩

theorem Lowers.append (h : Lowers p q sites reports) (h' : Lowers q r sites' reports')
    (hsites : ∀ site ∈ sites', site.2.kind.kernel?.isSome = true) (hdisjoint : sites.Disjoint sites') :
    Lowers p r (sites ++ sites') (reports ++ reports') := by
  obtain ⟨call, callee, hcalls, hreports⟩ := h
  obtain ⟨call', callee', hcalls', hreports'⟩ := h'
  refine ⟨_, _, hcalls.trans hcalls' hsites hdisjoint, ?_⟩
  rw [List.map_append, hreports, hreports', List.map_append]
  refine congrArg₂ (· ++ ·) ?_ ?_
  · exact List.map_congr_left fun site hsite => by rw [if_pos hsite]
  · exact List.map_congr_left fun site hsite => by rw [if_neg fun hin => hdisjoint hin hsite]

theorem gives_functionNamed {Q : Function → Program → Prop} (hf : p.find? name = some f) :
    Gives (functionNamed name) p Q ↔ Q f p := by
  simp only [functionNamed, Gives.bind_iff, Gives.get_iff, hf, Gives.pure_iff]

theorem gives_lowerInstance {k : KernelInstance} (hp : p.names.Nodup) (hf : p.find? name = some f)
    (hlower : f.Lowerable) (hh : h ∈ f.code.heads) (hkind : h.kind = .kernel kind) (hop : k.op = h.op) :
    Gives (lowerInstance options name k) p fun report q => Lowers p q [(name, h)] [report] := by
  have hkernel : h.kind.kernel?.isSome = true := by
    rw [hkind]
    rfl
  obtain ⟨s, b, z, hr⟩ := hlower.exists_at hh hkernel
  obtain ⟨hresult, hhas⟩ := hlower.plain.of_mem hh hkernel
  obtain ⟨⟨q, outlined⟩, hout⟩ : ∃ r, (p.outline name h.op k.kind.procedureName
      (some .selected)).outcome = .ok (.ok r) := Program.exists_outline hf hr hresult hhas _
  obtain ⟨o, inner, g, callee, -, ho, -, hname, hcallee, hg, rfl⟩ := Program.outline_eq_insert hf hout
  have hcalleeName : callee.name = outlined.callee := (Outline.represents_callee hcallee).1
  have hokind : o.kind = .kernel kind := by
    rw [hr.record_at, Except.ok.injEq] at ho
    rw [← ho, ← hkind]
    rfl
  have hfound : ((p.insert g).insert callee).find? outlined.callee = some callee :=
    hcalleeName ▸ Program.find?_insert_self _ callee
  simp only [lowerInstance, Gives.bind_iff, Gives.logged_iff, Gives.get_iff, hop, hout, Yields.ok_iff,
    Gives.set_iff, Gives.pure_iff, gives_functionNamed hfound, Gives.modify_iff]
  refine (KernelPlan.yields_forInstance k options).mono fun plan _ _ => ?_
  refine (Pipeline.yields_run (Outline.built_callee hcallee hokind) plan _).mono fun lowered _ hlowered => ?_
  have hcalls := Function.Calls.of_replaceByCall hr ho (hcalleeName ▸ hg)
  have hlowers := Program.Calls.of_insert hp hf hcalls
    (hcalleeName ▸ hname ▸ p.uniqueName_not_mem _) hlowered
  split
  · simp only [Gives.bind_iff, Gives.logged_iff, Logged.outcome_report, Yields.ok_iff, Gives.pure_iff]
    exact ⟨_, _, hlowers, by simp [hcalleeName]⟩
  · rw [Gives.pure_iff]
    exact ⟨_, _, hlowers, by simp [hcalleeName]⟩

theorem gives_instances {ks : List KernelInstance} {hs : List Node} (hp : p.names.Nodup)
    (hf : p.find? name = some f) (hlower : f.Lowerable)
    (hks : List.Forall₂ (fun k h => k.op = h.op ∧ k.kind = kind) ks hs) (hhs : hs ⊆ f.code.heads)
    (hnodup : hs.Nodup) (hkind : ∀ h ∈ hs, h.kind = .kernel kind) :
    Gives (ks.mapM (lowerInstance options name)) p fun reports q =>
      Lowers p q (hs.map (name, ·)) reports := by
  induction hks generalizing p f with
  | nil =>
    rw [List.mapM_nil, Gives.pure_iff]
    exact .refl hp
  | @cons k h ks hs hk _ ih =>
    have hkernel : ∀ h' ∈ h :: hs, h'.kind.kernel?.isSome = true := fun h' hh' => by
      rw [hkind h' hh']
      rfl
    rw [List.cons_subset] at hhs
    rw [List.nodup_cons] at hnodup
    rw [List.forall_mem_cons] at hkind
    simp only [List.mapM_cons, Gives.bind_iff, Gives.pure_iff]
    refine (gives_lowerInstance hp hf hlower hhs.1 hkind.1 hk.1).mono fun report q hfirst => ?_
    obtain ⟨call, callee, hcalls, hreport⟩ := hfirst
    obtain ⟨g, hg, hfg⟩ := hcalls.function hf
    have hrest : hs ⊆ g.code.heads := fun h' hh' => by
      rw [hfg.code]
      refine hlower.plain.mem_calling (fun h'' hh'' => ?_) (hhs.2 hh') (hkernel h' (.tail h hh')) ?_
      · rw [Program.mem_sitesIn, List.mem_singleton, Prod.mk.injEq] at hh''
        exact hh''.2 ▸ hkernel h List.mem_cons_self
      · rw [Program.mem_sitesIn, List.mem_singleton, Prod.mk.injEq]
        exact fun he => hnodup.1 (he.2 ▸ hh')
    refine (ih hcalls.nodup hg (hfg.lowerable hlower) hrest hnodup.2 hkind.2).mono fun reports r hlowers => ?_
    refine Lowers.append ⟨call, callee, hcalls, hreport⟩ hlowers ?_ ?_
    · exact List.forall_mem_map.2 fun h' hh' => hkernel h' (.tail h hh')
    · simpa using hnodup.1

theorem gives_lowerKernels (hp : p.names.Nodup) (hf : p.find? name = some f) (hlower : f.Lowerable)
    (kind : KernelKind) :
    Gives (lowerKernels options name kind) p fun reports q =>
      Lowers p q ((f.selected kind).map (name, ·)) reports := by
  obtain ⟨ks, hks, hrel⟩ := hlower.kernels_eq kind
  simp only [lowerKernels, Gives.bind_iff, gives_functionNamed hf, Gives.logged_iff,
    Logged.outcome_lift, hks, Yields.ok_iff]
  exact gives_instances hp hf hlower hrel (List.filter_subset_self _) (hlower.wellFormed.nodup_heads.filter _)
    fun h hh => Function.kernel_of_mem_selected hh

theorem gives_lowerFunction (hp : p.names.Nodup) (hf : p.find? name = some f) (hlower : f.Lowerable) :
    Gives (lowerFunction options name) p fun reports q =>
      Lowers p q (f.kernelSites.map (name, ·)) reports := by
  simp only [lowerFunction, Gives.bind_iff, Gives.pure_iff]
  refine (gives_lowerKernels hp hf hlower .matmul).mono fun reports q hfirst => ?_
  obtain ⟨call, callee, hcalls, hreports⟩ := hfirst
  obtain ⟨g, hg, hfg⟩ := hcalls.function hf
  refine (gives_lowerKernels hcalls.nodup hg (hfg.lowerable hlower) .conv2d).mono fun reports' r hlowers => ?_
  have hconv : g.selected .conv2d = f.selected .conv2d := by
    refine hfg.selected_eq hlower fun h hh => ⟨.matmul, ?_, by decide⟩
    rw [Program.mem_sitesIn, List.mem_map] at hh
    obtain ⟨h', hh', he⟩ := hh
    cases he
    exact Function.kernel_of_mem_selected hh'
  rw [Function.kernelSites, List.map_append, ← hconv]
  refine Lowers.append ⟨call, callee, hcalls, hreports⟩ hlowers ?_ ?_
  · refine List.forall_mem_map.2 fun h hh => ?_
    rw [Function.kernel_of_mem_selected hh]
    rfl
  · intro site hsite hsite'
    obtain ⟨h, hh, rfl⟩ := List.mem_map.1 hsite
    obtain ⟨h', hh', he⟩ := List.mem_map.1 hsite'
    cases he
    have hkind := Function.kernel_of_mem_selected hh
    rw [Function.kernel_of_mem_selected hh'] at hkind
    cases hkind

theorem gives_functions {fs : List Function} (hp : p.names.Nodup) (hnames : (fs.map (·.name)).Nodup)
    (hfs : ∀ f ∈ fs, f.Lowerable ∧
      ∃ g call callee, p.find? f.name = some g ∧ f.Calls g [] call callee) :
    Gives ((fs.map (·.name)).mapM (lowerFunction options)) p fun reports q =>
      Lowers p q (Program.sitesOf fs) reports.flatten := by
  induction fs generalizing p with
  | nil =>
    rw [List.map_nil, List.mapM_nil, Gives.pure_iff]
    exact .refl hp
  | cons f fs ih =>
    rw [List.map_cons, List.nodup_cons] at hnames
    rw [List.forall_mem_cons] at hfs
    obtain ⟨⟨hlower, g, call, callee, hg, hfg⟩, hfs⟩ := hfs
    simp only [List.map_cons, List.mapM_cons, Gives.bind_iff, Gives.pure_iff]
    refine (gives_lowerFunction hp hg (hfg.lowerable hlower)).mono fun reports q hfirst => ?_
    rw [hfg.kernelSites_eq hlower] at hfirst
    obtain ⟨call', callee', hcalls, hreports⟩ := hfirst
    have hrest : ∀ f' ∈ fs, f'.Lowerable ∧
        ∃ g call callee, q.find? f'.name = some g ∧ f'.Calls g [] call callee := fun f' hf' => by
      obtain ⟨hlower', g', _, _, hg', hfg'⟩ := hfs f' hf'
      obtain ⟨g'', hg'', hgg⟩ := hcalls.function hg'
      have hnone : Program.sitesIn (f.kernelSites.map (f.name, ·)) f'.name = [] := by
        refine Program.sitesIn_eq_nil (List.forall_mem_map.2 fun h _ he => hnames.1 ?_)
        exact List.mem_map.2 ⟨f', hf', he.symm⟩
      rw [hnone] at hgg
      exact ⟨hlower', g'', _, _, hg'', hfg'.trans hgg fun _ hh => by cases hh⟩
    refine (ih hcalls.nodup hnames.2 hrest).mono fun reports' r hlowers => ?_
    rw [Program.sitesOf_cons, List.flatten_cons]
    refine Lowers.append ⟨call', callee', hcalls, hreports⟩ hlowers ?_ ?_
    · exact fun site hsite => (Program.name_of_mem_sitesOf hsite).2
    · intro site hsite hsite'
      obtain ⟨h, -, rfl⟩ := List.mem_map.1 hsite
      exact hnames.1 (Program.name_of_mem_sitesOf hsite').1

theorem run_replaces_kernels {p : Program} {options : LoweringOptions} (hviews : options.viewsOnly = false)
    (hnames : p.names.Nodup) (hlower : ∀ f ∈ p.functions, f.Lowerable) :
    Yields True (run options p).outcome fun r =>
      ∃ (report : LoweringReport) (call : String → Node → OpId) (callee : String → Node → String),
        r.1 = .ok report ∧
        r.2.names = p.names ++ (Program.sitesOf p.functions).map (fun site => callee site.1 site.2) ∧
        r.2.names.Nodup ∧
        report.instances.map (fun i => (i.caller, i.callee)) =
          (Program.sitesOf p.functions).map (fun site => (site.1, callee site.1 site.2)) ∧
        ∀ f ∈ p.functions, ∃ g, r.2.find? f.name = some g ∧
          f.Calls g f.kernelSites (call f.name) (callee f.name) := by
  have hgives : Gives (pass options) p fun report q =>
      Lowers p q (Program.sitesOf p.functions) report.instances := by
    simp only [pass, Gives.bind_iff, Gives.logged_iff, Logged.outcome_report, Yields.ok_iff,
      Gives.get_iff, hviews, Bool.false_eq_true, if_false, Gives.pure_iff]
    exact gives_functions hnames hnames fun f hf => ⟨hlower f hf, f, fun h => h.op, fun _ => f.name,
      Program.find?_of_mem hnames hf, .refl f _ _⟩
  refine Yields.mono hgives fun r _ hr => ?_
  obtain ⟨report, hreport, call, callee, hcalls, hreports⟩ := hr
  refine ⟨report, call, callee, hreport, hcalls.names, hcalls.nodup, hreports, fun f hf => ?_⟩
  obtain ⟨g, hg, hfg⟩ := hcalls.function (Program.find?_of_mem hnames hf)
  rw [Program.sitesIn_sitesOf hnames hf] at hfg
  exact ⟨g, hg, hfg⟩

def mixedKernels : Function where
  name := "call_mmult"
  ops := #[⟨.kernel .conv2d, [⟨0⟩, ⟨0⟩], none, none, [], [], none, true⟩,
    ⟨.forLoop ⟨0, 2, 1, Int.zero_lt_one⟩, [], none, none, [⟨2⟩], [⟨2⟩], none, true⟩,
    ⟨.kernel .matmul, [⟨0⟩, ⟨0⟩, ⟨0⟩], none, none, [], [], some ⟨1⟩, true⟩,
    ⟨.kernel .matmul, [⟨1⟩], none, none, [], [], none, true⟩,
    ⟨.ret, [], none, none, [], [], none, true⟩]
  values := #[⟨.buffer (.rowMajor [2, 2] .float32 .global), .argument 0⟩, ⟨.index, .argument 1⟩,
    ⟨.index, .inductionVar ⟨1⟩ 0⟩]
  arity := 2
  body := [⟨0⟩, ⟨1⟩, ⟨3⟩, ⟨4⟩]

theorem run_replaces_kernels_mixedKernels :
    mixedKernels.Lowerable ∧ ∃ r g, (run .default ⟨[mixedKernels]⟩).outcome = .ok r ∧
      r.2.names = ["call_mmult", "call_mmult_1", "call_conv_2d_nchw"] ∧
        r.2.find? "call_mmult" = some g ∧ ∃ call callee,
          g.code = mixedKernels.code.calling mixedKernels.kernelSites call callee := by
  have hlower : mixedKernels.Lowerable := by decide +kernel
  have hname : mixedKernels.name = "call_mmult" := rfl
  have hok : (run .default ⟨[mixedKernels]⟩).outcome.toOption.map (·.2.names) =
      some ["call_mmult", "call_mmult_1", "call_conv_2d_nchw"] := by decide +kernel
  -- The run is not to be unfolded again: from here on the function is any that these hold of.
  generalize mixedKernels = f at *
  obtain ⟨r, hrun, hr⟩ := Fault.toOption_map_eq_some.1 hok
  obtain ⟨-, call, callee, -, -, -, -, hfs⟩ := (@run_replaces_kernels ⟨[f]⟩ .default rfl
    (List.nodup_singleton f.name) (List.forall_mem_singleton.2 hlower)).of_ok hrun
  obtain ⟨g, hg, hcalls⟩ := hfs f (List.mem_singleton_self f)
  exact ⟨hlower, r, g, hrun, hr, hname ▸ hg, _, _, hcalls.code⟩

end Lowering

end KernelLowering
