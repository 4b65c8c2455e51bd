import KernelLowering.Proofs.Simulation.Refinement
import KernelLowering.Proofs.Tiling.Updates

namespace KernelLowering

namespace Code

theorem throughout_within {p : Node → Env → Prop} {loops : List Node} {y : Code} {env : Env}
    (hloops : ∀ h ∈ loops, ∀ env, p h env)
    (hy : ∀ inner ∈ envs loops env, y.Throughout p inner) : (within loops y).Throughout p env := by
  induction loops generalizing env with
  | nil => exact hy env (List.mem_singleton.2 rfl)
  | cons h loops ih =>
    obtain ⟨hh, hloops⟩ := List.forall_mem_cons.1 hloops
    refine ⟨hh env, fun i hi => ih hloops fun inner hinner => hy inner ?_, trivial⟩
    exact List.mem_flatMap.2 ⟨i, hi, hinner⟩

end Code

namespace Tiling

section Typed

variable {nest : Nest} {vars vars' : LoopVars} {g : Function} {y : Code}

theorem OperandsOf.kinds {all : List (ValueId × BufferType × OperandMap)} {vs : List ValueId}
    (h : OperandsOf nest vars all y vs) :
    ∀ hd ∈ y.heads, hd.kind = .addIndex ∨ hd.kind.window?.isSome = true := by
  intro hd hh
  rcases h.eq_value hd hh with ⟨op, terms, v, rfl⟩ | ⟨op, w, terms, v, t, rfl⟩
  · exact .inl rfl
  · exact .inr rfl

theorem OperandsOf.isPure {all : List (ValueId × BufferType × OperandMap)} {vs : List ValueId}
    (h : OperandsOf nest vars all y vs) : ∀ hd ∈ y.heads, hd.kind.isPure = true := by
  intro hd hh
  rcases h.kinds hd hh with hadd | hw
  · rw [hadd]
    rfl
  · obtain ⟨w, hw⟩ := Option.isSome_iff_exists.1 hw
    rw [OpKind.window?_eq_some.1 hw]
    rfl

theorem SumOf.typed {first last : ValueId} {rest : List ValueId} (h : SumOf first rest y last)
    (hvars : ∀ v ∈ first :: rest, g.Has v) (hnew : ∀ v ∈ y.defined, g.Has v) :
    (∀ hd ∈ y.heads, hd.Typed g) ∧ g.Has last := by
  induction h with
  | done v => exact ⟨by simp [Code.heads], hvars v List.mem_cons_self⟩
  | @more first next v last rest y op hrest ih =>
    obtain ⟨hfirst, hvars⟩ := List.forall_mem_cons.1 hvars
    obtain ⟨hnext, hvars⟩ := List.forall_mem_cons.1 hvars
    simp only [Code.defined_node, Code.defined_nil, List.nil_append, List.forall_mem_append] at hnew
    have hv : g.Has v := hnew.1 v (by simp [Node.defined, Node.value])
    obtain ⟨hheads, hlast⟩ := ih (List.forall_mem_cons.2 ⟨hv, hvars⟩) hnew.2
    refine ⟨?_, hlast⟩
    simp only [Code.heads, List.nil_append, List.forall_mem_cons]
    exact ⟨.addIndex op v hfirst hnext, hheads⟩

theorem OffsetsOf.typed {map : OperandMap} {offsets : List Offset} {supplied : List ValueId}
    (h : OffsetsOf vars map offsets supplied y) (hvars : ∀ v, some v ∈ vars → g.Has v)
    (hnew : ∀ v ∈ y.defined, g.Has v) :
    (∀ hd ∈ y.heads, hd.Typed g) ∧ (∀ v ∈ supplied, g.Has v) ∧ offsets.length = map.length := by
  induction h with
  | nil => simp [Code.heads]
  | cons hfirst _ ih =>
    simp only [Code.defined_append, List.forall_mem_append] at hnew
    obtain ⟨hheads, hsupplied, hlen⟩ := ih hnew.2
    simp only [Code.heads_append, List.forall_mem_append, List.length_cons, hlen, and_true]
    cases hfirst with
    | static => exact ⟨⟨by simp [Code.heads], hheads⟩, by simp, hsupplied⟩
    | @dynamic first v rest y hv hsum =>
      have hall : ∀ u ∈ first :: rest, g.Has u := fun u hu =>
        hvars u (mem_vars_of_mem_varsAlong (hv ▸ hu))
      obtain ⟨hfirst, hlast⟩ := hsum.typed hall hnew.1
      exact ⟨⟨hfirst, hheads⟩, by simpa using hlast, hsupplied⟩

theorem OperandsOf.typed {all : List (ValueId × BufferType × OperandMap)} {vs : List ValueId}
    (h : OperandsOf nest vars all y vs) (hvars : ∀ v, some v ∈ vars → g.Has v)
    (hall : ∀ x ∈ all, ∃ type, g.bufferType? x.1 = .ok (some type))
    (hnew : ∀ v ∈ y.defined, g.Has v) :
    (∀ hd ∈ y.heads, hd.Typed g) ∧ ∀ v ∈ vs, g.Has v := by
  induction h with
  | nil => simp [Code.heads]
  | @cons operand v type map rest y y' vs hfirst _ ih =>
    simp only [Code.defined_append, List.forall_mem_append] at hnew
    obtain ⟨⟨source, hsource⟩, hall⟩ := List.forall_mem_cons.1 hall
    obtain ⟨hheads, hvs⟩ := ih hall hnew.2
    simp only [Code.heads_append, List.forall_mem_append, List.forall_mem_cons]
    cases hfirst with
    | whole =>
      obtain ⟨a, ha, -⟩ := Fault.map_eq_ok.1 hsource
      have hv := (Array.getElem?_eq_some_iff.1 (Function.value_eq_ok.1 ha)).1
      exact ⟨⟨by simp [Code.heads], hheads⟩, hv, hvs⟩
    | @window offsets supplied y v result op hoffsets hcut hresult =>
      simp only [Code.defined_append, Code.defined_node, Code.defined_nil, List.append_nil,
        List.forall_mem_append, Node.defined, Node.value, Option.map_some, Option.toList_some,
        List.forall_mem_singleton] at hnew
      obtain ⟨⟨hnewy, hv⟩, -⟩ := hnew
      obtain ⟨hy, hsupplied, hlen⟩ := hoffsets.typed hvars hnewy
      simp only [Code.heads_append, Code.heads, List.append_nil, List.forall_mem_append,
        List.forall_mem_singleton]
      refine ⟨⟨⟨hy, ?_⟩, hheads⟩, hv, hvs⟩
      exact .subView op v hsource hsupplied hoffsets.count_dynamic (by simp [windowOf, hlen])
        (by simp [windowOf]) (Window.of_resultType hresult).1

theorem LoopsOf.has {gs : List (List Nat)} {loops : List Node}
    (h : LoopsOf nest gs vars loops vars') (hvars : ∀ v, some v ∈ vars → g.Has v)
    (hnew : ∀ v ∈ loops.flatMap Node.defined, g.Has v) : ∀ v, some v ∈ vars' → g.Has v := by
  intro v hv
  rcases h.mem_vars hv with hv | hv
  · exact hvars v hv
  · exact hnew v hv

theorem LoopsOf.typed {gs : List (List Nat)} {loops : List Node}
    (h : LoopsOf nest gs vars loops vars') : ∀ hd ∈ loops, hd.Typed g := by
  induction h with
  | nil => simp
  | cons op hloop _ _ _ ih => exact List.forall_mem_cons.2 ⟨.loop op _ hloop, ih⟩

theorem NestsOf.typed {t : Tiling} {plan : TilePlan} {operands : List ValueId} {ns : List Nest}
    (h : NestsOf t plan operands ns y)
    (hall : ∀ v ∈ operands, ∃ type, g.bufferType? v = .ok (some type))
    (hnew : ∀ v ∈ y.defined, g.Has v) : ∀ hd ∈ y.heads, hd.Typed g := by
  induction h with
  | nil => simp [Code.heads]
  | cons hfirst _ ih =>
    simp only [Code.defined_append, List.forall_mem_append] at hnew
    rw [Code.heads_append, List.forall_mem_append]
    refine ⟨?_, ih hnew.2⟩
    cases hfirst with
    | @intro loops vars y tiled op hloops htiled _ =>
      simp only [defined_within, Code.defined_append, List.forall_mem_append] at hnew
      have hvars := hloops.has (by simp) hnew.1.1
      obtain ⟨hy, hvs⟩ := htiled.typed hvars (fun x hx => hall _ (List.of_mem_zip hx).1)
        hnew.1.2.1
      simp only [Code.heads_within, Code.heads_append, Code.heads, List.append_nil,
        List.forall_mem_append, List.forall_mem_singleton]
      exact ⟨hloops.typed, hy, .effect op _ rfl rfl (by simp) hvs⟩

end Typed

end Tiling

end KernelLowering
