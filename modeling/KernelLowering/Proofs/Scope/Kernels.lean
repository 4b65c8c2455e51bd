import KernelLowering.Proofs.Promotion.Emission
import KernelLowering.Proofs.Scope.Folding
import KernelLowering.Proofs.Tiling.Updates

namespace KernelLowering

namespace Code

variable {known : List ValueId}

theorem Tidy.within {loops : List Node} {y : Code}
    (hloops : ∀ h ∈ loops, ∃ op kind vars, kind.isLoop = true ∧ h = Node.loop op kind vars)
    (hy : y.Tidy (loops.flatMap Node.defined ++ known)) : (Code.within loops y).Tidy known := by
  induction loops generalizing known with
  | nil => exact hy
  | cons h loops ih =>
    rw [List.forall_mem_cons] at hloops
    obtain ⟨⟨op, kind, vars, hkind, rfl⟩, hloops⟩ := hloops
    refine .loop hkind (ih hloops (hy.mono fun v hv => ?_)) .nil
    simp only [List.flatMap_cons, Node.defined, Node.loop, List.mem_append] at hv ⊢
    simpa [or_left_comm, or_assoc] using hv

end Code

namespace Tiling

variable {known : List ValueId} {vars : LoopVars} {nest : Nest} {y : Code}

theorem SumOf.tidy {first last : ValueId} {rest : List ValueId} (h : SumOf first rest y last)
    (hfirst : first ∈ known) (hrest : ∀ v ∈ rest, v ∈ known) :
    y.Tidy known ∧ last ∈ y.exports ++ known := by
  induction h generalizing known with
  | done v => exact ⟨.nil, hfirst⟩
  | @more first next v last rest y op _ ih =>
    rw [List.forall_mem_cons] at hrest
    obtain ⟨hy, hlast⟩ := @ih (v :: known) List.mem_cons_self
      fun u hu => List.mem_cons_of_mem v (hrest.2 u hu)
    refine ⟨.value (by simp [hfirst, hrest.1]) rfl hy, ?_⟩
    simp only [Code.exports, Node.value, List.mem_append, List.mem_cons] at hlast ⊢
    simpa [or_left_comm, or_assoc] using hlast

theorem OffsetOf.tidy {terms : List Nat} {offset : Offset} {vs : List ValueId}
    (h : OffsetOf vars terms offset vs y) (hvars : ∀ u, some u ∈ vars → u ∈ known) :
    y.Tidy known ∧ ∀ v ∈ vs, v ∈ y.exports ++ known := by
  cases h with
  | static => exact ⟨.nil, by simp⟩
  | @dynamic first v rest y hv hsum =>
    have hterm : ∀ u ∈ first :: rest, u ∈ known := fun u hu =>
      hvars u (mem_vars_of_mem_varsAlong (hv ▸ hu))
    rw [List.forall_mem_cons] at hterm
    obtain ⟨hy, hlast⟩ := hsum.tidy hterm.1 hterm.2
    exact ⟨hy, by simpa using hlast⟩

theorem OffsetsOf.tidy {map : OperandMap} {offsets : List Offset} {supplied : List ValueId}
    (h : OffsetsOf vars map offsets supplied y) (hvars : ∀ u, some u ∈ vars → u ∈ known) :
    y.Tidy known ∧ ∀ v ∈ supplied, v ∈ y.exports ++ known := by
  induction h generalizing known with
  | nil => exact ⟨.nil, by simp⟩
  | @cons terms map offset offsets vs supplied y y' hfirst _ ih =>
    obtain ⟨hy, hvs⟩ := hfirst.tidy hvars
    obtain ⟨hy', hsupplied⟩ := @ih (y.exports ++ known) fun u hu =>
      List.mem_append_right _ (hvars u hu)
    refine ⟨hy.append hy', fun v hv => ?_⟩
    rw [Code.exports_append, List.append_assoc]
    exact (List.mem_append.1 hv).elim (fun hv => List.mem_append_right _ (hvs v hv)) (hsupplied v)

theorem OperandOf.tidy {operand v : ValueId} {type : BufferType} {map : OperandMap}
    (h : OperandOf nest vars operand type map y v) (hoperand : operand ∈ known)
    (hvars : ∀ u, some u ∈ vars → u ∈ known) : y.Tidy known ∧ v ∈ y.exports ++ known := by
  cases h with
  | whole => exact ⟨.nil, hoperand⟩
  | window op hoffsets _ _ =>
    obtain ⟨hy, hsupplied⟩ := hoffsets.tidy hvars
    refine ⟨hy.append (.value (fun u hu => ?_) rfl .nil), by simp [Code.exports, Node.value]⟩
    rcases List.mem_cons.1 hu with rfl | hu
    · exact List.mem_append_right _ hoperand
    · exact hsupplied u hu

theorem OperandsOf.tidy {all : List (ValueId × BufferType × OperandMap)} {vs : List ValueId}
    (h : OperandsOf nest vars all y vs) (hall : ∀ x ∈ all, x.1 ∈ known)
    (hvars : ∀ u, some u ∈ vars → u ∈ known) :
    y.Tidy known ∧ ∀ v ∈ vs, v ∈ y.exports ++ known := by
  induction h generalizing known with
  | nil => exact ⟨.nil, by simp⟩
  | @cons operand v type map rest y y' vs hfirst _ ih =>
    rw [List.forall_mem_cons] at hall
    obtain ⟨hy, hv⟩ := hfirst.tidy hall.1 hvars
    obtain ⟨hy', hvs⟩ := @ih (y.exports ++ known)
      (fun x hx => List.mem_append_right _ (hall.2 x hx))
      fun u hu => List.mem_append_right _ (hvars u hu)
    refine ⟨hy.append hy', ?_⟩
    simp only [List.forall_mem_cons, Code.exports_append, List.append_assoc]
    exact ⟨List.mem_append_right _ hv, hvs⟩

theorem LoopsOf.isLoopNode {gs : List (List Nat)} {vars' : LoopVars} {loops : List Node}
    (h : LoopsOf nest gs vars loops vars') :
    ∀ h ∈ loops, ∃ op kind vars, kind.isLoop = true ∧ h = Node.loop op kind vars := by
  induction h with
  | nil => simp
  | cons op hloop _ _ _ ih => exact List.forall_mem_cons.2 ⟨⟨op, _, _, hloop, rfl⟩, ih⟩

variable {t : Tiling} {plan : TilePlan} {operands : List ValueId}

theorem NestOf.tidy (h : NestOf t plan operands nest y) (hops : ∀ v ∈ operands, v ∈ known) :
    y.Tidy known := by
  cases h with
  | @intro loops vars y tiled op hloops htiled _ =>
    have hvars : ∀ u, some u ∈ vars → u ∈ loops.flatMap Node.defined ++ known := fun u hu =>
      List.mem_append_left _ ((hloops.mem_vars hu).resolve_left (by simp))
    obtain ⟨hy, htiles⟩ := htiled.tidy
      (fun x hx => List.mem_append_right _ (hops _ (List.of_mem_zip hx).1)) hvars
    exact .within hloops.isLoopNode (hy.append (.effect htiles .nil))

theorem NestsOf.tidy {ns : List Nest} (h : NestsOf t plan operands ns y)
    (hops : ∀ v ∈ operands, v ∈ known) : y.Tidy known := by
  induction h generalizing known with
  | nil => exact .nil
  | cons hfirst _ ih =>
    exact (hfirst.tidy hops).append (ih fun v hv => List.mem_append_right _ (hops v hv))

variable {f g : Function} {k : Spine} {b x z : Code} {hd : Node}

theorem tidy (h : f.Tidy) (hr : f.Represents (k.plug (b ++ .node hd x z)))
    (hcheck : ((Rule.tiling t).check f hd.op).Answers ())
    (hg : (Rule.tiling t).performAt f hd.op = .ok g) : g.Tidy ∧ f.Grows g := by
  have hop : f.op? hd.op = some (hd.record k.parent x.roots) := Function.op_eq_ok.1 hr.record_at
  obtain ⟨hkind, -, plan, hplan⟩ := (check_answers hop).1 hcheck
  rw [Rule.performAt] at hg
  obtain ⟨r, hrun, rfl⟩ := Fault.map_eq_ok.1 hg
  obtain ⟨ns, y, -, hnests, hsplice⟩ := (yields_perform hr hplan).of_ok hrun
  exact ⟨h.emit hr hsplice (h.plain_at hr (by rw [hkind]; rfl))
    (hnests.tidy fun v hv => h.known_operand hr hv), hsplice.grows⟩

end Tiling

namespace Promotion

variable {p : Promotion} {known : List ValueId} {y : Code}

theorem TileOf.tidy {type : BufferType} {buffer tile : ValueId} (h : TileOf p type y buffer tile) :
    y.Tidy known ∧ buffer ∈ y.exports ++ known ∧ tile ∈ y.exports ++ known := by
  cases h with
  | placed op v => exact ⟨.value (by simp) rfl .nil, by simp [Code.exports, Node.value]⟩
  | viewed op op' op'' v v' v'' =>
    exact ⟨.value (by simp) rfl (.value (by simp) rfl (.value (by simp) rfl .nil)),
      by simp [Code.exports, Node.value]⟩

theorem TilesOf.tidy {tiles : List (Nat × BufferType)} {operands buffers promoted : List ValueId}
    (h : TilesOf p tiles operands y buffers promoted) (hops : ∀ v ∈ operands, v ∈ known) :
    y.Tidy known ∧ (∀ v ∈ buffers, v ∈ y.exports ++ known) ∧
      ∀ v ∈ promoted, v ∈ y.exports ++ known := by
  induction h generalizing known with
  | nil => exact ⟨.nil, by simp, hops⟩
  | @cons position type rest operands buffers promoted y y' buffer tile hfirst _ ih =>
    obtain ⟨hy, hbuffer, htile⟩ : y.Tidy known ∧ buffer ∈ y.exports ++ known ∧
        tile ∈ y.exports ++ known := hfirst.tidy
    obtain ⟨hy', hbuffers, hpromoted⟩ := @ih (y.exports ++ known) fun v hv =>
      (List.mem_or_eq_of_mem_set hv).elim (fun hv => List.mem_append_right _ (hops v hv))
        fun hv => hv ▸ htile
    refine ⟨hy.append hy', ?_⟩
    simp only [List.forall_mem_cons, Code.exports_append, List.append_assoc]
    exact ⟨⟨List.mem_append_right _ hbuffer, hbuffers⟩, hpromoted⟩

theorem ActionsOf.tidy {as : List Action} (h : ActionsOf as y)
    (has : ∀ a ∈ as, ∀ v ∈ a.2.1, v ∈ known) : y.Tidy known := by
  induction h with
  | nil => exact .nil
  | cons op _ ih =>
    rw [List.forall_mem_cons] at has
    exact .effect has.1 (ih has.2)

theorem PromotedOf.tidy {operands : List ValueId} {positions : List Nat}
    {tiles : List (Nat × BufferType)} (h : PromotedOf p operands positions tiles y)
    (hops : ∀ v ∈ operands, v ∈ known) : y.Tidy known := by
  cases h with
  | intro htiles hactions =>
    obtain ⟨hy, hbuffers, hpromoted⟩ := htiles.tidy hops
    refine hy.append (hactions.tidy fun a ha v hv => ?_)
    rcases mem_of_mem_actions ha hv with hv | hv | hv
    · exact List.mem_append_right _ (hops v hv)
    · exact hpromoted v hv
    · exact hbuffers v hv

variable {f g : Function} {k : Spine} {b x z : Code} {hd : Node}

theorem tidy (h : f.Tidy) (hr : f.Represents (k.plug (b ++ .node hd x z)))
    (hcheck : ((Rule.promotion p).check f hd.op).Answers ())
    (hg : (Rule.promotion p).performAt f hd.op = .ok g) : g.Tidy ∧ f.Grows g := by
  have hops := h.has hr hd (Spine.mem_heads_at k b x z hd)
  rw [Rule.performAt] at hg
  obtain ⟨r, hrun, rfl⟩ := Fault.map_eq_ok.1 hg
  obtain ⟨types, y, -, hpromoted, hsplice⟩ :=
    (yields_perform hr (.of_has hops) fun _ _ _ _ _ => trivial).of_ok hrun
  exact ⟨h.emit hr hsplice (h.plain_at hr (by rw [kind_of_answers hr hcheck]; rfl))
    (hpromoted.tidy fun v hv => h.known_operand hr hv), hsplice.grows⟩

end Promotion

end KernelLowering
