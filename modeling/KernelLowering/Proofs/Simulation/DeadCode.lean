import KernelLowering.Proofs.Arena.DeadCode
import KernelLowering.Proofs.Simulation.Values

namespace KernelLowering

theorem Node.actions_of_isPure {h : Node} (hpure : h.kind.isPure = true) (env : Env) :
    ∃ vs : List ValueId, h.actions env = vs.map .alloc := by
  unfold actions
  split
  · exact ⟨[_], rfl⟩
  · simp_all [OpKind.isPure]
  · simp_all [OpKind.isPure]
  · exact ⟨[], rfl⟩

namespace Function

variable {f g : Function} {k : Spine} {b x z : Code} {hd : Node}

theorem Sheds.passes (hpure : hd.kind.isPure = true) {holds : Env → Prop} :
    (Passage.plain id (· ∉ hd.defined) (fun v => v ∈ hd.defined ∨ v ∈ x.defined) holds).Passes
      (.node hd x .nil) .nil where
  allocated := by
    rintro c _ ⟨rfl, hshown⟩ hm
    have hdef := Code.mem_defined_of_allocated hm
    rw [Code.defined_node, List.mem_append, List.mem_append] at hdef
    exact (hshown (hdef.imp_right fun h => h.resolve_right List.not_mem_nil)).elim
  steps env env' _ _ hlinks _ := by
    have hiter : hd.kind.iterations = [] := by
      rw [OpKind.iterations, if_neg (by simp [OpKind.isLoop_of_isPure hpure])]
    obtain ⟨vs, hvs⟩ := Node.actions_of_isPure hpure env
    have htrace : (Code.node hd x .nil).trace env = vs.map .alloc := by
      rw [Code.trace, hiter, hvs]
      simp [Code.trace]
    refine ⟨trivial, ?_, fun _ => trivial, fun v item hv hkept => ?_⟩
    · rw [htrace]
      show Mimics _ ([].map .alloc) _
      exact Mimics.allocs (Passage.oneToOne _) fun _ hm => (List.not_mem_nil hm).elim
    · exact hlinks v item ((hd.bind_of_not_mem env hkept).symm.trans hv) hkept

theorem Sheds.improves (h : f.Sheds g k b x z hd) (hs : f.Sound (k.plug (b ++ .node hd x z))) :
    f.Improves g (k.plug (b ++ .node hd x z)) (k.plug (b ++ z)) := by
  have hafter : g.Represents ((k.rename id).plug (b.rename id ++ (.nil ++ z.rename id))) := by
    simpa using h.after
  have himproves := hs.splice hafter h.same.grows h.same.grows.respects (fun _ hm => nomatch hm)
    (fun h' hh v hv hdef => h.unused v hdef h' (Spine.mem_heads_around hh hd x) hv)
    (fun v hv => ⟨rfl, fun hm => hm.elim (hs.represents.stays hv).2.1 (hs.represents.stays hv).2.2⟩)
    (Sheds.passes h.pure)
  simpa using himproves

theorem Improves.shed {f₀ : Function} {c₀ : Code} (h : f₀.Improves f c₀ f.code)
    (hs : f.Sheds g k b x z hd) : f₀.Improves g c₀ g.code := by
  rw [hs.before.code_eq] at h
  rw [hs.after.code_eq]
  exact h.trans (hs.improves h.sound)

end Function

end KernelLowering
