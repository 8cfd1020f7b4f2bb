import Recovery.Proofs.Structure.Phases
/-
  Only heads of loops have a latch.

  Conditionals are classified without giving out one. Marking a loop gives
  its head a latch and makes it a head of a loop, and takes neither from a head of
  another loop (`latchesAtLoops_mark`). Jumps are marked without touching heads or
  latches, and a node that stays without jump has all its back edges latched
  (`latch_of_jump_none`).
-/

namespace Recovery

theorem Heads.isLoop_iff {h : Heads} : h.isLoop = true ↔ h = .loop ∨ h = .loopConditional := by
  cases h <;> simp [isLoop]

/-- Only heads of loops have a latch. -/
def Roles.LatchesAtLoops {n : Nat} (roles : Roles n) : Prop :=
  ∀ v l : Fin n, (roles.get v).latch = some l → (roles.get v).heads.isLoop = true

namespace Loops
variable {g : NodeGraph} {k : Numbering g.size} {roles : Roles g.size}

/-- Marking a loop keeps latches at heads of loops. A node that stops heading
something is a conditional and no head of a loop, so it has no latch to lose. -/
theorem latchesAtLoops_mark (h : roles.LatchesAtLoops) (head latch : g.Node) :
    (mark g k roles head latch).LatchesAtLoops := by
  intro w l hl
  rw [heads_mark]
  rcases latch_mark_eq_some_iff.1 hl with ⟨hw, -⟩ | ⟨hw, hl⟩
  · rw [if_pos hw]
    split
    · rfl
    · rfl
  · have hloop := h w l hl
    rw [if_neg hw]
    split
    · next hc =>
      rw [hc.2] at hloop
      cases hloop
    · exact hloop

theorem latchesAtLoops_classify (h : roles.LatchesAtLoops) :
    (classify g k roles).LatchesAtLoops := by
  refine List.foldlRecOn (motive := Roles.LatchesAtLoops) _ _ h fun roles' h' v _ => ?_
  unfold markAt
  split
  · exact latchesAtLoops_mark h' _ _
  · exact h'

end Loops

namespace Jumps
variable {g : NodeGraph} {k : Numbering g.size} {roles : Roles g.size}

/-- A node left without a jump is the latch of every target it goes back to. -/
theorem latch_of_jump_none {u v : g.Node} (hjump : ((classify g k roles).get u).jump = .none)
    (hv : v ∈ g.next u) (hback : k.isBackEdge u v = true) :
    ((classify g k roles).get v).latch = some u := by
  have hlatch : ((classify g k roles).get v).latch = ((judge g k roles).get v).latch := by
    rw [classify, get_markUnlatched]
    split
    · rfl
    · rfl
  rw [hlatch]
  by_cases hne : ((judge g k roles).get v).latch = some u
  · exact hne
  · exfalso
    have hunlatched : hasUnlatchedBackEdge g k (judge g k roles) u = true := by
      rw [hasUnlatchedBackEdge, List.any_eq_true]
      refine ⟨v, hv, ?_⟩
      rw [hback, Bool.true_and, decide_eq_true_eq]
      exact hne
    rw [classify, get_markUnlatched] at hjump
    split at hjump
    · cases hjump
    · next hc => exact hc ⟨hjump, hunlatched⟩

end Jumps

theorem Roles.latchesAtLoops_find (g : NodeGraph) (k : Numbering g.size)
    (links : PostDominators g.size) : (Roles.find g k links).LatchesAtLoops := by
  intro v l hl
  have hstart : (Conditionals.classify g k links).LatchesAtLoops := fun w l hw =>
    absurd hw (Conditionals.latch_classify_ne_some k links w l)
  obtain ⟨jump, shape, hv, -⟩ :=
    Jumps.exists_get_classify g k (Loops.classify g k (Conditionals.classify g k links)) v
  rw [Roles.find, hv] at hl ⊢
  exact Loops.latchesAtLoops_classify hstart v l hl

end Recovery
