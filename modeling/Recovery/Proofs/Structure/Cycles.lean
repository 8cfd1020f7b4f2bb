import Recovery.Proofs.Structure.Latches
import Recovery.Proofs.Structure.Members
import Recovery.Proofs.Structure.PostDominators
/-
  Cycles are what loops and jumps account for.

  An edge that goes back closes a cycle, and along any other edge `order` falls, so
  every cycle has an edge that goes back. After the last pass such an edge is
  the way from a latch to its head, or its source is marked as a jump: an edge that
  is `Unaccounted` falls in `order`, and no cycle is made of such edges alone.

  Without cycles there is no edge that goes back, hence no latch, and what the
  latches decide is decided: no node knows of a loop (`Loopless`). Both branches
  of a conditional then lie in the same loop, namely none, so none of them crosses one.
-/

namespace Recovery

namespace Jumps
variable {g : NodeGraph} {k : Numbering g.size} {roles : Roles g.size} {v : g.Node}

theorem crossing_eq_none (hloopHead : ∀ w, (roles.get w).loopHead = none)
    (hheads : (roles.get v).heads ≠ .loopConditional) (follow : g.Node) :
    crossing g k roles v follow = none := by
  simp only [crossing, loopOf, hheads, hloopHead, if_false, if_true]

theorem jump_judged_ne_acrossLoop (hloopHead : ∀ w, (roles.get w).loopHead = none)
    (hheads : (roles.get v).heads ≠ .loopConditional) (hjump : (roles.get v).jump = .none) :
    (judged g k roles v).jump ≠ .acrossLoop := by
  have hplain : (roles.get v).jump ≠ .acrossLoop := by
    rw [hjump]
    decide
  rw [judged]
  split
  · exact hplain
  · next follow _ =>
    rw [crossing_eq_none hloopHead hheads follow]
    split
    · exact hplain
    · dsimp only
      split
      · intro h
        cases h
      · exact hplain

theorem jump_classify_ne_acrossLoop (hloopHead : ∀ w, (roles.get w).loopHead = none)
    (hheads : (roles.get v).heads ≠ .loopConditional) (hjump : (roles.get v).jump = .none)
    (hback : ∀ s ∈ g.next v, k.isBackEdge v s = false) :
    ((classify g k roles).get v).jump ≠ .acrossLoop := by
  have hjudge : ((judge g k roles).get v).jump ≠ .acrossLoop := by
    rw [judge, get_ofFn]
    exact jump_judged_ne_acrossLoop hloopHead hheads hjump
  rw [classify, get_markUnlatched]
  split
  · next hc =>
    obtain ⟨s, hs, hunlatched⟩ := List.any_eq_true.1 hc.2
    rw [hback s hs] at hunlatched
    cases hunlatched
  · exact hjudge

end Jumps

/-! ## Without cycles -/

section
variable {g : Graph} {G : NodeGraph} {roles : Roles G.size}

namespace LatchesDecide

theorem latch_eq_none_of_acyclic (h : LatchesDecide G (Numbering.ofNodeGraph G) roles)
    (D : NodeGraph.Depicts g G) (hacyclic : Acyclic (Along G.next)) (v : G.Node) :
    (roles.get v).latch = none := by
  cases hl : (roles.get v).latch with
  | none => rfl
  | some l =>
    obtain ⟨hmem, hback⟩ := h.latch_mem v l hl
    rw [Numbering.isBackEdge_eq_false D hacyclic (D.mem_previous_iff.1 hmem)] at hback
    cases hback

theorem loopHead_eq_none_of_acyclic (h : LatchesDecide G (Numbering.ofNodeGraph G) roles)
    (D : NodeGraph.Depicts g G) (hacyclic : Acyclic (Along G.next)) (v : G.Node) :
    (roles.get v).loopHead = none := by
  cases hhead : (roles.get v).loopHead with
  | none => rfl
  | some x =>
    obtain ⟨l, hl⟩ := h.loopHead_latched v x hhead
    rw [h.latch_eq_none_of_acyclic D hacyclic] at hl
    cases hl

theorem not_isLoop_of_acyclic (h : LatchesDecide G (Numbering.ofNodeGraph G) roles)
    (D : NodeGraph.Depicts g G) (hacyclic : Acyclic (Along G.next)) (v : G.Node) :
    (roles.get v).heads ≠ .loop ∧ (roles.get v).heads ≠ .loopConditional := by
  rw [← not_or, h.isLoop_iff v, h.latch_eq_none_of_acyclic D hacyclic]
  simp

end LatchesDecide

/-- Without cycles no node jumps across a loop. -/
theorem Roles.jump_find_ne_acrossLoop (D : NodeGraph.Depicts g G)
    (hacyclic : Acyclic (Along G.next)) (links : PostDominators G.size) (v : G.Node) :
    ((find G (Numbering.ofNodeGraph G) links).get v).jump ≠ .acrossLoop := by
  have hdecide := LatchesDecide.marked D links
  apply Jumps.jump_classify_ne_acrossLoop (hdecide.loopHead_eq_none_of_acyclic D hacyclic)
    (hdecide.not_isLoop_of_acyclic D hacyclic v).2 _
    fun s hs => Numbering.isBackEdge_eq_false D hacyclic hs
  -- nothing has been marked as a jump when jumps are judged
  obtain ⟨_, _, _, _, _, hloops⟩ := Loops.exists_get_classify G (Numbering.ofNodeGraph G)
    (Conditionals.classify G (Numbering.ofNodeGraph G) links) v
  obtain ⟨_, _, _, _, hplain⟩ :=
    Conditionals.exists_classify_eq_plain (Numbering.ofNodeGraph G) links v
  rw [hloops, hplain]
  rfl

end

/-! ## With cycles -/

namespace StructuredProcedure

/-- An edge that is no way from a latch to its head, from a node that is not marked as a jump. -/
structure Unaccounted (s : StructuredProcedure) (u v : s.graph.Node) : Prop where
  edge : v ∈ s.graph.next u
  unlatched : (s.role v).latch ≠ some u
  unmarked : (s.role u).jump = .none

/-- A node that knows of no loop. -/
structure Loopless (s : StructuredProcedure) (v : s.graph.Node) : Prop where
  latch : (s.role v).latch = none
  loopHead : (s.role v).loopHead = none
  loopShape : (s.role v).loopShape = none
  loopFollow : (s.role v).loopFollow = none
  heads : (s.role v).heads ≠ .loop ∧ (s.role v).heads ≠ .loopConditional
  jump : (s.role v).jump ≠ .acrossLoop

/-- **Cycles are accounted for.** Whatever the graph and the walk limit, no cycle is left
without the ways from latches to their heads and the edges out of nodes marked as
jumps; and when the entry reaches no cycle no node knows of a loop. -/
theorem cycles_accounted (q : Procedure) (settings : Settings) (hbuilt : q.graph.Built)
    (hentry : q.graph.hasBlock q.graph.entry = true) :
    ∃ s, ofProcedure q settings = .ok s ∧ NodeGraph.Depicts q.graph s.graph ∧
      Acyclic s.Unaccounted ∧
      ((∀ b c, q.graph.Reached b → c ∈ q.graph.flow b → ¬ Reaches (Along q.graph.flow) c b) →
        ∀ v, s.Loopless v) := by
  obtain ⟨s, hs, D, -, hroles⟩ := exists_ofProcedure q settings hbuilt hentry
  have hdecide : LatchesDecide s.graph (Numbering.ofNodeGraph s.graph) s.roles :=
    hroles ▸ LatchesDecide.find D s.postDominators
  refine ⟨s, hs, D, ?_, fun hacyclic v => ?_⟩
  · -- the order of the first search falls along what is left
    have hfall (u v : s.graph.Node) (e : s.Unaccounted u v) :
        (Numbering.ofNodeGraph s.graph).order.get v <
          (Numbering.ofNodeGraph s.graph).order.get u := by
      apply Numbering.order_lt_of_not_isBackEdge D e.edge
      intro hback
      have hjump : (s.roles.get u).jump = .none := e.unmarked
      apply e.unlatched
      show (s.roles.get v).latch = some u
      rw [hroles] at hjump ⊢
      exact Jumps.latch_of_jump_none hjump e.edge hback
    exact (Acyclic.of_rank _ fun v u e => hfall u v e).turn
  · have hturnless := D.acyclic hacyclic
    have hlatch := hdecide.latch_eq_none_of_acyclic D hturnless v
    obtain ⟨hshape, hfollow⟩ := hdecide.other v hlatch
    refine ⟨hlatch, hdecide.loopHead_eq_none_of_acyclic D hturnless v, hshape, hfollow,
      hdecide.not_isLoop_of_acyclic D hturnless v, ?_⟩
    show (s.roles.get v).jump ≠ .acrossLoop
    rw [hroles]
    exact Roles.jump_find_ne_acrossLoop D hturnless s.postDominators v

/-- A ring that is entered at two blocks keeps no cycle without the way from the latch `b3`
to the head `b1`, and of a choice inside a choice no node knows of a loop. -/
theorem cycles_accounted_crossed_choosing :
    (crossed.graph.Built ∧ crossed.graph.hasBlock crossed.graph.entry = true ∧
      2 ∈ crossed.graph.flow 1 ∧ Reaches (Along crossed.graph.flow) 2 1 ∧
      ∃ s h l, ofProcedure crossed .sequential = .ok s ∧ s.graph.blockOf h = 1 ∧
        s.graph.blockOf l = 3 ∧ h ∈ s.graph.next l ∧ (s.role h).latch = some l ∧
        (s.role l).jump = .none ∧ Acyclic s.Unaccounted) ∧
    choosing.graph.Built ∧ choosing.graph.hasBlock choosing.graph.entry = true ∧
      Acyclic (Along choosing.graph.flow) ∧
      ∃ s, ofProcedure choosing .sequential = .ok s ∧ ∀ v, s.Loopless v := by
  have hring : Reaches (Along crossed.graph.flow) 2 1 :=
    ⟨[2, 3, 1], .step (by decide : 3 ∈ crossed.graph.flow 2)
      (.step (by decide : 1 ∈ crossed.graph.flow 3) (.stop 1))⟩
  obtain ⟨s, hs, -, hcycles, -⟩ :=
    cycles_accounted crossed .sequential built_crossed (by decide)
  obtain ⟨s', hs', -, -, hloopless⟩ :=
    cycles_accounted choosing .sequential built_choosing (by decide)
  obtain ⟨h, l, hh, hl, hlatch, hback, hjump⟩ := exists_loop hs 1 3
    (fun s h l => h ∈ s.graph.next l ∧ (s.role l).jump = .none) (by decide +kernel)
  exact ⟨⟨built_crossed, by decide, by decide, hring, s, h, l, hs, hh, hl, hback, hlatch, hjump,
    hcycles⟩, built_choosing, by decide, acyclic_choosing, s', hs',
    hloopless fun b c _ => acyclic_choosing b c⟩

end StructuredProcedure
end Recovery
