import Recovery.Proofs.Structure.Latches
import Recovery.Proofs.Structure.Numbering
/-
  No back edge to a dominator is lost by structuring.

  Dominance and stamps are found by two algorithms that share nothing, and meet
  in the tree path of the first search from the entry. It is a walk from the
  entry to its last node, so whatever guards that node is on it; and everything
  on it has that node below, so encloses its stamps (`isBackEdge_of_guards`).

  The rest is bookkeeping of the last pass: an edge to an ancestor is latched or
  its source is marked (`Jumps.latch_of_jump_none`), and what has a latch heads
  a loop (`Roles.latchesAtLoops_find`). Which of several edges into one head
  becomes the latch, and which are refused for lying in another switch or loop,
  plays no part.
-/

namespace Recovery

namespace Numbering
variable {G : NodeGraph}

theorem isAncestor_of_below {u v : G.Node}
    (h : (forward G).Below v u) :
    (ofNodeGraph G).isAncestor v u = true := by
  obtain ⟨seen, hf⟩ := depthFirst_search G.next [G.entry]
  have hstamps := Forest.encloses_stampsIn hf.nodup_preorder h
  rw [isAncestor, Bool.or_eq_true]
  left
  simp only [ofNodeGraph, stampTable, get_ofFn, Stamps.encloses,
    Bool.and_eq_true, decide_eq_true_eq]
  exact hstamps

theorem eq_or_below_of_guards {u v : G.Node} (hu : Reaches (Along G.next) G.entry u)
    (hg : Guards (Along G.next) G.entry v u) : v = u ∨ (forward G).Below v u := by
  obtain ⟨seen, hf⟩ := depthFirst_search G.next [G.entry]
  have hmem := (hf.mem_preorder_iff u).2 ⟨G.entry, List.mem_singleton_self _, hu⟩
  obtain ⟨r, hr, vs, hw, hbelow⟩ := hf.branch hmem
  rw [List.mem_singleton.1 hr] at hw
  exact hbelow v (hg vs hw)

/-- An edge from a reached node to one of its guards goes back. -/
theorem isBackEdge_of_guards {u v : G.Node} (hu : Reaches (Along G.next) G.entry u)
    (hg : Guards (Along G.next) G.entry v u) : (ofNodeGraph G).isBackEdge u v = true := by
  rw [isBackEdge, Bool.or_eq_true, decide_eq_true_eq]
  rcases eq_or_below_of_guards hu hg with hvu | hvu
  · exact Or.inl hvu.symm
  · exact Or.inr (isAncestor_of_below hvu)

end Numbering

namespace StructuredProcedure

/-- **No back edge is lost.** When an edge leads from a reached block to one that
dominates it, then after structuring the target heads a loop that the source
latches, or the source is marked as a jump. -/
theorem latched_or_jump_of_dominates (q : Procedure) (settings : Settings)
    (hentry : q.graph.hasBlock q.graph.entry = true) {p h : BlockId}
    (hp : q.graph.Reached p) (hh : q.graph.Reached h) (hedge : h ∈ q.graph.successors p)
    (hdom : (DominatorTree.ofGraph q.graph).dominates h p = true) :
    ∃ s u v, ofProcedure q settings = .ok s ∧
      s.graph.nodeOf? p = some u ∧ s.graph.nodeOf? h = some v ∧
      (((s.role v).heads = .loop ∨ (s.role v).heads = .loopConditional) ∧
          (s.role v).latch = some u ∨
        (s.role u).jump ≠ .none) := by
  obtain ⟨G, hG, R⟩ := NodeGraph.exists_represents hentry
  obtain ⟨u, hu⟩ := NodeGraph.exists_nodeOf? ((R.mem_blocks p).2 hp)
  obtain ⟨v, hv⟩ := NodeGraph.exists_nodeOf? ((R.mem_blocks h).2 hh)
  have hnext : v ∈ G.next u := (R.next u v).2 ⟨h, by
    rw [NodeGraph.blockOf_of_nodeOf? hu]
    exact hedge, hv⟩
  have hguards : Guards (Along G.next) G.entry v u :=
    R.guards_node ((DominatorTree.mem_dominators_iff hentry hp).1
      (DominatorTree.dominates_iff_mem.1 hdom)) hv hu
  have hback := Numbering.isBackEdge_of_guards (R.reaches_node hp hu) hguards
  let links := PostDominators.compute G (Numbering.ofNodeGraph G) settings.walkLimit
  let built : NumberedProcedure :=
    ⟨q.name, G, G.positions q.graph, Numbering.ofNodeGraph G, links⟩
  have hbuild : ofProcedure q settings = .ok built.classify := by
    rw [ofProcedure, NumberedProcedure.build, hG]
    rfl
  refine ⟨built.classify, u, v, hbuild, hu, hv, ?_⟩
  show (((Roles.find G (Numbering.ofNodeGraph G) links).get v).heads = .loop ∨
      ((Roles.find G (Numbering.ofNodeGraph G) links).get v).heads = .loopConditional) ∧
    ((Roles.find G (Numbering.ofNodeGraph G) links).get v).latch = some u ∨
      ((Roles.find G (Numbering.ofNodeGraph G) links).get u).jump ≠ .none
  by_cases hjump : ((Roles.find G (Numbering.ofNodeGraph G) links).get u).jump = .none
  · have hlatch := Jumps.latch_of_jump_none hjump hnext hback
    have hloop := Roles.latchesAtLoops_find G (Numbering.ofNodeGraph G) links v u hlatch
    exact Or.inl ⟨Heads.isLoop_iff.1 hloop, hlatch⟩
  · exact Or.inr hjump

/-- A procedure that leaves its entry for one block and returns to it. -/
def spinning : Procedure :=
  .ofGraph 0 "spin" (.empty 4)
    ((((Graph.empty 0 9).addBlock (.empty 0 "head")).addBlock (.empty 1 "body")).addEdge 0 1
      |>.addEdge 1 0)

/-- Its entry dominates the block that returns to it. That block is marked as no jump, so it
is the latch of the loop that the entry heads. -/
theorem latched_or_jump_spinning :
    (DominatorTree.ofGraph spinning.graph).dominates 0 1 = true ∧
      ∃ s u v, ofProcedure spinning .sequential = .ok s ∧
        s.graph.nodeOf? 1 = some u ∧ s.graph.nodeOf? 0 = some v ∧ (s.role u).jump = .none ∧
        ((s.role v).heads = .loop ∨ (s.role v).heads = .loopConditional) ∧
        (s.role v).latch = some u := by
  have hdom : (DominatorTree.ofGraph spinning.graph).dominates 0 1 = true := by decide +kernel
  have hbody : spinning.graph.Reached 1 :=
    ⟨[0, 1], .step (show 1 ∈ spinning.graph.flow 0 by decide) (.stop 1)⟩
  obtain ⟨s, u, v, hs, hu, hv, hloop⟩ := latched_or_jump_of_dominates spinning .sequential
    (by decide) hbody (.refl 0) (by decide) hdom
  obtain ⟨u', hu', hplain⟩ :=
    exists_node hs 1 (fun s u => some (s.role u).jump) .none (by decide +kernel)
  obtain rfl := Option.some.inj (hu.symm.trans hu')
  have hjump : (s.role u).jump = .none := Option.some.inj hplain
  exact ⟨hdom, s, u, v, hs, hu, hv, hjump, hloop.resolve_right fun h => h hjump⟩

end StructuredProcedure
end Recovery
