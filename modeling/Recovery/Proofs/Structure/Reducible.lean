import Recovery.Proofs.ControlFlow.TreePath
import Recovery.Proofs.Structure.BackEdges
/-
  Back edges of reducible graphs.

  An edge back to a block that dominates its source closes a loop whatever the order
  of the search. Whether other edges count as back edges depends on that order in
  general: of two blocks that lead to each other, both entered from outside, the
  search calls the one it meets second the source.

  In a `Reducible` graph there are no others. A search never follows an edge to a
  guard of its source, so all that hangs below a vertex is reached from it by onward
  edges (`DepthFirst.exists_onward_of_below`). An edge up a tree to a vertex that does
  not guard its source would be onward too, and close a cycle of onward edges. So
  both forests from the entry name the same back edges, those to a dominator.
-/

namespace Recovery

/-- The edges of a relation that do not lead to a vertex that guards their source from `r`. -/
def Onward {α : Type} (E : α → α → Prop) (r u v : α) : Prop := E u v ∧ ¬ Guards E r v u

namespace Forest.DepthFirst
variable {α : Type} {next : α → List α} {f : Forest α} {seen' : List α} {r v x : α}

/-- What hangs below a vertex is reached from it by onward edges, at least one. -/
theorem exists_onward_of_below (hf : DepthFirst next [r] [] f seen') (hb : f.Below v x) :
    ∃ w, Onward (Along next) r v w ∧ Reaches (Onward (Along next) r) w x := by
  classical
  -- cutting off every edge back to a guard at once leaves the forest as it is
  let cut (u w : α) : Bool := decide (Guards (Along next) r w u)
  have hcut (u w : α) : Along (Forest.pruned next cut) u w → Onward (Along next) r u w := by
    rw [along_pruned, decide_eq_false_iff_not]
    exact id
  have hpruned : DepthFirst (Forest.pruned next cut) [r] [] f seen' := by
    refine hf.pruned (fun u w => of_decide_eq_true) fun u hu => ?_
    rw [List.mem_singleton.1 hu]
    exact ⟨[r], .stop r, fun y hy => Or.inl (List.mem_singleton.1 hy)⟩
  obtain ⟨w, hw, vs, hvs⟩ := hpruned.exists_step_of_below hb
  exact ⟨w, hcut v w hw, vs, hvs.mono hcut⟩

end Forest.DepthFirst

namespace Graph
variable {g : Graph}

/-- Whether what the entry reaches has no cycle left without the edges to dominators of
their source. -/
def Reducible (g : Graph) : Prop :=
  ∀ b c, g.Reached b → Onward (Along g.flow) g.entry b c →
    ¬ Reaches (Onward (Along g.flow) g.entry) c b

theorem Reducible.congr {g' : Graph} (h : g.Reducible) (hentry : g'.entry = g.entry)
    (hflow : Along g'.flow = Along g.flow) : g'.Reducible := by
  rw [Reducible, hflow, hentry]
  intro b c hb
  rw [Reached, hflow, hentry] at hb
  exact h b c hb

/-- A graph is reducible when every edge rises in some rank or leads to a dominator. -/
theorem reducible_of_rank (hentry : g.hasBlock g.entry = true) (rank : BlockId → Nat)
    (hedges : ∀ e ∈ g.edges, rank e.1 < rank e.2 ∨
      (DominatorTree.ofGraph g).dominates e.2 e.1 = true) : g.Reducible := by
  have hrise {b c : BlockId} (hb : g.Reached b) (hbc : Onward (Along g.flow) g.entry b c) :
      rank b < rank c := by
    refine (hedges (b, c) (mem_successors.1 (mem_flow.1 hbc.1).1)).resolve_right fun hdom => ?_
    rw [DominatorTree.dominates_iff_mem, DominatorTree.mem_dominators_iff hentry hb] at hdom
    exact hbc.2 hdom
  have hle {b c : BlockId} {bs : List BlockId}
      (hw : Walk (Onward (Along g.flow) g.entry) b c bs) : g.Reached b → rank b ≤ rank c := by
    induction hw with
    | stop b => exact fun _ => Nat.le_refl _
    | step e _ ih => exact fun hb => Nat.le_trans (Nat.le_of_lt (hrise hb e)) (ih (hb.snoc e.1))
  intro b c hb hbc ⟨bs, hw⟩
  exact absurd (hle hw (hb.snoc hbc.1)) (Nat.not_le.2 (hrise hb hbc))

end Graph

namespace NodeGraph.Depicts
variable {g : Graph} {G : NodeGraph} {u v : G.Node}

theorem onward_iff (D : Depicts g G) : Onward (Along G.next) G.entry u v ↔
    Onward (Along g.flow) g.entry (G.blockOf u) (G.blockOf v) := by
  rw [Onward, Onward, D.guards_iff, D.blockOf_entry, Along, D.mem_next_iff, Along]

theorem acyclic_onward (D : Depicts g G) (h : g.Reducible) :
    Acyclic (Onward (Along G.next) G.entry) := by
  intro u v huv ⟨vs, hw⟩
  have hblocks := hw.map G.blockOf fun _ _ => D.onward_iff.1
  exact h _ _ (D.reached_blockOf u) (D.onward_iff.1 huv) ⟨_, hblocks⟩

end NodeGraph.Depicts

namespace Numbering
variable {g : Graph} {G : NodeGraph} {u v : G.Node}

theorem reaches_onward_of_isAncestor (D : NodeGraph.Depicts g G)
    (h : (ofNodeGraph G).isAncestor v u = true) :
    Reaches (Onward (Along G.next) G.entry) v u := by
  rcases (isAncestor_iff D).1 h with hb | hb
  · obtain ⟨seen, hf⟩ := depthFirst_search G.next [G.entry]
    obtain ⟨w, hw, hreach⟩ := hf.exists_onward_of_below hb
    exact .step hw hreach
  · obtain ⟨seen, hf⟩ := depthFirst_search (fun v => (G.next v).reverse) [G.entry]
    obtain ⟨w, hw, hreach⟩ := hf.exists_onward_of_below hb
    rw [along_reverse] at hw hreach
    exact .step hw hreach

/-- Without cycles of onward edges the edges back are those to guards. -/
theorem isBackEdge_iff_guards (D : NodeGraph.Depicts g G)
    (hacyclic : Acyclic (Onward (Along G.next) G.entry)) (hv : v ∈ G.next u) :
    (ofNodeGraph G).isBackEdge u v = true ↔ Guards (Along G.next) G.entry v u := by
  constructor
  · intro hback
    rw [isBackEdge, Bool.or_eq_true, decide_eq_true_eq] at hback
    rcases hback with rfl | hancestor
    · exact fun vs hw => hw.end_mem
    · -- otherwise the edge is onward, and so is the way down to its source
      by_contra hguards
      exact hacyclic u v ⟨hv, hguards⟩ (reaches_onward_of_isAncestor D hancestor)
  · exact isBackEdge_of_guards (D.reaches_entry u)

theorem isBackEdge_iff_dominates (D : NodeGraph.Depicts g G) (h : g.Reducible)
    (hv : v ∈ G.next u) :
    (ofNodeGraph G).isBackEdge u v = true ↔
      (DominatorTree.ofGraph g).dominates (G.blockOf v) (G.blockOf u) = true := by
  rw [isBackEdge_iff_guards D (D.acyclic_onward h) hv, D.guards_iff, D.blockOf_entry,
    DominatorTree.dominates_iff_mem,
    DominatorTree.mem_dominators_iff D.entry_added (D.reached_blockOf u)]
  rfl

theorem isBackEdge_congr {g' : Graph} {G' : NodeGraph} {u' v' : G'.Node}
    (D : NodeGraph.Depicts g G) (D' : NodeGraph.Depicts g' G') (h : g.Reducible)
    (hentry : g'.entry = g.entry) (hflow : Along g'.flow = Along g.flow)
    (hu : G'.blockOf u' = G.blockOf u) (hv : G'.blockOf v' = G.blockOf v) (hedge : v ∈ G.next u) :
    (ofNodeGraph G').isBackEdge u' v' = (ofNodeGraph G).isBackEdge u v := by
  have hedge' : v' ∈ G'.next u' := by
    rw [D'.mem_next_iff, hu, hv]
    exact (congrFun₂ hflow _ _).mpr (D.mem_next_iff.1 hedge)
  have h' := h.congr hentry hflow
  rw [Bool.eq_iff_iff, isBackEdge_iff_guards D (D.acyclic_onward h) hedge,
    isBackEdge_iff_guards D' (D'.acyclic_onward h') hedge', D.guards_iff, D'.guards_iff,
    D.blockOf_entry, D'.blockOf_entry, hu, hv, hflow, hentry]

end Numbering

namespace StructuredProcedure

/-- **Back edges of a reducible procedure.** Of the edges between its nodes those go back
that lead to a dominator of their source. The same edges go back in every procedure with
the same edges, in whatever order they are declared. -/
theorem backEdge_iff_dominates (q : Procedure) (settings : Settings) (hbuilt : q.graph.Built)
    (hreducible : q.graph.Reducible) :
    (q.graph.hasBlock q.graph.entry = true → ∃ s, ofProcedure q settings = .ok s) ∧
    ∀ s, ofProcedure q settings = .ok s → ∀ u v, v ∈ s.graph.next u →
      (s.numbering.isBackEdge u v = true ↔ (DominatorTree.ofGraph q.graph).dominates
        (s.graph.blockOf v) (s.graph.blockOf u) = true) ∧
      ∀ (q' : Procedure) (settings' : Settings) (s' : StructuredProcedure), q'.graph.Built →
        q'.graph.entry = q.graph.entry →
        (∀ b c, c ∈ q'.graph.flow b ↔ c ∈ q.graph.flow b) →
        ofProcedure q' settings' = .ok s' →
        ∀ u' v', s'.graph.blockOf u' = s.graph.blockOf u →
          s'.graph.blockOf v' = s.graph.blockOf v →
          s'.numbering.isBackEdge u' v' = s.numbering.isBackEdge u v := by
  refine ⟨fun hentry => ?_, fun s hs u v hv => ?_⟩
  · obtain ⟨s, hs, -⟩ := exists_ofProcedure q settings hbuilt hentry
    exact ⟨s, hs⟩
  obtain ⟨D, hnumbering⟩ := depicts_of_ofProcedure hbuilt hs
  rw [hnumbering]
  refine ⟨Numbering.isBackEdge_iff_dominates D hreducible hv, ?_⟩
  intro q' settings' s' hbuilt' hentry' hflow hs' u' v' hu' hv'
  obtain ⟨D', hnumbering'⟩ := depicts_of_ofProcedure hbuilt' hs'
  have halong : Along q'.graph.flow = Along q.graph.flow := by
    funext b c
    exact propext (hflow b c)
  rw [hnumbering']
  exact Numbering.isBackEdge_congr D D' hreducible hentry' halong hu' hv' hv

/-- A loop inside another, with its edges in some order. The outer loop tests at its head, the
inner one at its end. -/
def nested (edges : List (BlockId × BlockId)) : Procedure :=
  .ofGraph 0 "nest" (.empty 4) (edges.foldl (fun g e => g.addEdge e.1 e.2)
    (((((Graph.empty 0 4).addBlock (.empty 0 "entry")).addBlock (.empty 1 "outer")).addBlock
      (.empty 2 "inner")).addBlock (.empty 3 "step") |>.addBlock (.empty 4 "done")))

theorem built_nested (edges : List (BlockId × BlockId)) : (nested edges).graph.Built :=
  edges.foldlRecOn _ (.addBlock _ (.addBlock _ (.addBlock _ (.addBlock _ (.addBlock _
    (.empty 0 4)))))) fun _ h _ _ => .addEdge _ _ h

/-- The loops with the ways that stay in them declared first. -/
def nestedInward : Procedure := nested [(0, 1), (1, 2), (1, 4), (2, 2), (2, 3), (3, 1)]

/-- The loops with the ways that leave them declared first. -/
def nestedOutward : Procedure := nested [(0, 1), (1, 4), (1, 2), (2, 3), (2, 2), (3, 1)]

/-- In both orders the edges back are those that do not rise in number. -/
theorem backEdge_iff_dominates_nested :
    nestedInward.graph.Built ∧ nestedInward.graph.Reducible ∧
      nestedInward.graph.hasBlock nestedInward.graph.entry = true ∧
      ∃ s s', ofProcedure nestedInward .sequential = .ok s ∧
        ofProcedure nestedOutward .sequential = .ok s' ∧
        ∀ u v, v ∈ s.graph.next u →
          (s.numbering.isBackEdge u v = true ↔ s.graph.blockOf v ≤ s.graph.blockOf u) ∧
          ∀ u' v', s'.graph.blockOf u' = s.graph.blockOf u →
            s'.graph.blockOf v' = s.graph.blockOf v →
            s'.numbering.isBackEdge u' v' = s.numbering.isBackEdge u v := by
  have hentry : nestedInward.graph.hasBlock nestedInward.graph.entry = true := by decide
  have hreducible : nestedInward.graph.Reducible :=
    Graph.reducible_of_rank hentry id (by decide +kernel)
  have hbuilt : nestedInward.graph.Built := built_nested _
  have hbuilt' : nestedOutward.graph.Built := built_nested _
  have hsame : nestedOutward.graph.entry = nestedInward.graph.entry := by decide
  have hperm : nestedOutward.graph.edges.Perm nestedInward.graph.edges := by decide
  have hids : nestedOutward.graph.blockIds = nestedInward.graph.blockIds := by decide
  have hflow (b c : BlockId) : c ∈ nestedOutward.graph.flow b ↔ c ∈ nestedInward.graph.flow b := by
    rw [Graph.mem_flow, Graph.mem_flow, Graph.mem_successors, Graph.mem_successors, hperm.mem_iff,
      hids]
  have hdominates : ∀ e ∈ nestedInward.graph.edges,
      ((DominatorTree.ofGraph nestedInward.graph).dominates e.2 e.1 = true ↔ e.2 ≤ e.1) := by
    decide +kernel
  obtain ⟨hanswers, hback⟩ := backEdge_iff_dominates nestedInward .sequential hbuilt hreducible
  obtain ⟨s, hs⟩ := hanswers hentry
  obtain ⟨s', hs', -⟩ := exists_ofProcedure nestedOutward .sequential hbuilt' (by decide)
  refine ⟨hbuilt, hreducible, hentry, s, s', hs, hs', fun u v hv => ?_⟩
  obtain ⟨hiff, horder⟩ := hback s hs u v hv
  have hedge := (depicts_of_ofProcedure hbuilt hs).1.mem_next_iff.1 hv
  have hrank := hdominates _ (Graph.mem_successors.1 (Graph.mem_flow.1 hedge).1)
  exact ⟨hiff.trans hrank, horder nestedOutward .sequential s' hbuilt' hsame hflow hs'⟩

end StructuredProcedure
end Recovery
