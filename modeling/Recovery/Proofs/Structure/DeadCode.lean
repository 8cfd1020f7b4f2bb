import Recovery.Proofs.ControlFlow.Padding
import Recovery.Proofs.Structure.Numbering
/-
  The node graph is the reached part of a graph, and nothing else of the graph counts.

    1. `ShowsReached` says what the node graph shows, against the maps in which edges are
       kept in memory: a node for each block the entry reaches, in the order of the block
       list, told its place there, and its edges on either side. An edge is seen from
       both of its ends, as often from one as from the other (`Stored.showsReached`).
    2. Dead code is not seen. A graph with dead code added has the same node graph
       (`ofGraph?_padded`), and all that structuring computes it computes from there.
       Only the places in the block list are read off the graph itself, so only they can
       differ (`StructuredProcedure.reached_part_alone`).
-/

namespace Recovery

/-- What the node graph of a procedure shows of a graph that is kept in some maps. -/
structure NumberedProcedure.ShowsReached (p : NumberedProcedure) (g : Graph) (maps : EdgeMaps) :
    Prop where
  /-- The nodes are the reached blocks, each once, in block order. -/
  sublist : p.graph.blocks.Sublist g.blockIds
  nodup : p.graph.blocks.Nodup
  mem_blocks : ∀ b, b ∈ p.graph.blocks ↔ g.Reached b
  /-- A node is told where its block stands, counted from one, and how it is called. -/
  position : ∀ n, ∃ i, p.positions.get n = i + 1 ∧ g.blockIds[i]? = some (p.graph.blockOf n)
  name : ∀ n, ∃ x, g.block? (p.graph.blockOf n) = some x ∧ p.graph.name n = x.name
  /-- Its successors are those of its block that were added, as often and in the order
  they were declared. -/
  next : ∀ n, (p.graph.next n).map p.graph.blockOf =
    (maps.successors.of (p.graph.blockOf n)).filter g.hasBlock
  /-- Its predecessors are those of its block that are reached, in the order the edges were
  added. -/
  previous : ∀ n, (p.graph.previous n).map p.graph.blockOf =
    (maps.predecessors.of (p.graph.blockOf n)).filter (p.graph.blocks.contains ·)
  /-- Both ends see an edge equally often. -/
  count : ∀ m n, (p.graph.next m).count n = (p.graph.previous n).count m

namespace NodeGraph
variable {g g' : Graph} {G : NodeGraph}

/-! ## The part that is shown -/

theorem read_of_ofGraph? (h : ofGraph? g = some G) :
    G.blocks = g.blockIds.filter (g.reachable.contains ·) ∧
      (∀ v, G.name v = ((g.block? (G.blockOf v)).map Block.name).getD "") ∧
      ∀ v, G.previous v = (g.predecessors (G.blockOf v)).filterMap G.blocks.finIdxOf? := by
  rw [ofGraph?, ofBlocks?] at h
  split at h
  · cases h
  · cases h
    exact ⟨rfl, get_ofFn _, get_ofFn _⟩

theorem blocks_sublist (h : ofGraph? g = some G) : G.blocks.Sublist g.blockIds := by
  rw [(read_of_ofGraph? h).1]
  exact List.filter_sublist

theorem blockOf_mem (h : ofGraph? g = some G) (v : G.Node) : G.blockOf v ∈ g.blockIds :=
  (blocks_sublist h).mem (List.get_mem G.blocks v)

theorem exists_block (h : ofGraph? g = some G) (v : G.Node) :
    ∃ x, g.block? (G.blockOf v) = some x ∧ G.name v = x.name := by
  obtain ⟨x, hx, hxv⟩ := List.mem_map.1 (blockOf_mem h v)
  have hname := (read_of_ofGraph? h).2.1 v
  cases hfind : g.block? (G.blockOf v) with
  | none => exact absurd (beq_iff_eq.2 hxv) (List.find?_eq_none.1 hfind x hx)
  | some y =>
    rw [hfind] at hname
    exact ⟨y, rfl, hname⟩

theorem exists_position (h : ofGraph? g = some G) (v : G.Node) :
    ∃ i, (G.positions g).get v = i + 1 ∧ g.blockIds[i]? = some (G.blockOf v) :=
  ⟨g.blockIds.idxOf (G.blockOf v), get_ofFn _ v, List.getElem?_idxOf (blockOf_mem h v)⟩

theorem map_previous (h : ofGraph? g = some G) (v : G.Node) :
    (G.previous v).map G.blockOf =
      (g.predecessors (G.blockOf v)).filter (G.blocks.contains ·) := by
  rw [(read_of_ofGraph? h).2.2]
  exact map_filterMap_finIdxOf? _ _

theorem count_next (D : Depicts g G) (h : ofGraph? g = some G) (u v : G.Node) :
    (G.next u).count v = (G.previous v).count u := by
  have hinj : Function.Injective G.blockOf := fun _ _ => D.blockOf_injective
  have hadded : g.hasBlock (G.blockOf v) = true := Graph.hasBlock_iff.2 (blockOf_mem h v)
  have hmem : G.blocks.contains (G.blockOf u) = true :=
    List.contains_iff_mem.2 (List.get_mem G.blocks u)
  calc (G.next u).count v
    _ = (g.flow (G.blockOf u)).count (G.blockOf v) := by
      rw [← D.map_next, List.count_map_of_injective _ _ hinj]
    _ = (g.successors (G.blockOf u)).count (G.blockOf v) := List.count_filter hadded
    _ = (g.predecessors (G.blockOf v)).count (G.blockOf u) := by
      rw [Graph.count_successors, Graph.count_predecessors]
    _ = ((G.previous v).map G.blockOf).count (G.blockOf u) := by
      rw [map_previous h, List.count_filter hmem]
    _ = (G.previous v).count u := List.count_map_of_injective _ _ hinj _

/-! ## The part that is not -/

/-- Node graphs over live blocks are read off the live parts alone. -/
theorem ofBlocks?_eq {live : BlockId → Bool} (S : Graph.SameOn live g g') {blocks : List BlockId}
    (hblocks : ∀ b ∈ blocks, live b = true) : ofBlocks? g' blocks = ofBlocks? g blocks := by
  have hlive (v : Fin blocks.length) : live (blocks.get v) = true :=
    hblocks _ (List.get_mem blocks v)
  have hpredecessors (g : Graph) (b : BlockId) : (g.predecessors b).filterMap blocks.finIdxOf? =
      ((g.predecessors b).filter live).filterMap blocks.finIdxOf? := by
    rw [List.filterMap_filter]
    refine List.filterMap_congr fun c _ => ?_
    split
    · rfl
    · next hc => exact List.finIdxOf?_eq_none_iff.2 fun hmem => hc (hblocks c hmem)
  rw [ofBlocks?, ofBlocks?, S.entry, S.exit]
  cases blocks.finIdxOf? g.entry with
  | none => rfl
  | some entry =>
    simp only [S.block?_eq (hlive _), S.successors_eq (hlive _), hpredecessors g',
      S.filter_predecessors, ← hpredecessors g]

/-- Dead code is not in the node graph. -/
theorem ofGraph?_padded (hpadded : Graph.Padded g'.Reached g g')
    (hentry : g.hasBlock g.entry = true) : ofGraph? g' = ofGraph? g := by
  -- whatever counts as live, the entry is still there
  have S₀ : Graph.SameOn (fun _ => false) g g' := .of_padded hpadded fun _ h => nomatch h
  have hentry' : g'.hasBlock g'.entry = true := by
    rw [S₀.entry, Graph.hasBlock_iff]
    exact S₀.added _ (Graph.hasBlock_iff.1 hentry)
  have hlive (b : BlockId) : g'.reachable.contains b = true ↔ g'.Reached b :=
    List.contains_iff_mem.trans (Graph.mem_reachable hentry' b)
  have S : Graph.SameOn (g'.reachable.contains ·) g g' :=
    .of_padded hpadded fun b => (hlive b).1
  have hreachable : (g.reachable.contains ·) = (g'.reachable.contains ·) := by
    funext b
    rw [Bool.eq_iff_iff, List.contains_iff_mem, Graph.mem_reachable hentry, hlive]
    exact (S.reached_iff hlive).symm
  rw [ofGraph?, ofGraph?, hreachable, S.filter_blockIds]
  exact ofBlocks?_eq S fun b hb => (List.mem_filter.1 hb).2

end NodeGraph

theorem Graph.Stored.showsReached {q : Procedure} {limit : Nat} {p : NumberedProcedure}
    {maps : EdgeMaps} (h : q.graph.Stored maps) (hbuild : NumberedProcedure.build q limit = .ok p) :
    p.ShowsReached q.graph maps := by
  obtain ⟨G, hG, D, rfl⟩ := NumberedProcedure.exists_of_build h.built hbuild
  exact {
    sublist := NodeGraph.blocks_sublist hG
    nodup := D.nodup
    mem_blocks := D.mem_blocks
    position := NodeGraph.exists_position hG
    name := NodeGraph.exists_block hG
    next := fun n => by
      rw [(h.reads _).1]
      exact D.map_next n
    previous := fun n => by
      rw [(h.reads _).2]
      exact NodeGraph.map_previous hG n
    count := NodeGraph.count_next D hG }

namespace StructuredProcedure

/-- **Dead code has no influence.** A procedure with an entry block shows the reached part of
its graph, and with dead code added to the graph nothing but the places of its nodes in
the block list can differ. -/
theorem reached_part_alone (q : Procedure) (settings : Settings) (maps : EdgeMaps)
    (hstored : q.graph.Stored maps) (hentry : q.graph.hasBlock q.graph.entry = true) :
    ∃ s, ofProcedure q settings = .ok s ∧ s.ShowsReached q.graph maps ∧
      ∀ g', Graph.Padded g'.Reached q.graph g' →
        ∃ positions, ofProcedure { q with graph := g' } settings = .ok { s with positions } := by
  obtain ⟨p, hbuild, -⟩ :=
    NumberedProcedure.exists_build q settings.walkLimit hstored.built hentry
  refine ⟨p.classify, ofProcedure_of_build hbuild, hstored.showsReached hbuild, fun g' hg' => ?_⟩
  obtain ⟨G, hG, -, rfl⟩ := NumberedProcedure.exists_of_build hstored.built hbuild
  refine ⟨G.positions g', ?_⟩
  rw [ofProcedure, NumberedProcedure.build, NodeGraph.ofGraph?_padded hg' hentry, hG]
  rfl

/-- A loop of two blocks, one of which also leads to a block that was never added. -/
def dangling : Procedure :=
  .ofGraph 0 "loop" (.empty 4)
    (((((Graph.empty 0 2).addBlock (.empty 0 "head")).addEdge 0 1).addEdge 0 5).addBlock
      (.empty 1 "body") |>.addEdge 1 0)

theorem built_dangling : dangling.graph.Built :=
  .addEdge _ _ (.addBlock _ (.addEdge _ _ (.addEdge _ _ (.addBlock _ (.empty 0 2)))))

/-- The same loop, built among blocks that lead into it and are never entered. -/
def littered : Graph :=
  ((((((((Graph.empty 0 2).addBlock (.empty 7 "dead")).addEdge 7 1).addBlock
    (.empty 0 "head")).addEdge 0 1).addEdge 8 0).addEdge 0 5).addBlock (.empty 1 "body") |>.addBlock
      (.empty 8 "lost") |>.addEdge 1 0).addEdge 8 7

/-- The loop is structured in the same way among the dead blocks. -/
theorem reached_part_alone_dangling :
    dangling.graph.hasBlock dangling.graph.entry = true ∧
      Graph.Padded littered.Reached dangling.graph littered ∧
      ∃ maps s positions, dangling.graph.Stored maps ∧
        ofProcedure dangling .sequential = .ok s ∧ s.ShowsReached dangling.graph maps ∧
        ofProcedure { dangling with graph := littered } .sequential = .ok { s with positions } := by
  have hentry : dangling.graph.hasBlock dangling.graph.entry = true := by decide
  have hdead (b : BlockId) (hb : b ∉ littered.reachable) : ¬ littered.Reached b :=
    mt (Graph.mem_reachable (by decide) b).2 hb
  have h7 : ¬ littered.Reached 7 := hdead 7 (by decide +kernel)
  have h8 : ¬ littered.Reached 8 := hdead 8 (by decide +kernel)
  have hpadded : Graph.Padded littered.Reached dangling.graph littered :=
    .deadEdge 8 7 h8 (.addEdge 1 0 (.deadBlock _ h8 (.addBlock _ (.addEdge 0 5
      (.deadEdge 8 0 h8 (.addEdge 0 1 (.addBlock _ (.deadEdge 7 1 h7 (.deadBlock _ h7
        (.empty 0 2))))))))))
  obtain ⟨maps, hstored⟩ := built_dangling.exists_stored
  obtain ⟨s, hs, hshows, hsame⟩ := reached_part_alone dangling .sequential maps hstored hentry
  obtain ⟨positions, hpositions⟩ := hsame littered hpadded
  exact ⟨hentry, hpadded, maps, s, positions, hstored, hs, hshows, hpositions⟩

end StructuredProcedure
end Recovery
