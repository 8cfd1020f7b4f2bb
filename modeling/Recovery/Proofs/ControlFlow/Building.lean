import Recovery.ControlFlow.EdgeMaps
/-
  Graphs as they are built.

  `Built` graphs start with no block and grow by adding blocks and edges; block
  contents and both ends may be changed at any time. Adding a block whose number
  was added before replaces that block, so no number stands twice in the list
  (`Built.nodup_blockIds`).

  `Stored` graphs are built together with the maps that hold their edges in memory, as
  every built graph can be (`Built.exists_stored`). Each map holds what the list of
  edges tells on its side (`Stored.reads`), so both hold an edge as often as it was
  added (`count_successors`, `count_predecessors`).
-/

namespace Recovery.Neighbours

/-- A block that is made sure of keeps its list, and no other block sees it. -/
theorem get?_touch (t : Neighbours) (b c : BlockId) :
    (t.touch b).get? c = if b = c then some (t.of c) else t.get? c := by
  unfold touch of
  split
  · next hb =>
    split
    · next hbc =>
      obtain ⟨list, hlist⟩ := Option.isSome_iff_exists.1 hb
      rw [← hbc, hlist, Option.getD_some]
    · rfl
  · next hb =>
    rw [Table.get?_put]
    split
    · next hbc =>
      have hnone : t.get? c = none := by simpa [Table.contains, hbc] using hb
      rw [hnone, Option.getD_none]
    · rfl

theorem of_touch (t : Neighbours) (b c : BlockId) : (t.touch b).of c = t.of c := by
  rw [of, get?_touch]
  split
  · rfl
  · rfl

theorem of_push (t : Neighbours) (b c d : BlockId) :
    (t.push b c).of d = if b = d then t.of d ++ [c] else t.of d := by
  rw [of, push, Table.get?_put]
  split
  · next hbd => rw [hbd, Option.getD_some]
  · rfl

end Recovery.Neighbours

namespace Recovery.Graph

/-- The graphs that graph operations make. -/
inductive Built : Graph → Prop
  | empty (entry exit : BlockId) : Built (.empty entry exit)
  | addBlock {g : Graph} (b : Block) : Built g → Built (g.addBlock b)
  | addEdge {g : Graph} (source target : BlockId) : Built g → Built (g.addEdge source target)
  | mapBlocks {g : Graph} {change : Block → Block} :
      (∀ b, (change b).id = b.id) → Built g → Built (g.mapBlocks change)
  | setEnds {g : Graph} (entry exit : BlockId) :
      Built g → Built { g with entry := entry, exit := exit }

theorem blockIds_mapBlocks {g : Graph} {change : Block → Block} (h : ∀ b, (change b).id = b.id) :
    (g.mapBlocks change).blockIds = g.blockIds := by
  rw [blockIds, mapBlocks, List.map_map]
  exact List.map_congr_left fun b _ => h b

theorem blockIds_addBlock (g : Graph) (b : Block) :
    (g.addBlock b).blockIds = if g.hasBlock b.id then g.blockIds else g.blockIds ++ [b.id] := by
  rw [addBlock, blockIds]
  split
  · rw [List.map_map]
    refine List.map_congr_left fun x _ => ?_
    rw [Function.comp_apply]
    split
    · next hx => exact (beq_iff_eq.1 hx).symm
    · rfl
  · rw [List.map_append]
    rfl

theorem mem_blockIds_addBlock {g : Graph} {b : Block} {c : BlockId} :
    c ∈ (g.addBlock b).blockIds ↔ c ∈ g.blockIds ∨ c = b.id := by
  rw [blockIds_addBlock]
  split
  · next hb =>
    have hmem : b.id ∈ g.blockIds := List.contains_iff_mem.1 hb
    exact ⟨Or.inl, Or.rec id fun hc => hc ▸ hmem⟩
  · rw [List.mem_append, List.mem_singleton]

theorem Built.nodup_blockIds {g : Graph} (h : g.Built) : g.blockIds.Nodup := by
  induction h with
  | empty => exact List.nodup_nil
  | @addBlock g b _ ih =>
    rw [blockIds_addBlock]
    split
    · exact ih
    · next hb =>
      rw [List.nodup_append]
      refine ⟨ih, List.pairwise_singleton _ b.id, fun x hx y hy hxy => hb ?_⟩
      rw [hasBlock, List.contains_iff_mem, ← List.mem_singleton.1 hy, ← hxy]
      exact hx
  | addEdge _ _ _ ih => exact ih
  | mapBlocks hid _ ih =>
    rw [blockIds_mapBlocks hid]
    exact ih
  | setEnds _ _ _ ih => exact ih

/-! ## Edges in memory -/

section
variable {g : Graph} {m : EdgeMaps}

theorem successors_addEdge (source target b : BlockId) :
    (g.addEdge source target).successors b =
      if source = b then g.successors b ++ [target] else g.successors b := by
  rw [successors, addEdge, List.filter_append, List.map_append]
  split
  · next h => simp [successors, h]
  · next h => simp [successors, h]

theorem predecessors_addEdge (source target b : BlockId) :
    (g.addEdge source target).predecessors b =
      if target = b then g.predecessors b ++ [source] else g.predecessors b := by
  rw [predecessors, addEdge, List.filter_append, List.map_append]
  split
  · next h => simp [predecessors, h]
  · next h => simp [predecessors, h]

theorem count_successors (g : Graph) (a b : BlockId) :
    (g.successors a).count b = g.edges.count (a, b) := by
  rw [successors, List.count, List.countP_map, List.countP_filter, List.count]
  refine List.countP_congr fun e _ => ?_
  simp [Prod.ext_iff, and_comm]

theorem count_predecessors (g : Graph) (a b : BlockId) :
    (g.predecessors b).count a = g.edges.count (a, b) := by
  rw [predecessors, List.count, List.countP_map, List.countP_filter, List.count]
  refine List.countP_congr fun e _ => ?_
  simp [Prod.ext_iff]

/-- Graphs as graph operations make them, with the maps of their edges. -/
inductive Stored : Graph → EdgeMaps → Prop
  | empty (entry exit : BlockId) : Stored (.empty entry exit) .empty
  | addBlock {g : Graph} {m : EdgeMaps} (b : Block) :
      Stored g m → Stored (g.addBlock b) (m.addBlock b.id)
  | addEdge {g : Graph} {m : EdgeMaps} (source target : BlockId) :
      Stored g m → Stored (g.addEdge source target) (m.addEdge source target)
  | mapBlocks {g : Graph} {m : EdgeMaps} {change : Block → Block} :
      (∀ b, (change b).id = b.id) → Stored g m → Stored (g.mapBlocks change) m
  | setEnds {g : Graph} {m : EdgeMaps} (entry exit : BlockId) :
      Stored g m → Stored { g with entry := entry, exit := exit } m

theorem Stored.built (h : g.Stored m) : g.Built := by
  induction h with
  | empty entry exit => exact .empty entry exit
  | addBlock b _ ih => exact .addBlock b ih
  | addEdge source target _ ih => exact .addEdge source target ih
  | mapBlocks hid _ ih => exact .mapBlocks hid ih
  | setEnds entry exit _ ih => exact .setEnds entry exit ih

theorem Built.exists_stored (h : g.Built) : ∃ m, g.Stored m := by
  induction h with
  | empty entry exit => exact ⟨_, .empty entry exit⟩
  | addBlock b _ ih =>
    obtain ⟨m, hm⟩ := ih
    exact ⟨_, .addBlock b hm⟩
  | addEdge source target _ ih =>
    obtain ⟨m, hm⟩ := ih
    exact ⟨_, .addEdge source target hm⟩
  | mapBlocks hid _ ih =>
    obtain ⟨m, hm⟩ := ih
    exact ⟨_, .mapBlocks hid hm⟩
  | setEnds entry exit _ ih =>
    obtain ⟨m, hm⟩ := ih
    exact ⟨_, .setEnds entry exit hm⟩

/-- The maps hold what the edges tell. -/
theorem Stored.reads (h : g.Stored m) (b : BlockId) :
    m.successors.of b = g.successors b ∧ m.predecessors.of b = g.predecessors b := by
  induction h with
  | empty => exact ⟨rfl, rfl⟩
  | addBlock c _ ih =>
    exact ⟨(Neighbours.of_touch _ _ _).trans ih.1, (Neighbours.of_touch _ _ _).trans ih.2⟩
  | addEdge source target _ ih =>
    rw [successors_addEdge, predecessors_addEdge, ← ih.1, ← ih.2]
    exact ⟨Neighbours.of_push _ _ _ _, Neighbours.of_push _ _ _ _⟩
  | mapBlocks _ _ ih => exact ih
  | setEnds _ _ _ ih => exact ih

end
end Recovery.Graph
