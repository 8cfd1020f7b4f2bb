import Recovery.Proofs.ControlFlow.Building
import Recovery.Proofs.ControlFlow.Dominance
import Recovery.Structure.NodeGraph
/-
  A node graph is the reached part of a control flow graph.

  `Represents` says what is used of `NodeGraph.ofGraph?`: the nodes stand for
  the blocks the entry reaches, and the edges between nodes are the edges between
  their blocks, each kept in both directions. A block is looked up as the first
  node that stands for it; every node on a walk from the entry is found so
  (`nodeOf?_blockOf`). Hence walks over nodes are walks over blocks, and a block
  that dominates another is represented by a node that guards the other's
  (`guards_node`).

  In a graph as graph operations build it no block stands twice, and then nodes
  and reached blocks are the same thing (`Depicts`): each node is found by its
  block, successors agree as lists, and walks may be taken on either side
  (`walk_nodes`, `guards_iff`).
-/

namespace Recovery.NodeGraph
variable {G : NodeGraph}

/-- The block a node stands for. -/
def blockOf (G : NodeGraph) (v : G.Node) : BlockId := G.blocks.get v

/-- The node that stands for a block. -/
def nodeOf? (G : NodeGraph) (b : BlockId) : Option G.Node := G.blocks.finIdxOf? b

theorem blockOf_of_nodeOf? {b : BlockId} {v : G.Node} (h : G.nodeOf? b = some v) :
    G.blockOf v = b :=
  (List.finIdxOf?_eq_some_iff.1 h).1

theorem exists_nodeOf? {b : BlockId} (h : b ∈ G.blocks) : ∃ v, G.nodeOf? b = some v := by
  cases hv : G.nodeOf? b with
  | none => exact absurd h (List.finIdxOf?_eq_none_iff.1 hv)
  | some v => exact ⟨v, rfl⟩

/-! ## Branching -/

theorem isConditional_iff {v : G.Node} : G.isConditional v = true ↔ 2 ≤ (G.next v).length := by
  rw [isConditional, branches?]
  split
  · next h => simp [h]
  · next h =>
    rcases hnext : G.next v with _ | ⟨a, _ | ⟨b, rest⟩⟩
    · simp
    · simp
    · exact absurd hnext (h a b rest)

theorem exists_branches {v : G.Node} (h : 2 ≤ (G.next v).length) :
    ∃ taken fallen, G.branches? v = some (taken, fallen) ∧
      (G.next v)[0]? = some taken ∧ (G.next v)[1]? = some fallen := by
  rw [branches?]
  rcases hnext : G.next v with _ | ⟨taken, _ | ⟨fallen, rest⟩⟩
  · simp [hnext] at h
  · simp [hnext] at h
  · exact ⟨taken, fallen, rfl, rfl, rfl⟩

theorem branching_eq_twoWay_iff {v : G.Node} :
    G.branching v = .twoWay ↔ (G.next v).length = 2 := by
  rw [branching]
  rcases (G.next v).length with _ | _ | _ | _ <;> simp [Branching.ofCount]

theorem branching_eq_nWay_iff {v : G.Node} :
    G.branching v = .nWay ↔ 3 ≤ (G.next v).length := by
  rw [branching]
  rcases (G.next v).length with _ | _ | _ | _ <;> simp [Branching.ofCount]

/-! ## Nodes and blocks -/

/-- `Represents g G`: the nodes of `G` are the reached blocks of `g`. -/
structure Represents (g : Graph) (G : NodeGraph) : Prop where
  entry_added : g.hasBlock g.entry = true
  mem_blocks : ∀ b, b ∈ G.blocks ↔ g.Reached b
  entry : G.nodeOf? g.entry = some G.entry
  next : ∀ u v, v ∈ G.next u ↔ ∃ b ∈ g.successors (G.blockOf u), G.nodeOf? b = some v
  previous : ∀ u v, v ∈ G.previous u ↔ ∃ b ∈ g.predecessors (G.blockOf u), G.nodeOf? b = some v

theorem mem_reachedBlocks {g : Graph} (h : g.hasBlock g.entry = true) (b : BlockId) :
    b ∈ g.blockIds.filter (g.reachable.contains ·) ↔ g.Reached b := by
  rw [List.mem_filter, List.contains_iff_mem, Graph.mem_reachable h]
  apply and_iff_right_of_imp
  intro hb
  exact Graph.mem_blockIds_of_reaches hb (Graph.hasBlock_iff.1 h)

/-- A graph has a node graph when its entry was added, and the node graph
represents it. -/
theorem exists_represents {g : Graph} (h : g.hasBlock g.entry = true) :
    ∃ G, ofGraph? g = some G ∧ Represents g G := by
  have hentry := (mem_reachedBlocks h g.entry).2 (.refl _)
  rw [ofGraph?, ofBlocks?]
  cases hv : (g.blockIds.filter (g.reachable.contains ·)).finIdxOf? g.entry with
  | none => exact absurd hentry (List.finIdxOf?_eq_none_iff.1 hv)
  | some entry =>
    refine ⟨_, rfl, h, mem_reachedBlocks h, hv, fun u v => ?_, fun u v => ?_⟩
    · simp only [NodeGraph.next, get_ofFn, List.mem_filterMap]
      rfl
    · simp only [NodeGraph.previous, get_ofFn, List.mem_filterMap]
      rfl

theorem ofGraph?_eq_none {g : Graph} (h : g.hasBlock g.entry = false) : ofGraph? g = none := by
  have hmissing : g.entry ∉ g.blockIds.filter (g.reachable.contains ·) := by
    rw [List.mem_filter, ← Graph.hasBlock_iff, h]
    exact fun hmem => Bool.false_ne_true hmem.1
  rw [ofGraph?, ofBlocks?, List.finIdxOf?_eq_none_iff.2 hmissing]

namespace Represents
variable {g : Graph} {u v w : G.Node} {vs : List G.Node} {a b : BlockId}

theorem flow_of_next (R : Represents g G) (h : Along G.next u v) :
    Along g.flow (G.blockOf u) (G.blockOf v) := by
  obtain ⟨b, hb, hv⟩ := (R.next u v).1 h
  have hreached := (R.mem_blocks _).1 (List.getElem_mem v.isLt)
  rw [← blockOf_of_nodeOf? hv] at hb
  refine Graph.mem_flow.2 ⟨hb, ?_⟩
  exact Graph.mem_blockIds_of_reaches hreached (Graph.hasBlock_iff.1 R.entry_added)

theorem walk_blocks (R : Represents g G) (h : Walk (Along G.next) u v vs) :
    Walk (Along g.flow) (G.blockOf u) (G.blockOf v) (vs.map G.blockOf) :=
  h.map G.blockOf fun _ _ => R.flow_of_next

/-- Every node on a walk from the entry is the one that is found for its block. -/
theorem nodeOf?_blockOf (R : Represents g G) (h : Walk (Along G.next) G.entry v vs)
    (hw : w ∈ vs) : G.nodeOf? (G.blockOf w) = some w := by
  have hfound (x y : G.Node) (e : Along G.next x y) : G.nodeOf? (G.blockOf y) = some y := by
    obtain ⟨b, -, hy⟩ := (R.next x y).1 e
    rw [blockOf_of_nodeOf? hy]
    exact hy
  have hstart : G.nodeOf? (G.blockOf G.entry) = some G.entry := by
    rw [blockOf_of_nodeOf? R.entry]
    exact R.entry
  generalize G.entry = start at h hstart
  induction h with
  | stop x =>
    rw [List.mem_singleton.1 hw]
    exact hstart
  | step e _ ih =>
    rcases List.mem_cons.1 hw with rfl | hw
    · exact hstart
    · exact ih hw (hfound _ _ e)

theorem reaches_node (R : Represents g G) (hb : g.Reached b) (hv : G.nodeOf? b = some v) :
    Reaches (Along G.next) G.entry v := by
  obtain ⟨bs, hw⟩ := hb
  have hstep (x : G.Node) (c : BlockId) (hc : Along g.flow (G.blockOf x) c) :
      ∃ y, G.blockOf y = c ∧ Along G.next x y := by
    have hx : g.Reached (G.blockOf x) := (R.mem_blocks _).1 (List.getElem_mem _)
    obtain ⟨y, hy⟩ := exists_nodeOf? ((R.mem_blocks c).2 (hx.snoc hc))
    exact ⟨y, blockOf_of_nodeOf? hy, (R.next x y).2 ⟨c, (Graph.mem_flow.1 hc).1, hy⟩⟩
  obtain ⟨y, vs, hy, -, hvs⟩ := hw.lift hstep G.entry (blockOf_of_nodeOf? R.entry)
  have hfound := R.nodeOf?_blockOf hvs hvs.end_mem
  rw [hy, hv] at hfound
  exact ⟨vs, Option.some.inj hfound ▸ hvs⟩

/-- A block that dominates another is represented by a node that guards the other's. -/
theorem guards_node (R : Represents g G) (hab : g.Dominates a b) (hu : G.nodeOf? a = some u)
    (hv : G.nodeOf? b = some v) : Guards (Along G.next) G.entry u v := by
  intro vs hw
  have hblocks := R.walk_blocks hw
  rw [blockOf_of_nodeOf? R.entry, blockOf_of_nodeOf? hv] at hblocks
  obtain ⟨w, hwvs, hwa⟩ := List.mem_map.1 (hab _ hblocks)
  have hfound := R.nodeOf?_blockOf hw hwvs
  rw [hwa, hu] at hfound
  obtain rfl := Option.some.inj hfound
  exact hwvs

end Represents

/-- `Depicts g G`: moreover the nodes are different blocks, with their successors
in the same order, and the exit is the node of the exit block. -/
structure Depicts (g : Graph) (G : NodeGraph) : Prop extends Represents g G where
  nodup : G.blocks.Nodup
  exit : G.exit = G.nodeOf? g.exit
  map_next : ∀ u, (G.next u).map G.blockOf = g.flow (G.blockOf u)

/-- What is looked up among some blocks, of a list of numbers, are those among them. -/
theorem map_filterMap_finIdxOf? (blocks bs : List BlockId) :
    (bs.filterMap blocks.finIdxOf?).map (fun v => blocks.get v) =
      bs.filter (blocks.contains ·) := by
  induction bs with
  | nil => rfl
  | cons b bs ih =>
    cases hv : blocks.finIdxOf? b with
    | none =>
      have hb : b ∉ blocks := List.finIdxOf?_eq_none_iff.1 hv
      rw [List.filterMap_cons_none hv, ih, List.filter_cons_of_neg]
      rw [List.contains_iff_mem]
      exact hb
    | some v =>
      have hb : blocks.get v = b := (List.finIdxOf?_eq_some_iff.1 hv).1
      rw [List.filterMap_cons_some hv, List.map_cons, ih, hb, List.filter_cons_of_pos]
      rw [List.contains_iff_mem, ← hb]
      exact List.get_mem blocks v

theorem exists_depicts {g : Graph} (hbuilt : g.Built) (h : g.hasBlock g.entry = true) :
    ∃ G, ofGraph? g = some G ∧ Depicts g G := by
  obtain ⟨G, hG, R⟩ := exists_represents h
  refine ⟨G, hG, ?_⟩
  rw [ofGraph?, ofBlocks?] at hG
  split at hG
  · cases hG
  · cases hG
    refine ⟨R, hbuilt.nodup_blockIds.filter _, rfl, fun u => ?_⟩
    rw [next, get_ofFn]
    refine (map_filterMap_finIdxOf? _ _).trans (List.filter_congr fun b hb => ?_)
    -- a successor of a reached block that was added is reached itself
    rw [Bool.eq_iff_iff, List.contains_iff_mem, Graph.hasBlock_iff, mem_reachedBlocks h]
    constructor
    · intro hreach
      exact Graph.mem_blockIds_of_reaches hreach (Graph.hasBlock_iff.1 h)
    · intro hadded
      have hu := (mem_reachedBlocks h _).1 (List.get_mem _ u)
      exact hu.snoc (Graph.mem_flow.2 ⟨hb, hadded⟩)

namespace Depicts
variable {g : Graph} {u v w : G.Node} {vs : List G.Node} {bs : List BlockId} {b : BlockId}

theorem blockOf_injective (D : Depicts g G) (h : G.blockOf u = G.blockOf v) : u = v :=
  Fin.ext ((List.getElem_inj D.nodup).1 h)

theorem nodeOf?_eq_some_iff (D : Depicts g G) : G.nodeOf? b = some v ↔ G.blockOf v = b := by
  constructor
  · exact blockOf_of_nodeOf?
  · intro hb
    have hmem : b ∈ G.blocks := hb ▸ (List.get_mem G.blocks v : G.blockOf v ∈ G.blocks)
    obtain ⟨w, hw⟩ := exists_nodeOf? hmem
    rw [hw, D.blockOf_injective ((blockOf_of_nodeOf? hw).trans hb.symm)]

theorem reached_blockOf (D : Depicts g G) (v : G.Node) : g.Reached (G.blockOf v) :=
  (D.mem_blocks _).1 (List.get_mem G.blocks v)

theorem exists_node (D : Depicts g G) (h : g.Reached b) : ∃ v, G.blockOf v = b := by
  obtain ⟨v, hv⟩ := exists_nodeOf? ((D.mem_blocks b).2 h)
  exact ⟨v, blockOf_of_nodeOf? hv⟩

theorem blockOf_entry (D : Depicts g G) : G.blockOf G.entry = g.entry :=
  blockOf_of_nodeOf? D.entry

theorem exit_eq_some_iff (D : Depicts g G) : G.exit = some v ↔ G.blockOf v = g.exit := by
  rw [D.exit, D.nodeOf?_eq_some_iff]

theorem mem_next_iff (D : Depicts g G) : v ∈ G.next u ↔ G.blockOf v ∈ g.flow (G.blockOf u) := by
  rw [← D.map_next]
  constructor
  · exact List.mem_map_of_mem
  · intro h
    obtain ⟨w, hw, hwv⟩ := List.mem_map.1 h
    rwa [← D.blockOf_injective hwv]

theorem mem_previous_iff (D : Depicts g G) : u ∈ G.previous v ↔ v ∈ G.next u := by
  rw [D.previous, D.next]
  constructor
  · intro ⟨b, hb, hu⟩
    refine ⟨G.blockOf v, ?_, D.nodeOf?_eq_some_iff.2 rfl⟩
    rw [Graph.mem_successors_iff, blockOf_of_nodeOf? hu]
    exact hb
  · intro ⟨b, hb, hv⟩
    refine ⟨G.blockOf u, ?_, D.nodeOf?_eq_some_iff.2 rfl⟩
    rw [← Graph.mem_successors_iff, blockOf_of_nodeOf? hv]
    exact hb

theorem size_le (D : Depicts g G) : G.size ≤ g.blockIds.length := by
  refine (List.subperm_of_subset D.nodup fun b hb => ?_).length_le
  exact Graph.mem_blockIds_of_reaches ((D.mem_blocks b).1 hb) (Graph.hasBlock_iff.1 D.entry_added)

theorem walk_nodes (D : Depicts g G) (h : Walk (Along g.flow) (G.blockOf u) b bs) :
    ∃ v vs, G.blockOf v = b ∧ vs.map G.blockOf = bs ∧ Walk (Along G.next) u v vs := by
  refine h.lift (fun x c hc => ?_) u rfl
  obtain ⟨y, rfl⟩ := D.exists_node ((D.reached_blockOf x).snoc hc)
  exact ⟨y, rfl, D.mem_next_iff.2 hc⟩

theorem reaches_iff (D : Depicts g G) :
    Reaches (Along G.next) u v ↔ Reaches (Along g.flow) (G.blockOf u) (G.blockOf v) := by
  constructor
  · intro ⟨vs, hw⟩
    exact ⟨_, D.walk_blocks hw⟩
  · intro ⟨bs, hw⟩
    obtain ⟨w, vs, hw, -, hvs⟩ := D.walk_nodes hw
    exact ⟨vs, D.blockOf_injective hw ▸ hvs⟩

theorem reaches_entry (D : Depicts g G) (v : G.Node) : Reaches (Along G.next) G.entry v := by
  rw [D.reaches_iff, D.blockOf_entry]
  exact D.reached_blockOf v

theorem guards_iff (D : Depicts g G) :
    Guards (Along G.next) u w v ↔
      Guards (Along g.flow) (G.blockOf u) (G.blockOf w) (G.blockOf v) := by
  constructor
  · intro h bs hw
    obtain ⟨x, vs, hx, rfl, hvs⟩ := D.walk_nodes hw
    exact List.mem_map_of_mem (h vs (D.blockOf_injective hx ▸ hvs))
  · intro h vs hw
    obtain ⟨x, hx, hxw⟩ := List.mem_map.1 (h _ (D.walk_blocks hw))
    rwa [← D.blockOf_injective hxw]

theorem bypasses_iff (D : Depicts g G) :
    Bypasses (Along G.next) w u v ↔
      Bypasses (Along g.flow) (G.blockOf w) (G.blockOf u) (G.blockOf v) := by
  rw [bypasses_iff_not_guards, bypasses_iff_not_guards, D.guards_iff]

theorem acyclic (D : Depicts g G)
    (h : ∀ b c, g.Reached b → c ∈ g.flow b → ¬ Reaches (Along g.flow) c b) :
    Acyclic (Along G.next) :=
  fun u _ e hreach => h _ _ (D.reached_blockOf u) (D.mem_next_iff.1 e) (D.reaches_iff.1 hreach)

end Depicts
end Recovery.NodeGraph
