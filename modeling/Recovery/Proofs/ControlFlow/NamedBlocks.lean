import Mathlib.Data.List.Induction
import Recovery.ControlFlow.Construction
import Recovery.Proofs.ControlFlow.Building
/-
  The number of a named block.

  The next number of a graph is the one after the highest that the graph was given, as an
  end or as the number of a block (`Graph.NextFollows`), and every addition keeps it so.
  A named block is therefore a new one: it is appended, and no list of neighbours but its
  own is touched (`addNamedBlock_after`).

  Edges do not count. An edge to a number that was never added is kept under that number,
  and when the next number comes to it the edge leads to the new block. So the new block
  is apart from all others exactly when no edge has its number for an end; a block that
  the entry announced by an edge is not (`addNamedBlock_announced`).
-/

namespace Recovery

namespace Graph
variable {g : Graph}

/-- The numbers that a graph was given: those of its ends, and those of its blocks. -/
def given (g : Graph) : List BlockId := g.entry :: g.exit :: g.blockIds

theorem mem_given_addBlock {b : Block} {c : BlockId} :
    c ∈ (g.addBlock b).given ↔ c ∈ g.given ∨ c = b.id := by
  rw [given, given, List.mem_cons, List.mem_cons, mem_blockIds_addBlock, List.mem_cons,
    List.mem_cons, or_assoc, or_assoc]
  rfl

/-- The next number is the one after the highest given. -/
structure NextFollows (g : Graph) : Prop where
  above : ∀ b ∈ g.given, b < g.nextId
  next : ∃ b ∈ g.given, g.nextId = b + 1

theorem nextFollows_empty (entry exit : BlockId) : (empty entry exit).NextFollows where
  above b hb := by
    refine Nat.lt_succ_of_le ?_
    rcases List.mem_cons.1 hb with rfl | hb
    · exact Nat.le_max_left _ _
    · rw [List.mem_singleton.1 hb]
      exact Nat.le_max_right _ _
  next := by
    rcases Nat.le_total entry exit with h | h
    · exact ⟨exit, by simp [given, empty], congrArg (· + 1) (Nat.max_eq_right h)⟩
    · exact ⟨entry, by simp [given, empty], congrArg (· + 1) (Nat.max_eq_left h)⟩

theorem NextFollows.addBlock (h : g.NextFollows) (b : Block) : (g.addBlock b).NextFollows where
  above c hc := by
    rcases mem_given_addBlock.1 hc with hc | rfl
    · exact Nat.lt_of_lt_of_le (h.above c hc) (Nat.le_max_left _ _)
    · exact Nat.lt_of_succ_le (Nat.le_max_right _ _)
  next := by
    rcases Nat.le_total g.nextId (b.id + 1) with hle | hle
    · exact ⟨b.id, mem_given_addBlock.2 (Or.inr rfl), Nat.max_eq_right hle⟩
    · obtain ⟨c, hc, hnext⟩ := h.next
      exact ⟨c, mem_given_addBlock.2 (Or.inl hc), (Nat.max_eq_left hle).trans hnext⟩

theorem NextFollows.addEdge (h : g.NextFollows) (source target : BlockId) :
    (g.addEdge source target).NextFollows := ⟨h.above, h.next⟩

theorem isolated_iff {b : BlockId} : g.successors b = [] ∧ g.predecessors b = [] ↔
    ∀ a c, (a, c) ∈ g.edges → a ≠ b ∧ c ≠ b := by
  simp only [successors, predecessors, List.map_eq_nil_iff, List.filter_eq_nil_iff, beq_iff_eq,
    Prod.forall, forall_and, ne_eq]

end Graph

namespace StoredGraph
variable {s : StoredGraph} {entry exit : BlockId} {additions : List GraphAddition}

/-- What holds of a graph after some additions to an empty one. -/
structure Holds (entry exit : BlockId) (additions : List GraphAddition) (s : StoredGraph) :
    Prop where
  entry : s.graph.entry = entry
  exit : s.graph.exit = exit
  next : s.graph.NextFollows
  stored : s.graph.Stored s.maps
  edges : ∀ a b, (a, b) ∈ s.graph.edges ↔ .edge a b ∈ additions

theorem Holds.addBlock (h : Holds entry exit additions s) (b : Block) {x : GraphAddition}
    (hx : ∀ a c, .edge a c ≠ x) : Holds entry exit (additions ++ [x]) (s.addBlock b) where
  entry := h.entry
  exit := h.exit
  next := h.next.addBlock b
  stored := .addBlock b h.stored
  edges a c := by
    rw [List.mem_append, List.mem_singleton, or_iff_left (hx a c)]
    exact h.edges a c

theorem Holds.addEdge (h : Holds entry exit additions s) (source target : BlockId) :
    Holds entry exit (additions ++ [.edge source target]) (s.addEdge source target) where
  entry := h.entry
  exit := h.exit
  next := h.next.addEdge source target
  stored := .addEdge source target h.stored
  edges a b := by
    rw [List.mem_append, List.mem_singleton, ← h.edges]
    simp [StoredGraph.addEdge, Graph.addEdge]

theorem Holds.add (h : Holds entry exit additions s) (x : GraphAddition) :
    Holds entry exit (additions ++ [x]) (s.add x) := by
  cases x with
  | block b => exact h.addBlock b fun _ _ => nofun
  | named name => exact h.addBlock (.empty s.graph.nextId name) fun _ _ => nofun
  | edge source target => exact h.addEdge source target

theorem holds_after (entry exit : BlockId) (additions : List GraphAddition) :
    Holds entry exit additions ((empty entry exit).after additions) := by
  induction additions using List.reverseRecOn with
  | nil =>
    exact ⟨rfl, rfl, Graph.nextFollows_empty entry exit, .empty entry exit, fun a b => by
      simp [after, empty, Graph.empty]⟩
  | append_singleton additions x ih =>
    rw [after, List.foldl_append]
    exact ih.add x

theorem blocks_addNamedBlock (h : s.graph.nextId ∉ s.graph.blockIds) (name : String) :
    (s.addNamedBlock name).2.graph.blocks =
      s.graph.blocks ++ [.empty s.graph.nextId name] := by
  have hnew : ¬ s.graph.hasBlock s.graph.nextId = true := mt List.contains_iff_mem.1 h
  exact if_neg hnew

/-- **Named blocks.** After any additions the number answered for a named block is the one
after the highest number of an end or a block, so it is none of these. The block is appended,
and no list of neighbours changes but its own, which holds what edges were added before under
its number. It has no neighbour exactly when no such edge was. -/
theorem addNamedBlock_after (entry exit : BlockId) (additions : List GraphAddition)
    (name : String) :
    let s := (empty entry exit).after additions
    let id := (s.addNamedBlock name).1
    let s' := (s.addNamedBlock name).2
    (∀ b ∈ entry :: exit :: s.graph.blockIds, b < id) ∧
      (∃ b ∈ entry :: exit :: s.graph.blockIds, id = b + 1) ∧
      s'.graph.blocks = s.graph.blocks ++ [.empty id name] ∧
      (∀ b, s'.maps.successors.get? b =
          if id = b then some (s.graph.successors b) else s.maps.successors.get? b) ∧
      (∀ b, s'.maps.predecessors.get? b =
          if id = b then some (s.graph.predecessors b) else s.maps.predecessors.get? b) ∧
      (s'.maps.successors.of id = [] ∧ s'.maps.predecessors.of id = [] ↔
        ∀ a b, .edge a b ∈ additions → a ≠ id ∧ b ≠ id) := by
  intro s id s'
  have h : Holds entry exit additions s := holds_after entry exit additions
  have hgiven : entry :: exit :: s.graph.blockIds = s.graph.given := by
    rw [Graph.given, h.entry, h.exit]
  have hnew : id ∉ s.graph.blockIds := fun hid =>
    Nat.lt_irrefl _ (h.next.above id (List.mem_cons_of_mem _ (List.mem_cons_of_mem _ hid)))
  rw [hgiven]
  refine ⟨h.next.above, h.next.next, blocks_addNamedBlock hnew name, fun b => ?_, fun b => ?_, ?_⟩
  · rw [← (h.stored.reads b).1]
    exact Neighbours.get?_touch _ id b
  · rw [← (h.stored.reads b).2]
    exact Neighbours.get?_touch _ id b
  · have hs : s'.maps.successors.of id = s.graph.successors id :=
      (Neighbours.of_touch _ id id).trans (h.stored.reads id).1
    have hp : s'.maps.predecessors.of id = s.graph.predecessors id :=
      (Neighbours.of_touch _ id id).trans (h.stored.reads id).2
    rw [hs, hp, Graph.isolated_iff]
    simp only [h.edges]

/-- The entry announces a block by an edge to its number before the block is there, and a
named block gets that number: the entry leads to it. -/
theorem addNamedBlock_announced :
    let s := (empty 0 1).after [.block (.empty 0 "entry"), .edge 0 2]
    let id := (s.addNamedBlock "helper").1
    let s' := (s.addNamedBlock "helper").2
    s.graph.edges = [(0, 2)] ∧ id = 2 ∧ s'.maps.predecessors.of id = [0] ∧
      s.graph.flow 0 = [] ∧ s'.graph.flow 0 = [id] := by
  decide

end StoredGraph
end Recovery
