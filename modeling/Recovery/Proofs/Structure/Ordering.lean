import Recovery.Proofs.ControlFlow.OrderLoop
import Recovery.Proofs.Structure.Indexed.Numbering
/-
  One order for blocks and for nodes.

  Two searches go through a procedure from its entry. The one behind reverse post-order goes
  over block numbers: it passes over those that were never added, and takes what the entry
  does not reach as further roots. The one behind the numbers of nodes goes over a graph
  that was cut down to the reached blocks before.

  From the entry on they do the same. A node leads to the nodes of what its block leads to,
  in the same order, so a search of nodes grows the forest of a search of blocks, with nodes
  for blocks (`Forest.DepthFirst.eq_map`, on the run of the one search, which the other can
  only follow). The blocks of the other roots are left later and so stand in front of the
  entry (`StructuredProcedure.exists_reversePostOrder_eq`).
-/

namespace Recovery

namespace Forest
variable {α β : Type}

def map (φ : α → β) : Forest α → Forest β
  | nil => nil
  | node v children siblings => node (φ v) (children.map φ) (siblings.map φ)

theorem postorder_map (φ : α → β) (f : Forest α) : (f.map φ).postorder = f.postorder.map φ := by
  induction f with
  | nil => rfl
  | node v children siblings ihc ihs => simp [map, postorder, ihc, ihs]

/-- A search among other vertices that stand for these, each one for one, grows the same
forest and leaves the same vertices marked. -/
theorem DepthFirst.eq_map {φ : α → β} (hφ : Function.Injective φ) {next : α → List α}
    {next' : β → List β} (hnext : ∀ v, (next v).map φ = next' (φ v))
    {pending seen seen' : List α} {f : Forest α} (h : DepthFirst next pending seen f seen') :
    ∀ {f' : Forest β} {marked : List β},
      DepthFirst next' (pending.map φ) (seen.map φ) f' marked →
        f' = f.map φ ∧ marked = seen'.map φ := by
  have hmem (v : α) (seen : List α) : φ v ∈ seen.map φ ↔ v ∈ seen :=
    List.mem_map_of_injective hφ
  induction h with
  | done seen =>
    intro f' marked h'
    cases h' with
    | done => exact ⟨rfl, rfl⟩
  | skip hv _ ih =>
    intro f' marked h'
    cases h' with
    | skip _ h' => exact ih h'
    | visit hv' _ _ => exact absurd ((hmem _ _).2 hv) hv'
  | visit hv _ _ ihc ihs =>
    intro f' marked h'
    cases h' with
    | skip hv' _ => exact absurd ((hmem _ _).1 hv') hv
    | visit _ hc hs =>
      -- the siblings start from what the children have marked on either side
      rw [← hnext] at hc
      obtain ⟨rfl, rfl⟩ := ihc hc
      obtain ⟨rfl, rfl⟩ := ihs hs
      exact ⟨rfl, rfl⟩

end Forest

namespace NodeGraph
variable {g : Graph} {G : NodeGraph}

theorem Depicts.postorder_entry_tree (D : Depicts g G) {c : Forest BlockId} {mid : List BlockId}
    (h : Forest.DepthFirst g.flow [g.entry] [] (.node g.entry c .nil) mid) :
    (Numbering.ofNodeGraph G).ordering.map G.blockOf = c.postorder ++ [g.entry] := by
  obtain ⟨seen, hnodes⟩ := Numbering.depthFirst_search G.next [G.entry]
  have hinj : Function.Injective G.blockOf := fun _ _ => D.blockOf_injective
  have hblocks : Forest.DepthFirst g.flow ([G.entry].map G.blockOf) ([].map G.blockOf)
      (.node g.entry c .nil) mid := by
    rw [List.map_singleton, D.blockOf_entry]
    exact h
  obtain ⟨hforest, -⟩ := hnodes.eq_map hinj D.map_next hblocks
  show (Forest.search G.next G.size [G.entry]).postorder.map G.blockOf = _
  rw [← Forest.postorder_map, ← hforest]
  rfl

end NodeGraph

namespace StructuredProcedure

/-- **The two searches agree.** Of a procedure with an entry block, reverse post-order names
the entry once, and from there on it is the order of the nodes read backwards, with the block
of each node. Both orders are what the searches by a stack end with. -/
theorem exists_reversePostOrder_eq (q : Procedure) (settings : Settings) (hbuilt : q.graph.Built)
    (hentry : q.graph.hasBlock q.graph.entry = true) :
    ∃ s before after, ofProcedure q settings = .ok s ∧
      Indexed.number s.graph = some s.numbering ∧
      OrderLoop.reversePostOrder q.graph = some (before ++ q.graph.entry :: after) ∧
      (before ++ q.graph.entry :: after).Nodup ∧
      (s.numbering.ordering.map s.graph.blockOf).reverse = q.graph.entry :: after := by
  obtain ⟨s, hs, D, hnumbering, -⟩ := exists_ofProcedure q settings hbuilt hentry
  obtain ⟨c, others, mid, hforest, htree⟩ := Graph.exists_entry_tree hentry
  have horder : q.graph.reversePostOrder =
      others.postorder.reverse ++ q.graph.entry :: c.postorder.reverse := by
    rw [Graph.reversePostOrder, hforest]
    simp [Forest.postorder]
  refine ⟨s, others.postorder.reverse, c.postorder.reverse, hs, ?_, ?_, ?_, ?_⟩
  · rw [hnumbering]
    exact Indexed.number_eq s.graph
  · rw [OrderLoop.reversePostOrder_eq hbuilt.nodup_blockIds, horder]
  · rw [← horder]
    exact q.graph.nodup_reversePostOrder
  · rw [hnumbering, D.postorder_entry_tree htree]
    simp

/-- A loop and, out of its reach, another one that leads into it; edges from and to a number
that was never added. -/
def twoLoops : Procedure := .ofGraph 0 "loops" (.empty 4) OrderLoop.scattered

/-- The other loop stands in front, and from the entry on both orders are the same. -/
theorem exists_reversePostOrder_eq_twoLoops :
    twoLoops.graph.Built ∧ twoLoops.graph.hasBlock twoLoops.graph.entry = true ∧
      ∃ s, ofProcedure twoLoops .standard = .ok s ∧
        Indexed.number s.graph = some s.numbering ∧
        OrderLoop.reversePostOrder twoLoops.graph = some [3, 4, 0, 1, 2] ∧
        (s.numbering.ordering.map s.graph.blockOf).reverse = [0, 1, 2] := by
  have hbuilt : twoLoops.graph.Built := OrderLoop.built_scattered
  have hentry : twoLoops.graph.hasBlock twoLoops.graph.entry = true := by decide
  obtain ⟨s, before, after, hs, hnumber, hloop, hnodup, hsuffix⟩ :=
    exists_reversePostOrder_eq twoLoops .standard hbuilt hentry
  have horder : twoLoops.graph.reversePostOrder = [3, 4, 0, 1, 2] := by decide +kernel
  rw [OrderLoop.reversePostOrder_eq hbuilt.nodup_blockIds, horder] at hloop
  refine ⟨hbuilt, hentry, s, hs, hnumber, ?_, ?_⟩
  · rw [OrderLoop.reversePostOrder_eq hbuilt.nodup_blockIds, horder]
  · -- the list without repetition is split at its only zero
    have hsplit : [3, 4] ++ 0 :: [1, 2] = before ++ 0 :: after := Option.some.inj hloop
    have hbefore : (0 : BlockId) ∉ ([3, 4] : List BlockId) := by decide
    have hafter : (0 : BlockId) ∉ ([1, 2] : List BlockId) := by decide
    obtain ⟨-, -, rfl⟩ := (List.append_cons_inj_of_notMem hbefore hafter).1 hsplit
    exact hsuffix

end StructuredProcedure
end Recovery
