import Recovery.Proofs.Loop
import Recovery.Proofs.Runs
import Recovery.Proofs.Structure.NodeGraph
import Recovery.Structure.Indexed
/-
  The node graph, found by index.

  The search for blocks ends because each of its turns meets a block that was not
  met, or leaves one fewer waiting; what it has met when none waits is closed
  under edges, so it is what the entry leads to (`exists_reached`). Blocks are
  numbered in the order of the nodes (`numberBlocks_eq`), so every number that is
  looked up stands for a node (`nodeGraph_eq`), and the node graph is the one that
  the search from the entry makes (`exists_nodeGraph`).
-/

namespace Recovery.Indexed

/-! ## The blocks the entry leads to -/

/-- `Reaching g waiting met`: between two turns of the search, what was met is led to, and
what it leads to was met or waits. -/
structure Reaching (g : Graph) (waiting met : List BlockId) : Prop where
  of_met : ∀ b ∈ met, g.Reached b
  of_waiting : ∀ b ∈ waiting, g.hasBlock b = true → g.Reached b
  entry : g.entry ∈ met ∨ g.entry ∈ waiting
  closed : ∀ b ∈ met, ∀ c ∈ g.flow b, c ∈ met ∨ c ∈ waiting

namespace Reaching
variable {g : Graph} {b : BlockId} {waiting met : List BlockId}

theorem drop (h : Reaching g (b :: waiting) met) (hb : g.hasBlock b = true → b ∈ met)
    (hentry : g.hasBlock g.entry = true) : Reaching g waiting met where
  of_met := h.of_met
  of_waiting c hc := h.of_waiting c (List.mem_cons_of_mem b hc)
  entry := by
    rcases h.entry with he | he
    · exact Or.inl he
    · rcases List.mem_cons.1 he with rfl | he
      · exact Or.inl (hb hentry)
      · exact Or.inr he
  closed c hc d hd := by
    rcases h.closed c hc d hd with hmet | hwaits
    · exact Or.inl hmet
    · rcases List.mem_cons.1 hwaits with rfl | hwaits
      · exact Or.inl (hb (Graph.hasBlock_iff.2 (Graph.mem_flow.1 hd).2))
      · exact Or.inr hwaits

theorem meet (h : Reaching g (b :: waiting) met) (hb : g.hasBlock b = true) :
    Reaching g ((g.successors b).reverse ++ waiting) (b :: met) where
  of_met c hc := by
    rcases List.mem_cons.1 hc with rfl | hc
    · exact h.of_waiting c List.mem_cons_self hb
    · exact h.of_met c hc
  of_waiting c hc hadded := by
    rcases List.mem_append.1 hc with hc | hc
    · have hflow : c ∈ g.flow b :=
        Graph.mem_flow.2 ⟨List.mem_reverse.1 hc, Graph.hasBlock_iff.1 hadded⟩
      exact (h.of_waiting b List.mem_cons_self hb).snoc hflow
    · exact h.of_waiting c (List.mem_cons_of_mem b hc) hadded
  entry := by
    rcases h.entry with he | he
    · exact Or.inl (List.mem_cons_of_mem b he)
    · rcases List.mem_cons.1 he with he | he
      · exact Or.inl (he ▸ List.mem_cons_self)
      · exact Or.inr (List.mem_append_right _ he)
  closed c hc d hd := by
    rcases List.mem_cons.1 hc with rfl | hc
    · exact Or.inr (List.mem_append_left _ (List.mem_reverse.2 (Graph.mem_flow.1 hd).1))
    · rcases h.closed c hc d hd with hmet | hwaits
      · exact Or.inl (List.mem_cons_of_mem b hmet)
      · rcases List.mem_cons.1 hwaits with rfl | hwaits
        · exact Or.inl List.mem_cons_self
        · exact Or.inr (List.mem_append_right _ hwaits)

theorem mem_iff (h : Reaching g [] met) : b ∈ met ↔ g.Reached b := by
  refine ⟨h.of_met b, ?_⟩
  rintro ⟨vs, hw⟩
  have hstart := h.entry.resolve_right List.not_mem_nil
  generalize g.entry = start at hw hstart
  induction hw with
  | stop v => exact hstart
  | step e _ ih => exact ih ((h.closed _ hstart _ e).resolve_right List.not_mem_nil)

end Reaching

/-- The search for blocks ends, having met what the entry leads to. -/
theorem exists_reached {g : Graph} (hentry : g.hasBlock g.entry = true) :
    ∃ met, reached g = some met ∧ ∀ b, b ∈ met ↔ g.Reached b := by
  have hstart : Reaching g [g.entry] [] := by
    refine ⟨(fun _ hb => nomatch hb), fun b hb _ => ?_, Or.inr (List.mem_singleton_self _),
      (fun _ hb => nomatch hb)⟩
    rw [List.mem_singleton.1 hb]
    exact .refl g.entry
  suffices hends : ∀ s : List BlockId × List BlockId, Reaching g s.1 s.2 →
      ∃ met, untilDone (reachTurn g) s = some met ∧ ∀ b, b ∈ met ↔ g.Reached b from
    hends ([g.entry], []) hstart
  -- fewer blocks are left to meet, or no more are and fewer wait
  refine exists_untilDone (Prod.lex Nat.lt_wfRel Nat.lt_wfRel).wf
    (fun s => (Forest.unseen g.blockIds s.2, s.1.length)) ?_
  rintro ⟨waiting, met⟩ h
  cases waiting with
  | nil => exact Or.inl ⟨met, rfl, fun _ => h.mem_iff⟩
  | cons b waiting =>
    right
    rw [reachTurn]
    split
    · next hb =>
      rw [Bool.and_eq_true, Bool.not_eq_true', ← Bool.not_eq_true, List.contains_iff_mem] at hb
      exact ⟨_, rfl, h.meet hb.1,
        Prod.Lex.left _ _ (Forest.unseen_cons_lt (Graph.hasBlock_iff.1 hb.1) hb.2)⟩
    · next hb =>
      refine ⟨_, rfl, h.drop (fun hadded => ?_) hentry, Prod.Lex.right _ (Nat.lt_succ_self _)⟩
      rw [hadded, Bool.true_and, Bool.not_eq_true', Bool.not_eq_false] at hb
      exact List.contains_iff_mem.1 hb

/-! ## The node graph -/

theorem numberBlocks_eq {g : Graph} (hnodup : g.blockIds.Nodup) (met : List BlockId) :
    (numberBlocks g met).2 = g.blockIds.filter (met.contains ·) ∧
      ∀ b, (numberBlocks g met).1.lookup b = (numberBlocks g met).2.idxOf? b := by
  refine foldl_along (motive := fun done (state : List (BlockId × Nat) × List BlockId) =>
    state.2 = done.filter (met.contains ·) ∧ ∀ b, state.1.lookup b = state.2.idxOf? b)
    g.blockIds ?_ ([], []) ⟨rfl, fun _ => rfl⟩
  rintro done x rest hsplit ⟨ids, blocks⟩ ⟨hblocks, hids⟩
  dsimp only at hblocks hids ⊢
  rw [List.filter_append]
  split
  · next hx =>
    refine ⟨by rw [hblocks, List.filter_cons_of_pos hx, List.filter_nil], fun b => ?_⟩
    have hfresh : x ∉ blocks := by
      rw [← hsplit, List.nodup_append] at hnodup
      rw [hblocks]
      exact fun hmem => hnodup.2.2 x (List.mem_filter.1 hmem).1 x List.mem_cons_self rfl
    simp only [List.lookup_cons, hids, List.idxOf?, List.findIdx?_append]
    cases hb : b == x with
    | true =>
      have hnone : blocks.findIdx? (· == b) = none := by
        rw [List.findIdx?_eq_none_iff]
        intro y hy
        rw [beq_iff_eq.1 hb, beq_eq_false_iff_ne]
        exact fun hyx => hfresh (hyx ▸ hy)
      rw [hnone]
      simp [beq_iff_eq.1 hb]
    | false =>
      have hne : (x == b) = false := by rw [beq_eq_false_iff_ne] at hb ⊢; exact Ne.symm hb
      simp [List.findIdx?_cons, hne]
  · next hx =>
    rw [List.filter_cons_of_neg hx, List.filter_nil, List.append_nil]
    exact ⟨hblocks, hids⟩

section
variable {g : Graph} {ids : List (BlockId × Nat)} {blocks : List BlockId}

theorem nodeOf_eq (hids : ∀ b, ids.lookup b = blocks.idxOf? b) (b : BlockId) :
    nodeOf ids blocks.length b = some (blocks.finIdxOf? b) := by
  rw [nodeOf, hids, List.idxOf?_eq_map_finIdxOf?_val]
  cases blocks.finIdxOf? b with
  | none => rfl
  | some v =>
    show (node? blocks.length v.val).map some = some (some v)
    rw [node?, dif_pos v.isLt]
    rfl

theorem nodesOf_eq (hids : ∀ b, ids.lookup b = blocks.idxOf? b) (bs : List BlockId) :
    nodesOf ids blocks.length bs = some (bs.filterMap blocks.finIdxOf?) := by
  have hnode : nodeOf ids blocks.length = fun b => pure (blocks.finIdxOf? b) :=
    funext (nodeOf_eq hids)
  rw [nodesOf, hnode, List.mapM_pure]
  show some ((bs.map blocks.finIdxOf?).filterMap id) = _
  rw [List.filterMap_map]
  rfl

/-- Every number that is looked up is below the number of nodes. -/
theorem nodeGraph_eq (hids : ∀ b, ids.lookup b = blocks.idxOf? b) :
    nodeGraph g ids blocks = some (NodeGraph.ofBlocks? g blocks) := by
  have htable (bs : BlockId → List BlockId) :
      (Vector.ofFnM fun v : Fin blocks.length => nodesOf ids blocks.length (bs (blocks.get v))) =
        some (.ofFn fun v : Fin blocks.length =>
          (bs (blocks.get v)).filterMap blocks.finIdxOf?) := by
    simp only [nodesOf_eq hids]
    exact Vector.ofFnM_pure_comp
  rw [nodeGraph, htable g.successors, htable g.predecessors, nodeOf_eq hids, nodeOf_eq hids,
    NodeGraph.ofBlocks?]
  simp only [Option.bind_eq_bind, Option.bind_some]
  cases blocks.finIdxOf? g.entry with
  | none => rfl
  | some entry => rfl

end

/-- The node graph is found, whatever is declared of blocks that are not there. -/
theorem exists_nodeGraph {g : Graph} (hbuilt : g.Built) (hentry : g.hasBlock g.entry = true) :
    ∃ met, reached g = some met ∧
      nodeGraph g (numberBlocks g met).1 (numberBlocks g met).2 = some (NodeGraph.ofGraph? g) := by
  obtain ⟨met, hmet, hmem⟩ := exists_reached hentry
  obtain ⟨hblocks, hids⟩ := numberBlocks_eq hbuilt.nodup_blockIds met
  refine ⟨met, hmet, (nodeGraph_eq hids).trans ?_⟩
  have hsame : g.blockIds.filter (met.contains ·) = g.blockIds.filter (g.reachable.contains ·) := by
    refine List.filter_congr fun b _ => ?_
    rw [Bool.eq_iff_iff, List.contains_iff_mem, List.contains_iff_mem, hmem,
      Graph.mem_reachable hentry]
    rfl
  rw [hblocks, hsame]
  rfl

end Recovery.Indexed
