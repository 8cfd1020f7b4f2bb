import Recovery.ControlFlow.Order
import Recovery.Proofs.ControlFlow.DepthFirst
/-
  What the orders of a graph guarantee.

  The flow of a graph never leaves its blocks, so searching as deep as there are
  blocks is a depth-first search (`depthFirst_forest`). From that:

    1. `mem_reachable` — `reachable` lists what the entry reaches;
    2. `nodup_reversePostOrder`, `mem_reversePostOrder` — reverse post-order lists
       every block, each once;
    3. `exists_entry_tree`, `mem_entry_tree` — the search grows the tree of the entry
       first, and that tree holds what the entry reaches;
    4. `exists_earlier_predecessor` — a block the entry reaches, other than the
       entry, has a predecessor earlier in that order that the entry reaches too.

  The search behind the order takes the blocks the entry does not reach as
  further roots. They are left after the entry and so stand before it in the
  order, and may lead into the part the entry reaches; `exists_earlier_predecessor`
  is about the tree of the entry alone.
-/

namespace Recovery.Graph
variable {g : Graph}

theorem mem_flow {a b : BlockId} : b ∈ g.flow a ↔ b ∈ g.successors a ∧ b ∈ g.blockIds := by
  simp [flow, hasBlock]

theorem hasBlock_iff {b : BlockId} : g.hasBlock b = true ↔ b ∈ g.blockIds := by
  simp [hasBlock]

theorem mem_blockIds_of_reaches {a b : BlockId} (h : Reaches (Along g.flow) a b)
    (ha : a ∈ g.blockIds) : b ∈ g.blockIds :=
  h.closed (fun _ _ _ e => (mem_flow.1 e).2) ha

theorem depthFirst_forest (g : Graph) (roots : List BlockId) :
    ∃ seen, Forest.DepthFirst g.flow (roots.filter g.hasBlock) [] (g.forest roots) seen := by
  have hclosed : ∀ v ∈ g.blockIds, ∀ w ∈ g.flow v, w ∈ g.blockIds := fun v _ w hw =>
    (mem_flow.1 hw).2
  have hroots : ∀ v ∈ roots.filter g.hasBlock, v ∈ g.blockIds := fun v hv =>
    hasBlock_iff.1 (List.mem_filter.1 hv).2
  have hdepth : Forest.unseen g.blockIds [] ≤ g.blocks.length :=
    Nat.le_trans (Forest.unseen_le_length _) (Nat.le_of_eq (List.length_map _))
  exact ⟨_, Forest.depthFirst_grow hclosed g.blocks.length _ [] hroots hdepth⟩

theorem mem_reachable (h : g.hasBlock g.entry = true) (b : BlockId) :
    b ∈ g.reachable ↔ Reaches (Along g.flow) g.entry b := by
  obtain ⟨seen, hf⟩ := g.depthFirst_forest [g.entry]
  have hfilter : [g.entry].filter g.hasBlock = [g.entry] := by simp [h]
  rw [hfilter] at hf
  rw [reachable, hf.mem_preorder_iff]
  simp

theorem nodup_reversePostOrder (g : Graph) : g.reversePostOrder.Nodup := by
  obtain ⟨seen, hf⟩ := g.depthFirst_forest (g.entry :: g.blockIds)
  rw [reversePostOrder, (List.reverse_perm _).nodup_iff,
    (Forest.postorder_perm_preorder _).nodup_iff]
  exact hf.nodup_preorder

theorem mem_reversePostOrder (b : BlockId) : b ∈ g.reversePostOrder ↔ b ∈ g.blockIds := by
  obtain ⟨seen, hf⟩ := g.depthFirst_forest (g.entry :: g.blockIds)
  rw [reversePostOrder, List.mem_reverse, (Forest.postorder_perm_preorder _).mem_iff,
    hf.mem_preorder_iff]
  constructor
  · intro ⟨r, hr, hreach⟩
    exact mem_blockIds_of_reaches hreach (hasBlock_iff.1 (List.mem_filter.1 hr).2)
  · intro hb
    exact ⟨b, List.mem_filter.2 ⟨List.mem_cons_of_mem _ hb, hasBlock_iff.2 hb⟩, .refl b⟩

/-- The search behind the order grows the tree of the entry first. -/
theorem exists_entry_tree (h : g.hasBlock g.entry = true) :
    ∃ c s mid, g.forest (g.entry :: g.blockIds) = .node g.entry c s ∧
      Forest.DepthFirst g.flow [g.entry] [] (.node g.entry c .nil) mid := by
  obtain ⟨seen, hf⟩ := g.depthFirst_forest (g.entry :: g.blockIds)
  rw [List.filter_cons_of_pos h] at hf
  generalize g.forest (g.entry :: g.blockIds) = f at hf ⊢
  cases hf with
  | skip hs => cases hs
  | @visit _ _ _ mid _ c s hs hc _ => exact ⟨c, s, mid, rfl, .visit hs hc (.done mid)⟩

theorem mem_entry_tree {c : Forest BlockId} {mid : List BlockId}
    (h : Forest.DepthFirst g.flow [g.entry] [] (.node g.entry c .nil) mid) (b : BlockId) :
    b ∈ (Forest.node g.entry c .nil).preorder ↔ Reaches (Along g.flow) g.entry b := by
  rw [h.mem_preorder_iff]
  simp only [List.mem_singleton, exists_eq_left]

/-- A block the entry reaches, other than the entry, is entered from a block that
stands before it in reverse post-order. -/
theorem exists_earlier_predecessor (h : g.hasBlock g.entry = true) {b : BlockId}
    (hb : Reaches (Along g.flow) g.entry b) (hne : b ≠ g.entry) :
    ∃ p, Reaches (Along g.flow) g.entry p ∧ b ∈ g.flow p ∧ [p, b].Sublist g.reversePostOrder := by
  obtain ⟨c, s, mid, hforest, htree⟩ := exists_entry_tree h
  rw [reversePostOrder, hforest]
  rcases htree.parent ((mem_entry_tree htree b).2 hb) with hr | ⟨p, hp, hbp, hsub⟩
  · exact absurd (List.mem_singleton.1 hr) hne
  · refine ⟨p, (mem_entry_tree htree p).1 hp, hbp, ?_⟩
    have hle : (Forest.node g.entry c .nil).postorder.Sublist
        (Forest.node g.entry c s).postorder := by
      apply (List.Sublist.refl c.postorder).append
      exact (List.nil_sublist _).cons_cons g.entry
    exact (hsub.trans hle).reverse

end Recovery.Graph
