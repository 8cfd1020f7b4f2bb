import Recovery.ControlFlow.OrderLoop
import Recovery.Proofs.ControlFlow.Ancestry
import Recovery.Proofs.ControlFlow.Building
import Recovery.Proofs.ControlFlow.Dominance
import Recovery.Proofs.Loop
/-
  Reverse post-order of any graph.

    1. The search by a stack ends, and leaves the blocks in the order in which the
       depth-first forest leaves them (`reversePostOrder_eq`). What it does from a block
       on is said by the forest that grows there (`frame`). Successors that were never
       added are tried and passed over in between (`pass_over`), so the forest is one
       over the flow.
    2. In that order a block comes after all that lead to it and that it does not lead
       back to: across the trees of all roots an edge leads to a block left earlier, or
       up to one that leads back down.
    3. The entry is the first root, so its tree is left first, and stands last. That tree
       holds what the entry reaches, with the entry left last of it
       (`exists_entry_tree`).

  Nothing is asked of the graph but that graph operations made it: it may have cycles,
  blocks the entry does not reach, edges from and to numbers that were never added, and
  an entry that is such a number.
-/

namespace Recovery.OrderLoop
variable {g : Graph} {b c : BlockId} {seen : List BlockId}

/-! ## Marks -/

def marks (g : Graph) (seen : List BlockId) : List Bool :=
  g.blockIds.map fun b => decide (b ∈ seen)

theorem marks_nil (g : Graph) : marks g [] = List.replicate g.blocks.length false := by
  simp [marks, Graph.blockIds, List.map_const']

theorem exists_place (hnodup : g.blockIds.Nodup) (hb : g.hasBlock b = true)
    (seen : List BlockId) :
    ∃ place, g.position? b = some place ∧ (marks g seen)[place]? = some (decide (b ∈ seen)) ∧
      (marks g seen).set place true = marks g (b :: seen) := by
  obtain ⟨place, hplace, rfl⟩ := List.getElem_of_mem (Graph.hasBlock_iff.1 hb)
  refine ⟨place, ?_, ?_, ?_⟩
  · rw [Graph.position?, List.idxOf?_eq_some_iff]
    exact ⟨hplace, rfl, fun j hj h => absurd ((List.getElem_inj hnodup).1 h) (Nat.ne_of_lt hj)⟩
  · rw [marks, List.getElem?_map, List.getElem?_eq_getElem hplace]
    rfl
  · refine List.ext_getElem (by simp [marks]) fun i hi _ => ?_
    rw [List.length_set, marks, List.length_map] at hi
    simp only [marks, List.getElem_set, List.getElem_map, List.mem_cons]
    split
    · next h => simp [h]
    · next h => simp [List.getElem_inj hnodup, Ne.symm h]

theorem position_eq_none (hb : ¬ g.hasBlock b = true) : g.position? b = none :=
  List.idxOf?_eq_none_iff.2 (mt Graph.hasBlock_iff.2 hb)

/-! ## Turns -/

section
variable {tried : Nat} {rest : List (BlockId × Nat)} {left : List BlockId} {marked : List Bool}

theorem turn_leave (h : (g.successors b)[tried]? = none) :
    turn g ⟨(b, tried) :: rest, marked, left⟩ = some (.again ⟨rest, marked, left ++ [b]⟩) := by
  simp only [turn, h]

theorem turn_pass (h : (g.successors b)[tried]? = some c) (hc : ¬ g.hasBlock c = true) :
    turn g ⟨(b, tried) :: rest, marked, left⟩ =
      some (.again ⟨(b, tried + 1) :: rest, marked, left⟩) := by
  simp only [turn, h, position_eq_none hc]

theorem turn_try (hnodup : g.blockIds.Nodup) (h : (g.successors b)[tried]? = some c)
    (hc : g.hasBlock c = true) :
    turn g ⟨(b, tried) :: rest, marks g seen, left⟩ = some (.again
      (if c ∈ seen then ⟨(b, tried + 1) :: rest, marks g seen, left⟩
      else ⟨(c, 0) :: (b, tried + 1) :: rest, marks g (c :: seen), left⟩)) := by
  obtain ⟨place, hplace, hread, hset⟩ := exists_place hnodup hc seen
  simp only [turn, h, hplace, hread, hset, Option.bind_eq_bind, Option.bind_some,
    decide_eq_true_eq]
  split
  · rfl
  · rfl

theorem pass_over {dangling more : List BlockId} (hdangling : ∀ c ∈ dangling, ¬ g.hasBlock c = true) :
    ∀ tried, (g.successors b).drop tried = dangling ++ more →
      untilDone (turn g) ⟨(b, tried) :: rest, marked, left⟩ =
        untilDone (turn g) ⟨(b, tried + dangling.length) :: rest, marked, left⟩ := by
  induction dangling with
  | nil => exact fun _ _ => rfl
  | cons c dangling ih =>
    intro tried hdrop
    obtain ⟨hread, hnext⟩ := read_of_drop hdrop
    rw [untilDone_again (turn_pass hread (hdangling c List.mem_cons_self)),
      ih (fun c hc => hdangling c (List.mem_cons_of_mem _ hc)) (tried + 1) hnext,
      List.length_cons, Nat.add_right_comm, Nat.add_assoc]

theorem exists_try (hnodup : g.blockIds.Nodup) {pending : List BlockId}
    (h : ((g.successors b).drop tried).filter g.hasBlock = c :: pending) :
    ∃ next, ((g.successors b).drop next).filter g.hasBlock = pending ∧
      untilDone (turn g) ⟨(b, tried) :: rest, marks g seen, left⟩ = untilDone (turn g)
        (if c ∈ seen then ⟨(b, next) :: rest, marks g seen, left⟩
        else ⟨(c, 0) :: (b, next) :: rest, marks g (c :: seen), left⟩) := by
  obtain ⟨dangling, more, hdrop, hdangling, hadded, hmore⟩ := List.filter_eq_cons_iff.1 h
  have hplace : (g.successors b).drop (tried + dangling.length) = c :: more := by
    rw [← List.drop_drop, hdrop, List.drop_left]
  obtain ⟨hread, hnext⟩ := read_of_drop hplace
  refine ⟨tried + dangling.length + 1, ?_, ?_⟩
  · rw [hnext, hmore]
  · rw [pass_over hdangling tried hdrop, untilDone_again (turn_try hnodup hread hadded)]

theorem leave_eq (h : ((g.successors b).drop tried).filter g.hasBlock = []) :
    untilDone (turn g) ⟨(b, tried) :: rest, marked, left⟩ =
      untilDone (turn g) ⟨rest, marked, left ++ [b]⟩ := by
  rw [pass_over (List.filter_eq_nil_iff.1 h) tried (List.append_nil _).symm]
  refine untilDone_again (turn_leave (List.getElem?_eq_none ?_))
  rw [List.length_drop]
  omega

end

/-! ## The search -/

/-- From a block on, with its successors tried up to a place, a search comes back to the block
below, having left the forest that grows from the other successors, and the block. -/
theorem frame (hnodup : g.blockIds.Nodup) {pending seen' : List BlockId} {f : Forest BlockId}
    (h : Forest.DepthFirst g.flow pending seen f seen') :
    ∀ (b : BlockId) (tried : Nat) (rest : List (BlockId × Nat)) (left : List BlockId),
      ((g.successors b).drop tried).filter g.hasBlock = pending →
      untilDone (turn g) ⟨(b, tried) :: rest, marks g seen, left⟩ =
        untilDone (turn g) ⟨rest, marks g seen', left ++ (f.postorder ++ [b])⟩ := by
  -- on the forest: the children with the block on the stack, then what else it leads to
  induction h with
  | done seen => exact fun b tried rest left hnone => leave_eq hnone
  | @skip c pending seen seen' f hc _ ih =>
    intro b tried rest left hpending
    obtain ⟨next, hrest, hturn⟩ := exists_try hnodup hpending
    rw [hturn, if_pos hc]
    exact ih b next rest left hrest
  | @visit c pending seen mid seen' children f hc _ _ ihc ihf =>
    intro b tried rest left hpending
    obtain ⟨next, hrest, hturn⟩ := exists_try hnodup hpending
    rw [hturn, if_neg hc, ihc c 0 _ _ rfl, ihf b next rest _ hrest]
    simp only [Forest.postorder, List.append_assoc, List.cons_append, List.nil_append]

theorem searchFrom_visit (hnodup : g.blockIds.Nodup) (hb : g.hasBlock b = true) (hs : b ∉ seen)
    {mid : List BlockId} {children : Forest BlockId}
    (h : Forest.DepthFirst g.flow (g.flow b) (b :: seen) children mid) (left : List BlockId) :
    searchFrom g (marks g seen, left) b = some (marks g mid, left ++ (children.postorder ++ [b])) := by
  obtain ⟨place, hplace, hread, hset⟩ := exists_place hnodup hb seen
  rw [searchFrom]
  simp only [hplace, hread, hset, hs, Option.bind_eq_bind, Option.bind_some, decide_false,
    Bool.false_eq_true, if_false]
  rw [frame hnodup h b 0 [] left rfl]
  exact untilDone_done rfl

theorem searchFrom_skip (hnodup : g.blockIds.Nodup) (hb : g.hasBlock b = true) (hs : b ∈ seen)
    (left : List BlockId) : searchFrom g (marks g seen, left) b = some (marks g seen, left) := by
  obtain ⟨place, hplace, hread, -⟩ := exists_place hnodup hb seen
  rw [searchFrom]
  simp only [hplace, hread, hs, Option.bind_eq_bind, Option.bind_some, decide_true, if_true]

theorem searchFrom_pass (hb : ¬ g.hasBlock b = true) (state : List Bool × List BlockId) :
    searchFrom g state b = some state := by
  rw [searchFrom]
  simp only [position_eq_none hb]

theorem foldlM_searchFrom (hnodup : g.blockIds.Nodup) {roots seen' : List BlockId}
    {f : Forest BlockId} (h : Forest.DepthFirst g.flow (roots.filter g.hasBlock) seen f seen') :
    ∀ left, roots.foldlM (searchFrom g) (marks g seen, left) =
      some (marks g seen', left ++ f.postorder) := by
  -- on the roots and not on the forest, since a root that was never added grows nothing
  induction roots generalizing seen f with
  | nil =>
    intro left
    cases h with
    | done => rw [Forest.postorder, List.append_nil, List.foldlM_nil]; rfl
  | cons root roots ih =>
    intro left
    rw [List.foldlM_cons]
    by_cases hroot : g.hasBlock root = true
    · rw [List.filter_cons_of_pos hroot] at h
      cases h with
      | skip hs h =>
        rw [searchFrom_skip hnodup hroot hs]
        exact ih h left
      | visit hs hc h =>
        rw [searchFrom_visit hnodup hroot hs hc]
        refine (ih h _).trans ?_
        simp only [Forest.postorder, List.append_assoc, List.cons_append, List.nil_append]
    · rw [List.filter_cons_of_neg hroot] at h
      rw [searchFrom_pass hroot]
      exact ih h left

/-- The search ends, and answers the blocks in reverse post-order. -/
theorem reversePostOrder_eq (hnodup : g.blockIds.Nodup) :
    reversePostOrder g = some g.reversePostOrder := by
  obtain ⟨seen, hf⟩ := g.depthFirst_forest (g.entry :: g.blockIds)
  rw [reversePostOrder, ← marks_nil, foldlM_searchFrom hnodup hf]
  rfl

/-! ## The order -/

theorem before_of_not_reaches {u v : BlockId} (hu : g.hasBlock u = true) (hv : v ∈ g.flow u)
    (hback : ¬ Reaches (Along g.flow) v u) : [u, v].Sublist g.reversePostOrder := by
  obtain ⟨seen, hf⟩ := g.depthFirst_forest (g.entry :: g.blockIds)
  have hmem : u ∈ (g.forest (g.entry :: g.blockIds)).preorder := by
    refine (hf.mem_preorder_iff u).2 ⟨u, List.mem_filter.2 ⟨?_, hu⟩, .refl u⟩
    exact List.mem_cons_of_mem _ (Graph.hasBlock_iff.1 hu)
  exact (hf.left_before_of_not_reaches hmem hv hback).reverse

/-- What the entry reaches stands last, the entry before the rest of it. -/
theorem exists_suffix (h : g.hasBlock g.entry = true) :
    ∃ before after, g.reversePostOrder = before ++ g.entry :: after ∧
      ∀ b, b ∈ g.entry :: after ↔ g.Reached b := by
  obtain ⟨c, s, mid, hforest, htree⟩ := Graph.exists_entry_tree h
  refine ⟨s.postorder.reverse, c.postorder.reverse, ?_, fun b => ?_⟩
  · rw [Graph.reversePostOrder, hforest, Forest.postorder, List.reverse_append, List.reverse_cons,
      List.append_assoc, List.singleton_append]
  · rw [Graph.Reached, ← Graph.mem_entry_tree htree, Forest.preorder, Forest.preorder,
      List.append_nil, List.mem_cons, List.mem_cons, List.mem_reverse,
      c.postorder_perm_preorder.mem_iff]

/-- **Reverse post-order.** The search ends for every graph. Its answer lists every block that
was added, once and nothing else; the source of an edge before its target, unless
the target leads back to it; and what the entry reaches last, from the entry on. -/
theorem orders_every_block (g : Graph) (hbuilt : g.Built) :
    reversePostOrder g = some g.reversePostOrder ∧ g.reversePostOrder.Nodup ∧
      (∀ b, b ∈ g.reversePostOrder ↔ g.hasBlock b = true) ∧
      (∀ u v, g.hasBlock u = true → g.hasBlock v = true → v ∈ g.successors u →
        ¬ Reaches (Along g.flow) v u → [u, v].Sublist g.reversePostOrder) ∧
      (g.hasBlock g.entry = true → ∃ before after,
        g.reversePostOrder = before ++ g.entry :: after ∧
          ∀ b, b ∈ g.entry :: after ↔ g.Reached b) := by
  refine ⟨reversePostOrder_eq hbuilt.nodup_blockIds, g.nodup_reversePostOrder, fun b => ?_,
    fun u v hu hv hedge hback => ?_, exists_suffix⟩
  · rw [Graph.mem_reversePostOrder, Graph.hasBlock_iff]
  · exact before_of_not_reaches hu (Graph.mem_flow.2 ⟨hedge, Graph.hasBlock_iff.1 hv⟩) hback

/-- Two cycles, of which the entry reaches one and leads to it only, with edges from and to
a number that was never added. -/
def scattered : Graph :=
  (((((((((Graph.empty 0 9).addBlock (.empty 1 "head")).addBlock (.empty 0 "entry")).addBlock
    (.empty 2 "body")).addBlock (.empty 3 "lost")).addBlock (.empty 4 "stray")).addEdge 0 9
      |>.addEdge 0 1).addEdge 1 2).addEdge 2 1 |>.addEdge 3 1 |>.addEdge 3 4).addEdge 4 3
        |>.addEdge 9 0

theorem built_scattered : scattered.Built :=
  .addEdge _ _ (.addEdge _ _ (.addEdge _ _ (.addEdge _ _ (.addEdge _ _ (.addEdge _ _
    (.addEdge _ _ (.addEdge _ _ (.addBlock _ (.addBlock _ (.addBlock _ (.addBlock _
      (.addBlock _ (.empty 0 9)))))))))))))

/-- Its search ends, with the cycle the entry does not reach in front. -/
theorem orders_every_block_scattered :
    scattered.Built ∧ reversePostOrder scattered = some [3, 4, 0, 1, 2] ∧
      (¬ Reaches (Along scattered.flow) 1 3 ∧ [3, 1].Sublist scattered.reversePostOrder) ∧
      ∃ before after, scattered.reversePostOrder = before ++ 0 :: after ∧
        ∀ b, b ∈ 0 :: after ↔ scattered.Reached b := by
  obtain ⟨hloop, -, -, hbefore, hsuffix⟩ := orders_every_block scattered built_scattered
  have horder : scattered.reversePostOrder = [3, 4, 0, 1, 2] := by decide +kernel
  rw [horder] at hloop
  have hcycle : ∀ b ∈ [1, 2], ∀ c ∈ scattered.flow b, c ∈ [1, 2] := by decide
  have hback : ¬ Reaches (Along scattered.flow) 1 3 := by
    intro h
    have hmem : 3 ∈ [1, 2] := h.closed (fun b c hb e => hcycle b hb c e) (by decide)
    exact absurd hmem (by decide)
  exact ⟨built_scattered, hloop, ⟨hback, hbefore 3 1 (by decide) (by decide) (by decide) hback⟩,
    hsuffix (by decide)⟩

end Recovery.OrderLoop
