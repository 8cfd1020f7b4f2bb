import Recovery.Proofs.ControlFlow.Building
import Recovery.Proofs.ControlFlow.Dominance
/-
  Graphs with dead code added.

  `Padded live g g'` says that `g'` is built as `g` is, but for blocks that are not
  `live` and edges out of them, which may be added at any point. Where live is what the
  entry of `g'` reaches, this is dead code: it leaves no trace in what is read of a
  reached block.

  What the two graphs have in common is kept by every operation (`SameOn.of_padded`):
  the live blocks in their order, and the edges out of them in theirs. A dead block may
  change the place of a live one in the list and what stands between its predecessors,
  so both are compared after leaving out what is dead. From that the entry reaches the
  same blocks (`SameOn.reached_iff`) in the same ways (`SameOn.flow_eq`).
-/

namespace Recovery.Graph

/-- `Padded live g g'`: `g'` is built as `g`, with blocks that are not live and edges out
of such blocks added on the way. A named block counts as added under the number it got. -/
inductive Padded (live : BlockId → Prop) : Graph → Graph → Prop
  | empty (entry exit : BlockId) : Padded live (.empty entry exit) (.empty entry exit)
  | addBlock {g g' : Graph} (b : Block) :
      Padded live g g' → Padded live (g.addBlock b) (g'.addBlock b)
  | addEdge {g g' : Graph} (source target : BlockId) :
      Padded live g g' → Padded live (g.addEdge source target) (g'.addEdge source target)
  | mapBlocks {g g' : Graph} {change : Block → Block} :
      (∀ b, (change b).id = b.id) →
      Padded live g g' → Padded live (g.mapBlocks change) (g'.mapBlocks change)
  | setEnds {g g' : Graph} (entry exit : BlockId) :
      Padded live g g' →
      Padded live { g with entry := entry, exit := exit } { g' with entry := entry, exit := exit }
  | deadBlock {g g' : Graph} (b : Block) :
      ¬ live b.id → Padded live g g' → Padded live g (g'.addBlock b)
  | deadEdge {g g' : Graph} (source target : BlockId) :
      ¬ live source → Padded live g g' → Padded live g (g'.addEdge source target)

def blocksOn (g : Graph) (live : BlockId → Bool) : List Block := g.blocks.filter fun x => live x.id

def edgesOn (g : Graph) (live : BlockId → Bool) : List (BlockId × BlockId) :=
  g.edges.filter fun e => live e.1

/-- `SameOn live g g'`: the graphs differ in blocks that are not live and in the edges out
of them, and `g'` has what `g` has. -/
structure SameOn (live : BlockId → Bool) (g g' : Graph) : Prop where
  entry : g'.entry = g.entry
  exit : g'.exit = g.exit
  blocks : g'.blocksOn live = g.blocksOn live
  edges : g'.edgesOn live = g.edgesOn live
  added : ∀ b, b ∈ g.blockIds → b ∈ g'.blockIds

/-! ## Adding to the live part -/

section
variable {g g' : Graph} {live : BlockId → Bool}

def putBlock (b : Block) (blocks : List Block) : List Block :=
  if b.id ∈ blocks.map Block.id then blocks.map fun x => if x.id == b.id then b else x
  else blocks ++ [b]

theorem map_blocksOn (g : Graph) : (g.blocksOn live).map Block.id = g.blockIds.filter live := by
  rw [blockIds, List.filter_map]
  rfl

theorem mem_blocksOn {b : BlockId} (hb : live b = true) :
    b ∈ (g.blocksOn live).map Block.id ↔ b ∈ g.blockIds := by
  rw [map_blocksOn, List.mem_filter, and_iff_left hb]

theorem blocksOn_mapBlocks (g : Graph) {change : Block → Block}
    (hid : ∀ b, (change b).id = b.id) :
    (g.mapBlocks change).blocksOn live = (g.blocksOn live).map change := by
  rw [blocksOn, mapBlocks, List.filter_map]
  congr 1
  refine List.filter_congr fun x _ => ?_
  rw [Function.comp_apply, hid]

theorem blocksOn_addBlock (g : Graph) (b : Block) : (g.addBlock b).blocksOn live =
    if live b.id then putBlock b (g.blocksOn live) else g.blocksOn live := by
  by_cases hadded : g.hasBlock b.id = true
  · have hid (x : Block) : (if x.id == b.id then b else x).id = x.id := by
      split
      · next hx => exact (beq_iff_eq.1 hx).symm
      · rfl
    have hblocks : (g.addBlock b).blocksOn live =
        (g.mapBlocks fun x => if x.id == b.id then b else x).blocksOn live := by
      rw [blocksOn, addBlock, if_pos hadded]
      rfl
    rw [hblocks, blocksOn_mapBlocks g hid]
    split
    · next hb => rw [putBlock, if_pos ((mem_blocksOn hb).2 (hasBlock_iff.1 hadded))]
    · next hb =>
      -- a block with the number of one that is not live is not among the live ones
      refine (List.map_congr_left fun x hx => if_neg fun hxb => hb ?_).trans (List.map_id _)
      rw [← beq_iff_eq.1 hxb]
      exact (List.mem_filter.1 hx).2
  · have hblocks : (g.addBlock b).blocksOn live =
        g.blocksOn live ++ [b].filter fun x => live x.id := by
      rw [blocksOn, addBlock, if_neg hadded, List.filter_append]
      rfl
    rw [hblocks]
    split
    · next hb =>
      rw [putBlock, if_neg (mt (mem_blocksOn hb).1 (mt hasBlock_iff.2 hadded))]
      simp [hb]
    · next hb => simp [hb]

theorem edgesOn_addEdge (g : Graph) (source target : BlockId) :
    (g.addEdge source target).edgesOn live =
      if live source then g.edgesOn live ++ [(source, target)] else g.edgesOn live := by
  rw [edgesOn, addEdge, List.filter_append]
  split
  · next h => simp [edgesOn, h]
  · next h => simp [edgesOn, h]

namespace SameOn

theorem addBlock (S : SameOn live g g') (b : Block) :
    SameOn live (g.addBlock b) (g'.addBlock b) where
  entry := S.entry
  exit := S.exit
  blocks := by rw [blocksOn_addBlock, blocksOn_addBlock, S.blocks]
  edges := S.edges
  added c := by
    rw [mem_blockIds_addBlock, mem_blockIds_addBlock]
    exact Or.imp_left (S.added c)

theorem addEdge (S : SameOn live g g') (source target : BlockId) :
    SameOn live (g.addEdge source target) (g'.addEdge source target) where
  entry := S.entry
  exit := S.exit
  blocks := S.blocks
  edges := by rw [edgesOn_addEdge, edgesOn_addEdge, S.edges]
  added := S.added

theorem mapBlocks (S : SameOn live g g') {change : Block → Block}
    (hid : ∀ b, (change b).id = b.id) : SameOn live (g.mapBlocks change) (g'.mapBlocks change) where
  entry := S.entry
  exit := S.exit
  blocks := by rw [blocksOn_mapBlocks g' hid, blocksOn_mapBlocks g hid, S.blocks]
  edges := S.edges
  added := by
    rw [blockIds_mapBlocks hid, blockIds_mapBlocks hid]
    exact S.added

theorem deadBlock (S : SameOn live g g') {b : Block} (hb : live b.id = false) :
    SameOn live g (g'.addBlock b) where
  entry := S.entry
  exit := S.exit
  blocks := by
    rw [blocksOn_addBlock, hb, if_neg Bool.false_ne_true]
    exact S.blocks
  edges := S.edges
  added c hc := mem_blockIds_addBlock.2 (Or.inl (S.added c hc))

theorem deadEdge (S : SameOn live g g') {source : BlockId} (target : BlockId)
    (hsource : live source = false) : SameOn live g (g'.addEdge source target) where
  entry := S.entry
  exit := S.exit
  blocks := S.blocks
  edges := by
    rw [edgesOn_addEdge, hsource, if_neg Bool.false_ne_true]
    exact S.edges
  added := S.added

/-- Dead code leaves the live part as it is. -/
theorem of_padded {alive : BlockId → Prop} (h : Padded alive g g')
    (hlive : ∀ b, live b = true → alive b) : SameOn live g g' := by
  have hdead (b : BlockId) (hb : ¬ alive b) : live b = false :=
    Bool.eq_false_iff.2 fun h => hb (hlive b h)
  induction h with
  | empty => exact ⟨rfl, rfl, rfl, rfl, fun _ => id⟩
  | addBlock b _ ih => exact ih.addBlock b
  | addEdge source target _ ih => exact ih.addEdge source target
  | mapBlocks hid _ ih => exact ih.mapBlocks hid
  | setEnds _ _ _ ih => exact ⟨rfl, rfl, ih.blocks, ih.edges, ih.added⟩
  | deadBlock b hb _ ih => exact ih.deadBlock (hdead _ hb)
  | deadEdge source target hs _ ih => exact ih.deadEdge target (hdead _ hs)

/-! ## Reading the live part -/

variable {b : BlockId}

theorem mem_blockIds_iff (S : SameOn live g g') (hb : live b = true) :
    b ∈ g'.blockIds ↔ b ∈ g.blockIds := by
  rw [← mem_blocksOn (g := g') hb, S.blocks, mem_blocksOn hb]

theorem filter_blockIds (S : SameOn live g g') : g'.blockIds.filter live = g.blockIds.filter live := by
  rw [← map_blocksOn, ← map_blocksOn, S.blocks]

theorem block?_eq (S : SameOn live g g') (hb : live b = true) : g'.block? b = g.block? b := by
  have hfind (g : Graph) :
      g.block? b = (g.blocksOn live).find? fun x => x.id == b := by
    rw [block?, blocksOn, List.find?_filter]
    congr 1
    funext x
    rw [Bool.eq_iff_iff]
    simp +contextual [hb]
  rw [hfind, hfind, S.blocks]

theorem successors_eq (S : SameOn live g g') (hb : live b = true) :
    g'.successors b = g.successors b := by
  have hlist (g : Graph) : g.successors b =
      ((g.edgesOn live).filter fun e => e.1 == b).map Prod.snd := by
    rw [successors, edgesOn, List.filter_filter]
    congr 1
    refine List.filter_congr fun e _ => ?_
    rw [Bool.eq_iff_iff]
    simp +contextual [hb]
  rw [hlist, hlist, S.edges]

theorem filter_predecessors (S : SameOn live g g') (b : BlockId) :
    (g'.predecessors b).filter live = (g.predecessors b).filter live := by
  have hlist (g : Graph) : (g.predecessors b).filter live =
      ((g.edgesOn live).filter fun e => e.2 == b).map Prod.fst := by
    rw [predecessors, edgesOn, List.filter_map, List.filter_filter, List.filter_filter]
    congr 1
    refine List.filter_congr fun e _ => ?_
    rw [Bool.and_comm]
    rfl
  rw [hlist, hlist, S.edges]

/-! ## What the entry reaches -/

theorem flow_eq (S : SameOn live g g') (hlive : ∀ c, live c = true ↔ g'.Reached c)
    (hb : live b = true) : g'.flow b = g.flow b := by
  rw [flow, flow, S.successors_eq hb]
  refine List.filter_congr fun c hc => ?_
  rw [Bool.eq_iff_iff, hasBlock_iff, hasBlock_iff]
  constructor
  · intro hc'
    rw [← S.successors_eq hb] at hc
    have hreached := ((hlive b).1 hb).snoc (mem_flow.2 ⟨hc, hc'⟩)
    exact (S.mem_blockIds_iff ((hlive c).2 hreached)).1 hc'
  · exact S.added c

theorem reached_iff (S : SameOn live g g') (hlive : ∀ c, live c = true ↔ g'.Reached c) :
    g'.Reached b ↔ g.Reached b := by
  have hedge {c d : BlockId} (hc : g'.Reached c) : Along g'.flow c d ↔ Along g.flow c d := by
    rw [Along, Along, S.flow_eq hlive ((hlive c).2 hc)]
  have hstart : g'.Reached g'.entry := .refl _
  constructor
  · rintro ⟨vs, hw⟩
    rw [Reached, ← S.entry]
    exact ⟨vs, hw.mono_on (fun c d hc e => ⟨(hedge hc).1 e, hc.snoc e⟩) hstart⟩
  · rintro ⟨vs, hw⟩
    rw [← S.entry] at hw
    exact ⟨vs, hw.mono_on (fun c d hc e => ⟨(hedge hc).2 e, hc.snoc ((hedge hc).2 e)⟩) hstart⟩

end SameOn
end
end Recovery.Graph
