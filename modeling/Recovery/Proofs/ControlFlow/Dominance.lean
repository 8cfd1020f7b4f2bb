import Recovery.Proofs.ControlFlow.Order
import Recovery.Proofs.ControlFlow.Settling
/-
  The dominator tree of a graph is exact.

  `Settling` is about places. This module is about blocks: `entries` lists, for
  each place of reverse post-order, the places its block is entered from, and
  walks over places are walks over blocks (`guards_place`). A place the entry
  reaches has an earlier predecessor (`ascending_entries`), so the settled chain
  of a place holds the guards of its block and nothing else.

  The order also holds blocks the entry does not reach, some of them before the
  entry. They have no link; each dominates itself only.
-/

namespace Recovery.Graph
variable {g : Graph}

/-- Whether the entry reaches a block, going through added blocks only. -/
def Reached (g : Graph) (b : BlockId) : Prop := Reaches (Along g.flow) g.entry b

/-- Whether every walk from the entry to `b` goes through `a`. -/
def Dominates (g : Graph) (a b : BlockId) : Prop := Guards (Along g.flow) g.entry a b

/-- A place of reverse post-order. -/
abbrev Place (g : Graph) := Fin g.reversePostOrder.length

/-- The block at a place. -/
def blockAt (g : Graph) (i : g.Place) : BlockId := g.reversePostOrder.get i

/-- The places that the block at a place is entered from. -/
def entries (g : Graph) (i : g.Place) : List g.Place :=
  (g.predecessors (g.blockAt i)).filterMap g.reversePostOrder.finIdxOf?

/-! ## Places and blocks -/

theorem blockAt_injective {i j : g.Place} (h : g.blockAt i = g.blockAt j) : i = j :=
  Fin.ext ((List.getElem_inj g.nodup_reversePostOrder).1 h)

theorem blockAt_mem (i : g.Place) : g.blockAt i ∈ g.blockIds :=
  (mem_reversePostOrder _).1 (List.getElem_mem _)

theorem exists_place {b : BlockId} (h : b ∈ g.blockIds) : ∃ i : g.Place, g.blockAt i = b := by
  obtain ⟨i, hi, rfl⟩ := List.getElem_of_mem ((mem_reversePostOrder b).2 h)
  exact ⟨⟨i, hi⟩, rfl⟩

theorem place_eq_some_iff {b : BlockId} {i : g.Place} :
    g.reversePostOrder.finIdxOf? b = some i ↔ g.blockAt i = b := by
  rw [List.finIdxOf?_eq_some_iff]
  refine ⟨fun h => h.1, fun h => ⟨h, fun j hj hjb => ?_⟩⟩
  have : j = i := blockAt_injective (hjb.trans h.symm)
  omega

theorem edge_entries {p i : g.Place} :
    DominatorLinks.Edge g.entries p i ↔ Along g.flow (g.blockAt p) (g.blockAt i) := by
  simp only [DominatorLinks.Edge, entries, List.mem_filterMap, place_eq_some_iff, Along, mem_flow,
    mem_successors_iff, blockAt_mem, and_true]
  constructor
  · intro ⟨b, hb, hp⟩
    rw [hp]
    exact hb
  · intro hp
    exact ⟨_, hp, rfl⟩

theorem exists_walk_places {i : g.Place} {b : BlockId} {vs : List BlockId}
    (h : Walk (Along g.flow) (g.blockAt i) b vs) :
    ∃ j is, g.blockAt j = b ∧ is.map g.blockAt = vs ∧ Walk (DominatorLinks.Edge g.entries) i j is := by
  refine h.lift (fun a b hab => ?_) i rfl
  obtain ⟨c, rfl⟩ := exists_place (mem_flow.1 hab).2
  exact ⟨c, rfl, edge_entries.2 hab⟩

theorem reaches_place {i j : g.Place} :
    Reaches (DominatorLinks.Edge g.entries) i j ↔
      Reaches (Along g.flow) (g.blockAt i) (g.blockAt j) := by
  constructor
  · intro ⟨is, hw⟩
    exact ⟨_, hw.map g.blockAt fun _ _ => edge_entries.1⟩
  · intro ⟨vs, hw⟩
    obtain ⟨k, is, hk, -, hw'⟩ := exists_walk_places hw
    exact ⟨is, blockAt_injective hk ▸ hw'⟩

/-- A place guards another exactly when its block does. -/
theorem guards_place {root x i : g.Place} :
    Guards (DominatorLinks.Edge g.entries) root x i ↔
      Guards (Along g.flow) (g.blockAt root) (g.blockAt x) (g.blockAt i) := by
  constructor
  · intro h vs hw
    obtain ⟨k, is, hk, rfl, hw'⟩ := exists_walk_places hw
    obtain rfl := blockAt_injective hk
    exact List.mem_map_of_mem (h is hw')
  · intro h is hw
    obtain ⟨y, hy, hyx⟩ := List.mem_map.1 (h _ (hw.map g.blockAt fun _ _ => edge_entries.1))
    exact blockAt_injective hyx ▸ hy

theorem ascending_entries (h : g.hasBlock g.entry = true) {root : g.Place}
    (hroot : g.blockAt root = g.entry) :
    ∃ parent, DominatorLinks.Ascending g.entries root parent := by
  have hparent (i : g.Place) : ∃ p : g.Place,
      Reaches (DominatorLinks.Edge g.entries) root i → i ≠ root →
        p ∈ g.entries i ∧ Reaches (DominatorLinks.Edge g.entries) root p ∧ p < i := by
    by_cases hi : Reaches (DominatorLinks.Edge g.entries) root i ∧ i ≠ root
    · obtain ⟨hr, hne⟩ := hi
      rw [reaches_place, hroot] at hr
      have hne' : g.blockAt i ≠ g.entry := fun he => hne (blockAt_injective (he.trans hroot.symm))
      obtain ⟨b, hb, hbi, hsub⟩ := exists_earlier_predecessor h hr hne'
      obtain ⟨p, rfl⟩ := exists_place (mem_blockIds_of_reaches hb (hasBlock_iff.1 h))
      have hidx (k : g.Place) : g.reversePostOrder.idxOf (g.blockAt k) = k.val :=
        List.Nodup.idxOf_getElem g.nodup_reversePostOrder k.val k.isLt
      have hlt := Forest.idxOf_lt_of_sublist g.nodup_reversePostOrder hsub
      rw [hidx, hidx] at hlt
      refine ⟨p, fun _ _ => ⟨edge_entries.2 hbi, ?_, hlt⟩⟩
      rw [reaches_place, hroot]
      exact hb
    · exact ⟨i, fun hr hne => absurd ⟨hr, hne⟩ hi⟩
  choose parent hp using hparent
  exact ⟨parent, fun hr hne => (hp _ hr hne).1, fun hr hne => (hp _ hr hne).2.1,
    fun hr hne => (hp _ hr hne).2.2⟩

end Recovery.Graph

/-! ## The tree -/

namespace Recovery.DominatorTree
variable {g : Graph} {a b : BlockId} {root i : g.Place}

theorem dominates_iff_mem {t : DominatorTree} : t.dominates a b = true ↔ a ∈ t.dominators b := by
  simp [dominates]

theorem ofGraph_eq (hroot : g.blockAt root = g.entry) :
    ofGraph g = ⟨g.reversePostOrder, DominatorLinks.compute g.entries root⟩ := by
  have hentries : (fun i : g.Place => (Vector.ofFn g.entries).get i) = g.entries := by
    funext i
    rw [get_ofFn]
  rw [ofGraph]
  simp only [Graph.place_eq_some_iff.2 hroot]
  show (⟨g.reversePostOrder, DominatorLinks.compute
    (fun i : g.Place => (Vector.ofFn g.entries).get i) root⟩ : DominatorTree) = _
  rw [hentries]

theorem dominators_blockAt (hroot : g.blockAt root = g.entry) (i : g.Place) :
    (ofGraph g).dominators (g.blockAt i) =
      ((DominatorLinks.compute g.entries root).chain i).map g.blockAt := by
  rw [ofGraph_eq hroot, dominators]
  simp only [Graph.place_eq_some_iff.2 (rfl : g.blockAt i = g.blockAt i)]
  rfl

theorem linked_place (h : g.hasBlock g.entry = true) (hroot : g.blockAt root = g.entry) :
    (DominatorLinks.compute g.entries root).Linked i ↔ g.Reached (g.blockAt i) := by
  obtain ⟨parent, A⟩ := Graph.ascending_entries h hroot
  rw [DominatorLinks.linked_compute A, Graph.reaches_place, hroot]
  rfl

theorem isTree_compute (h : g.hasBlock g.entry = true) (hroot : g.blockAt root = g.entry) :
    (DominatorLinks.compute g.entries root).IsTree root := by
  obtain ⟨parent, A⟩ := Graph.ascending_entries h hroot
  exact (DominatorLinks.compute_sound A).1.isTree A

/-- A chain of a place the entry reaches holds the places whose blocks dominate. -/
theorem mem_chain_place (h : g.hasBlock g.entry = true) (hroot : g.blockAt root = g.entry)
    (hi : g.Reached (g.blockAt i)) (x : g.Place) :
    x ∈ (DominatorLinks.compute g.entries root).chain i ↔
      g.Dominates (g.blockAt x) (g.blockAt i) := by
  obtain ⟨parent, A⟩ := Graph.ascending_entries h hroot
  rw [Graph.Reached, ← hroot, ← Graph.reaches_place] at hi
  rw [DominatorLinks.mem_chain_compute A hi, Graph.guards_place, hroot]
  rfl

theorem exists_places (h : g.hasBlock g.entry = true) (hb : g.Reached b) :
    ∃ root i : g.Place, g.blockAt root = g.entry ∧ g.blockAt i = b := by
  have hentry := Graph.hasBlock_iff.1 h
  obtain ⟨root, hroot⟩ := Graph.exists_place hentry
  obtain ⟨i, hi⟩ := Graph.exists_place (Graph.mem_blockIds_of_reaches hb hentry)
  exact ⟨root, i, hroot, hi⟩

theorem exists_place_of_dominates (hroot : g.blockAt root = g.entry) (hb : g.Reached b)
    (hab : g.Dominates a b) : ∃ x : g.Place, g.blockAt x = a := by
  obtain ⟨vs, hw⟩ := hb
  have ha := hab vs hw
  rw [← hroot] at hw
  obtain ⟨_, is, -, rfl, -⟩ := Graph.exists_walk_places hw
  obtain ⟨x, -, hx⟩ := List.mem_map.1 ha
  exact ⟨x, hx⟩

theorem mem_dominators_iff (h : g.hasBlock g.entry = true) (hb : g.Reached b) :
    a ∈ (ofGraph g).dominators b ↔ g.Dominates a b := by
  obtain ⟨root, i, hroot, rfl⟩ := exists_places h hb
  rw [dominators_blockAt hroot, List.mem_map]
  constructor
  · intro ⟨x, hx, hxa⟩
    rw [← hxa]
    exact (mem_chain_place h hroot hb x).1 hx
  · intro hab
    obtain ⟨x, rfl⟩ := exists_place_of_dominates hroot hb hab
    exact ⟨x, (mem_chain_place h hroot hb x).2 hab, rfl⟩

theorem dominators_of_not_reached (h : g.hasBlock g.entry = true) (hb : ¬ g.Reached b) :
    (ofGraph g).dominators b = [b] := by
  obtain ⟨root, hroot⟩ := Graph.exists_place (Graph.hasBlock_iff.1 h)
  by_cases hi : b ∈ g.blockIds
  · obtain ⟨i, rfl⟩ := Graph.exists_place hi
    have hnone : (DominatorLinks.compute g.entries root).get i = none := by
      rw [Option.eq_none_iff_forall_ne_some]
      intro d hd
      exact hb ((linked_place h hroot).1 ⟨d, hd⟩)
    rw [dominators_blockAt hroot, DominatorLinks.chain, hnone]
    rfl
  · have hnone : g.reversePostOrder.finIdxOf? b = none := by
      rw [List.finIdxOf?_eq_none_iff, Graph.mem_reversePostOrder]
      exact hi
    rw [ofGraph_eq hroot, dominators]
    simp only [hnone]

theorem immediate_iff (h : g.hasBlock g.entry = true) (hb : g.Reached b) {d : BlockId} :
    (ofGraph g).immediate? b = some d ↔
      g.Dominates d b ∧ d ≠ b ∧ ∀ a, g.Dominates a b → a ≠ b → g.Dominates a d := by
  obtain ⟨root, i, hroot, rfl⟩ := exists_places h hb
  have hlinked := (linked_place h hroot).2 hb
  -- dominance between places, for `i` and for whatever stands on its chain
  have hchain (x : g.Place) := mem_chain_place h hroot hb x
  have habove {x : g.Place} (hx : x ∈ (DominatorLinks.compute g.entries root).chain i)
      (y : g.Place) : y ∈ (DominatorLinks.compute g.entries root).chain x ↔
        g.Dominates (g.blockAt y) (g.blockAt x) := by
    have hx := (isTree_compute h hroot).linked_of_mem_chain hlinked hx
    exact mem_chain_place h hroot ((linked_place h hroot).1 hx) y
  have hne {x : g.Place} : g.blockAt x ≠ g.blockAt i ↔ x ≠ i :=
    not_congr ⟨Graph.blockAt_injective, congrArg _⟩
  rw [immediate?, dominators_blockAt hroot, List.getElem?_map, Option.map_eq_some_iff]
  constructor
  · intro ⟨x, hx, hxd⟩
    subst hxd
    obtain ⟨hmem, hxi, hall⟩ := DominatorLinks.getElem?_one_chain.1 hx
    refine ⟨(hchain x).1 hmem, hne.2 hxi, fun a ha hab => ?_⟩
    obtain ⟨y, rfl⟩ := exists_place_of_dominates hroot hb ha
    exact (habove hmem y).1 (hall y ((hchain y).2 ha) (hne.1 hab))
  · intro ⟨hd, hdi, hall⟩
    obtain ⟨x, rfl⟩ := exists_place_of_dominates hroot hb hd
    have hmem := (hchain x).2 hd
    refine ⟨x, DominatorLinks.getElem?_one_chain.2 ⟨hmem, hne.1 hdi, fun y hy hyi => ?_⟩, rfl⟩
    exact (habove hmem y).2 (hall _ ((hchain y).1 hy) (hne.2 hyi))

theorem pairwise_dominators (h : g.hasBlock g.entry = true) (hb : g.Reached b) :
    ((ofGraph g).dominators b).Pairwise fun a c => a ≠ c ∧ (ofGraph g).dominates c a = true := by
  obtain ⟨root, i, hroot, rfl⟩ := exists_places h hb
  have hchain := DominatorLinks.pairwise_chain (DominatorLinks.compute g.entries root) i
  rw [dominators_blockAt hroot, List.pairwise_map]
  refine hchain.imp fun hac => ⟨fun he => ?_, ?_⟩
  · obtain rfl := Graph.blockAt_injective he
    exact absurd hac.1 (Fin.lt_irrefl _)
  · rw [dominates_iff_mem, dominators_blockAt hroot]
    exact List.mem_map_of_mem hac.2

theorem ends_dominators (h : g.hasBlock g.entry = true) (hb : g.Reached b) :
    ((ofGraph g).dominators b).head? = some b ∧
      ((ofGraph g).dominators b).getLast? = some g.entry := by
  obtain ⟨root, i, hroot, rfl⟩ := exists_places h hb
  have hlast := (isTree_compute h hroot).getLast?_chain ((linked_place h hroot).2 hb)
  rw [dominators_blockAt hroot]
  constructor
  · rw [DominatorLinks.chain]
    rfl
  · rw [List.getLast?_map, hlast, Option.map_some, hroot]

/-- **Exactness.** Dominators are told by walks: those of a block the entry
reaches are the blocks that every walk from the entry to it goes through, from
the block up to the entry, each dominating those before it. Any other block, and
any number that is no block, is dominated by itself alone. -/
theorem ofGraph_exact (g : Graph) (h : g.hasBlock g.entry = true) (b : BlockId) :
    (g.Reached b →
      (∀ a, (ofGraph g).dominates a b = true ↔ g.Dominates a b) ∧
      (∀ a, a ∈ (ofGraph g).dominators b ↔ g.Dominates a b) ∧
      ((ofGraph g).dominators b).Nodup ∧
      ((ofGraph g).dominators b).head? = some b ∧
      ((ofGraph g).dominators b).getLast? = some g.entry ∧
      ((ofGraph g).dominators b).Pairwise (fun a c => (ofGraph g).dominates c a = true) ∧
      ∀ d, (ofGraph g).immediate? b = some d ↔
        g.Dominates d b ∧ d ≠ b ∧ ∀ a, g.Dominates a b → a ≠ b → g.Dominates a d) ∧
    (¬ g.Reached b → ∀ a, (ofGraph g).dominates a b = true ↔ a = b) := by
  refine ⟨fun hb => ?_, fun hb a => ?_⟩
  · have hpairs := pairwise_dominators h hb
    obtain ⟨hhead, hlast⟩ := ends_dominators h hb
    exact ⟨fun a => dominates_iff_mem.trans (mem_dominators_iff h hb),
      fun a => mem_dominators_iff h hb, hpairs.imp fun hac => hac.1, hhead, hlast,
      hpairs.imp fun hac => hac.2, fun d => immediate_iff h hb⟩
  · rw [dominates_iff_mem, dominators_of_not_reached h hb, List.mem_singleton]

/-- A cycle of two blocks that the entry enters on either side. -/
def twoWayCycle : Graph :=
  ((((((Graph.empty 0 9).addBlock (.empty 0 "entry")).addBlock (.empty 1 "left")).addBlock
    (.empty 2 "right")).addEdge 0 1).addEdge 0 2 |>.addEdge 1 2).addEdge 2 1

/-- In it the entry alone dominates both sides, and block 9 was never added. -/
theorem ofGraph_exact_twoWayCycle :
    twoWayCycle.hasBlock twoWayCycle.entry = true ∧
      (∀ d, (ofGraph twoWayCycle).immediate? 2 = some d ↔ twoWayCycle.Dominates d 2 ∧ d ≠ 2 ∧
        ∀ a, twoWayCycle.Dominates a 2 → a ≠ 2 → twoWayCycle.Dominates a d) ∧
      (ofGraph twoWayCycle).immediate? 2 = some 0 ∧
      ∀ a, (ofGraph twoWayCycle).dominates a 9 = true ↔ a = 9 := by
  have hentry : twoWayCycle.hasBlock twoWayCycle.entry = true := by decide
  have hreached : twoWayCycle.Reached 2 :=
    ⟨[0, 2], .step (show 2 ∈ twoWayCycle.flow 0 by decide) (.stop 2)⟩
  have hmissing : ¬ twoWayCycle.Reached 9 := fun h9 =>
    absurd (Graph.mem_blockIds_of_reaches h9 (by decide)) (by decide)
  have hexact := (ofGraph_exact twoWayCycle hentry 2).1 hreached
  exact ⟨hentry, hexact.2.2.2.2.2.2, by decide +kernel, (ofGraph_exact twoWayCycle hentry 9).2 hmissing⟩

end Recovery.DominatorTree
