import Mathlib.Data.Set.Function
import Recovery.Proofs.ControlFlow.Nesting
import Recovery.Proofs.Structure.PostDominators
/-
  The laws of the numbers of a procedure.

  Nothing is asked of the graph but that it has its entry block: the exit may be
  missing, out of reach or lead on, and blocks that cannot reach it are numbered
  like the others.

    1. `order` and `revOrder` count along `ordering` and `revOrdering`
       (`CountsAlong`): every node has one number below the number of nodes,
       and the listing answers which node has a given one.
    2. The stamps of either search from the entry are the numbers from one to twice
       the number of nodes, and two intervals are nested or disjoint (`WellNested`).
    3. The two kinds of number agree: `order` sorts by the second stamp, and
       `preorder` by the first.
    4. They tell where walks lead: an interval that encloses another is that of a
       node with a walk to the other's, and along an edge that no walk leads back
       along `order` falls and `revOrder` rises.

  `Lawful` is all of that for the numbers of one procedure, with walks and edges taken
  in its own graph; `NumberedProcedure.build_lawful` is the result.
-/

namespace Recovery

/-- Whether one interval ends before another begins, either way. -/
def Stamps.Apart (s t : Stamps) : Prop := s.2 < t.1 ∨ t.2 < s.1

namespace Numbering
variable {n : Nat}

/-! ## Counting along a list -/

/-- `number` gives every node its place in `listing`, each place below `n` to one. -/
structure CountsAlong (listing : List (Fin n)) (number : Vector Nat n) : Prop where
  bijOn : Set.BijOn number.get Set.univ (Set.Iio n)
  listing_eq_some_iff : ∀ i v, listing[i]? = some v ↔ number.get v = i

theorem perm_finRange {l : List (Fin n)} (hl : l.Nodup) (hall : ∀ v, v ∈ l) :
    l.Perm (List.finRange n) := by
  apply (List.perm_ext_iff_of_nodup hl (List.nodup_finRange n)).2
  simp [hall]

theorem countsAlong_places {l : List (Fin n)} (hl : l.Nodup) (hall : ∀ v, v ∈ l) :
    CountsAlong l (places l) := by
  have hlength : l.length = n := by
    rw [(perm_finRange hl hall).length_eq, List.length_finRange]
  have hlisting (i : Nat) (v : Fin n) : l[i]? = some v ↔ (places l).get v = i := by
    rw [get_places]
    constructor
    · intro hi
      obtain ⟨hlt, rfl⟩ := List.getElem?_eq_some_iff.1 hi
      exact hl.idxOf_getElem i hlt
    · rintro rfl
      exact List.getElem?_idxOf (hall v)
  refine ⟨⟨fun v _ => ?_, fun u _ v _ h => places_injective (hall u) h, fun i hi => ?_⟩, hlisting⟩
  · have hlt := List.idxOf_lt_length_of_mem (hall v)
    rw [← get_places, hlength] at hlt
    exact hlt
  · have hi' : i < l.length := hlength.symm ▸ hi
    exact ⟨l[i], trivial, (hlisting i l[i]).1 (List.getElem?_eq_getElem hi')⟩

/-! ## Stamps -/

/-- The stamps of `n` nodes: each is entered before it is left, no step from one to `2 * n`
is left out or taken twice, and two intervals are nested or disjoint. -/
structure WellNested (stamps : Vector Stamps n) : Prop where
  enter_lt_leave : ∀ v, (stamps.get v).1 < (stamps.get v).2
  perm : ((List.finRange n).flatMap fun v => [(stamps.get v).1, (stamps.get v).2]).Perm
    (List.range' 1 (2 * n))
  nested_or_apart : ∀ u v, u ≠ v → (stamps.get u).encloses (stamps.get v) = true ∨
    (stamps.get v).encloses (stamps.get u) = true ∨ Stamps.Apart (stamps.get u) (stamps.get v)

theorem wellNested_stampTable {f : Forest (Fin n)} (hf : f.preorder.Nodup)
    (hall : ∀ v, v ∈ f.preorder) : WellNested (stampTable f.events) := by
  have hperm := perm_finRange hf hall
  refine ⟨fun v => ?_, ?_, fun u v huv => ?_⟩
  · rw [get_stampTable]
    exact Forest.enter_lt_leave hf (hall v)
  · simp only [get_stampTable]
    have hstamps := Forest.perm_stamps hf
    rw [hperm.length_eq, List.length_finRange] at hstamps
    exact (hperm.symm.flatMap_right _).trans hstamps
  · rcases Forest.below_or_disjoint hf (hall u) (hall v) huv with hb | hb | h
    · exact Or.inl ((encloses_stampTable hf hall).2 hb)
    · exact Or.inr (Or.inl ((encloses_stampTable hf hall).2 hb))
    · rw [get_stampTable, get_stampTable]
      exact Or.inr (Or.inr h)

/-! ## The numbers of a graph -/

/-- The laws of the numbers of the nodes that depict a graph. -/
structure Lawful (g : Graph) (G : NodeGraph) (k : Numbering G.size) : Prop where
  order : CountsAlong k.ordering k.order
  revOrder : CountsAlong k.revOrdering k.revOrder
  stamps : WellNested k.stamps
  revStamps : WellNested k.revStamps
  order_lt_iff : ∀ u v, k.order.get u < k.order.get v ↔ (k.stamps.get u).2 < (k.stamps.get v).2
  preorder_perm : k.preorder.Perm (List.finRange G.size)
  preorder_sorted : k.preorder.Pairwise fun u v => (k.stamps.get u).1 < (k.stamps.get v).1
  reaches_of_encloses : ∀ u v,
    (k.stamps.get u).encloses (k.stamps.get v) = true ∨
      (k.revStamps.get u).encloses (k.revStamps.get v) = true →
    Reaches (Along g.flow) (G.blockOf u) (G.blockOf v)
  order_of_edge : ∀ u v, G.blockOf v ∈ g.flow (G.blockOf u) →
    ¬ Reaches (Along g.flow) (G.blockOf v) (G.blockOf u) → k.order.get v < k.order.get u
  revOrder_of_edge : ∀ u v, G.blockOf v ∈ g.flow (G.blockOf u) →
    ¬ Reaches (Along g.flow) (G.blockOf v) (G.blockOf u) → k.revOrder.get u < k.revOrder.get v

section
variable {g : Graph} {G : NodeGraph} {u v : G.Node}

/-- Two counts that both rise along a list rise together on its members. -/
theorem lt_of_lt_along {α : Type} {l : List α} {f f' : α → Nat} {a b : α}
    (hf : l.Pairwise fun x y => f x < f y) (hf' : l.Pairwise fun x y => f' x < f' y)
    (ha : a ∈ l) (hb : b ∈ l) (h : f a < f b) : f' a < f' b := by
  obtain ⟨i, hi, rfl⟩ := List.getElem_of_mem ha
  obtain ⟨j, hj, rfl⟩ := List.getElem_of_mem hb
  rcases Nat.lt_trichotomy i j with hij | rfl | hji
  · exact List.pairwise_iff_getElem.1 hf' i j hi hj hij
  · exact absurd h (Nat.lt_irrefl _)
  · have hlt := List.pairwise_iff_getElem.1 hf j i hj hi hji
    omega

/-- A node is numbered before another when it is left before it. -/
theorem order_lt_iff_leave (D : NodeGraph.Depicts g G) :
    (ofNodeGraph G).order.get u < (ofNodeGraph G).order.get v ↔
      ((ofNodeGraph G).stamps.get u).2 < ((ofNodeGraph G).stamps.get v).2 := by
  have hleave : (ofNodeGraph G).ordering.Pairwise fun u v =>
      ((ofNodeGraph G).stamps.get u).2 < ((ofNodeGraph G).stamps.get v).2 := by
    show (forward G).postorder.Pairwise fun u v => ((stampTable (forward G).events).get u).2 <
      ((stampTable (forward G).events).get v).2
    simp only [get_stampTable]
    exact Forest.pairwise_leave (nodup_search G.next [G.entry])
  have hu := mem_ordering D u
  have hv := mem_ordering D v
  constructor
  · exact lt_of_lt_along (pairwise_ordering G) hleave hu hv
  · exact lt_of_lt_along hleave (pairwise_ordering G) hu hv

theorem reaches_of_encloses (D : NodeGraph.Depicts g G)
    (h : ((ofNodeGraph G).stamps.get u).encloses ((ofNodeGraph G).stamps.get v) = true ∨
      ((ofNodeGraph G).revStamps.get u).encloses ((ofNodeGraph G).revStamps.get v) = true) :
    Reaches (Along g.flow) (G.blockOf u) (G.blockOf v) := by
  have hancestor : (ofNodeGraph G).isAncestor u v = true := by
    simp only [isAncestor, Bool.or_eq_true]
    exact h
  exact D.reaches_iff.1 (reaches_of_isAncestor D hancestor)

theorem lawful_ofNodeGraph (D : NodeGraph.Depicts g G) : Lawful g G (ofNodeGraph G) where
  order := countsAlong_places (nodup_ordering G) (mem_ordering D)
  revOrder := countsAlong_places (nodup_revOrdering G) (mem_revOrdering D)
  stamps := wellNested_stampTable (nodup_search _ _) (mem_forward D)
  revStamps := wellNested_stampTable (nodup_search _ _) (mem_opposite D)
  order_lt_iff _ _ := order_lt_iff_leave D
  preorder_perm := perm_finRange (nodup_search _ _) (mem_forward D)
  preorder_sorted := by
    show (forward G).preorder.Pairwise fun u v => ((stampTable (forward G).events).get u).1 <
      ((stampTable (forward G).events).get v).1
    simp only [get_stampTable]
    exact Forest.pairwise_enter (nodup_search G.next [G.entry])
  reaches_of_encloses _ _ := reaches_of_encloses D
  order_of_edge _ _ hedge hback :=
    order_lt_of_not_reaches D (D.mem_next_iff.2 hedge) (mt D.reaches_iff.1 hback)
  revOrder_of_edge _ _ hedge hback :=
    revOrder_lt_of_not_reaches D (D.mem_next_iff.2 hedge) (mt D.reaches_iff.1 hback)

end
end Numbering

/-! ## The numbers of a procedure -/

namespace NumberedProcedure

/-- **The laws of the numbers.** Every procedure with an entry block gets a node graph
of the blocks its entry reaches, whatever its exit and the walk limit, and the
numbers of these nodes keep the laws. -/
theorem build_lawful (q : Procedure) (walkLimit : Nat) (hbuilt : q.graph.Built)
    (hentry : q.graph.hasBlock q.graph.entry = true) :
    ∃ p, build q walkLimit = .ok p ∧ NodeGraph.Depicts q.graph p.graph ∧
      Numbering.Lawful q.graph p.graph p.numbering := by
  obtain ⟨p, hbuild, D, hnumbering, -⟩ := exists_build q walkLimit hbuilt hentry
  refine ⟨p, hbuild, D, ?_⟩
  rw [hnumbering]
  exact Numbering.lawful_ofNodeGraph D

/-- They hold of two loops that share a block, and the way out of both is numbered as the
last two laws say: no walk leads back from it. -/
theorem build_lawful_tangled :
    tangled.graph.Built ∧ tangled.graph.hasBlock tangled.graph.entry = true ∧
      ¬ Reaches (Along tangled.graph.flow) 5 4 ∧
      ∃ p u v, build tangled 12 = .ok p ∧ Numbering.Lawful tangled.graph p.graph p.numbering ∧
        p.graph.blockOf u = 4 ∧ p.graph.blockOf v = 5 ∧
        p.numbering.order.get v < p.numbering.order.get u ∧
        p.numbering.revOrder.get u < p.numbering.revOrder.get v := by
  have hstop : tangled.graph.flow 5 = [] := by decide
  have hback : ¬ Reaches (Along tangled.graph.flow) 5 4 := by
    intro ⟨vs, hw⟩
    cases hw with
    | step e _ =>
      rw [Along, hstop] at e
      cases e
  have hedge : 5 ∈ tangled.graph.flow 4 := by decide
  obtain ⟨p, hbuild, D, L⟩ := build_lawful tangled 12 built_tangled (by decide)
  have hreach4 : tangled.graph.Reached 4 :=
    ⟨[0, 4], .step (show 4 ∈ tangled.graph.flow 0 by decide) (.stop 4)⟩
  obtain ⟨u, hu⟩ := D.exists_node hreach4
  obtain ⟨v, hv⟩ := D.exists_node (hreach4.snoc hedge)
  rw [← hu, ← hv] at hedge hback
  exact ⟨built_tangled, by decide, hu ▸ hv ▸ hback, p, u, v, hbuild, L, hu, hv,
    L.order_of_edge u v hedge hback, L.revOrder_of_edge u v hedge hback⟩

end NumberedProcedure
end Recovery
