import Mathlib.Data.Fintype.Card
import Mathlib.Data.List.Nodup
import Recovery.Proofs.ControlFlow.Ancestry
import Recovery.Proofs.Structure.NodeGraph
import Recovery.Proofs.Vectors
import Recovery.Structure.StructuredProcedure
/-
  What the numbers of a node graph mean.

  All three searches are depth-first searches of nodes (`depthFirst_search`), so
  what is known of such forests is known of the numbers read off them:

    1. `ordering` lists the nodes, each once, and `order` counts along it
       (`nodup_ordering`, `mem_ordering`, `pairwise_ordering`);
    2. a node is an ancestor of another when the other hangs below it in one of
       the two forests from the entry (`isAncestor_iff`), so it leads there; an edge
       that goes back closes a cycle (`reaches_of_isBackEdge`), and along any other
       `order` falls (`order_lt_of_not_isBackEdge`);
    3. `revOrdering` lists the nodes too, each once (`nodup_revOrdering`,
       `mem_revOrdering`); where every node leads to the exit it is read off a single
       search from there (`exists_against`);
    4. along an edge that no walk leads back along `order` falls and `revOrder` rises
       (`order_lt_of_not_reaches`, `revOrder_lt_of_not_reaches`);
    5. a procedure with an entry block gets a node graph that depicts its own
       graph, with these numbers (`NumberedProcedure.exists_build`).
-/

namespace Recovery.Numbering
variable {n : Nat} {g : Graph} {G : NodeGraph} {u v w : G.Node}

/-! ## Places in a list -/

theorem get_places (l : List (Fin n)) (v : Fin n) : (places l).get v = l.idxOf v := get_ofFn _ v

theorem places_lt_of_sublist {l : List (Fin n)} {u v : Fin n} (hl : l.Nodup)
    (h : [u, v].Sublist l) : (places l).get u < (places l).get v := by
  rw [get_places, get_places]
  exact Forest.idxOf_lt_of_sublist hl h

theorem pairwise_places {l : List (Fin n)} (hl : l.Nodup) :
    l.Pairwise fun u v => (places l).get u < (places l).get v :=
  List.pairwise_iff_forall_sublist.2 fun huv => places_lt_of_sublist hl huv

theorem places_injective {l : List (Fin n)} {u v : Fin n} (hu : u ∈ l)
    (h : (places l).get u = (places l).get v) : u = v := by
  rw [get_places, get_places] at h
  exact (List.idxOf_inj hu).1 h

/-! ## The three searches -/

theorem depthFirst_grow (next : Fin n → List (Fin n)) (roots seen : List (Fin n)) :
    Forest.DepthFirst next roots seen (Forest.grow next n roots seen).1
      (Forest.grow next n roots seen).2 := by
  have hclosed : ∀ v ∈ List.finRange n, ∀ w ∈ next v, w ∈ List.finRange n :=
    fun _ _ w _ => List.mem_finRange w
  have hdepth : Forest.unseen (List.finRange n) seen ≤ n :=
    Nat.le_trans (Forest.unseen_le_length _) (Nat.le_of_eq List.length_finRange)
  exact Forest.depthFirst_grow hclosed n roots seen (fun v _ => List.mem_finRange v) hdepth

theorem depthFirst_search (next : G.Node → List G.Node) (roots : List G.Node) :
    ∃ seen, Forest.DepthFirst next roots [] (Forest.search next G.size roots) seen :=
  ⟨_, depthFirst_grow next roots []⟩

/-- The forest of the search that takes successors first to last. -/
def forward (G : NodeGraph) : Forest G.Node := Forest.search G.next G.size [G.entry]

/-- The forest of the search that takes successors last to first. -/
def opposite (G : NodeGraph) : Forest G.Node :=
  Forest.search (fun v => (G.next v).reverse) G.size [G.entry]

theorem nodup_search (next : G.Node → List G.Node) (roots : List G.Node) :
    (Forest.search next G.size roots).preorder.Nodup := by
  obtain ⟨seen, hf⟩ := depthFirst_search next roots
  exact hf.nodup_preorder

theorem mem_search_iff (next : G.Node → List G.Node) (roots : List G.Node) :
    v ∈ (Forest.search next G.size roots).preorder ↔
      ∃ r ∈ roots, Reaches (Along next) r v := by
  obtain ⟨seen, hf⟩ := depthFirst_search next roots
  exact hf.mem_preorder_iff v

theorem nodup_ordering (G : NodeGraph) : (ofNodeGraph G).ordering.Nodup :=
  (Forest.postorder_perm_preorder _).nodup_iff.2 (nodup_search G.next [G.entry])

theorem pairwise_ordering (G : NodeGraph) : (ofNodeGraph G).ordering.Pairwise fun u v =>
    (ofNodeGraph G).order.get u < (ofNodeGraph G).order.get v :=
  pairwise_places (nodup_ordering G)

theorem order_lt_of_sublist (h : [u, v].Sublist (ofNodeGraph G).ordering) :
    (ofNodeGraph G).order.get u < (ofNodeGraph G).order.get v :=
  places_lt_of_sublist (nodup_ordering G) h

theorem mem_descending {low high : Nat} :
    v ∈ (ofNodeGraph G).descending low high ↔ v ∈ (ofNodeGraph G).ordering ∧
      low ≤ (ofNodeGraph G).order.get v ∧ (ofNodeGraph G).order.get v < high := by
  have hget (i : Nat) (hi : i < (ofNodeGraph G).ordering.length) :
      (ofNodeGraph G).order.get ((ofNodeGraph G).ordering[i]) = i := by
    have hidx := (nodup_ordering G).idxOf_getElem i hi
    exact (get_places _ _).trans hidx
  rw [descending, List.mem_reverse, List.mem_take_iff_getElem]
  constructor
  · rintro ⟨i, hi, rfl⟩
    rw [List.length_drop] at hi
    rw [List.getElem_drop, hget _ (by omega)]
    exact ⟨List.getElem_mem _, by omega, by omega⟩
  · intro ⟨hv, hlow, hhigh⟩
    obtain ⟨i, hi, rfl⟩ := List.getElem_of_mem hv
    rw [hget i hi] at hlow hhigh
    refine ⟨i - low, by rw [List.length_drop]; omega, ?_⟩
    rw [List.getElem_drop]
    congr 1
    omega

/-! ## Ancestors -/

theorem mem_ordering (D : NodeGraph.Depicts g G) (v : G.Node) :
    v ∈ (ofNodeGraph G).ordering := by
  refine (Forest.postorder_perm_preorder _).mem_iff.2 ((mem_search_iff _ _).2 ?_)
  exact ⟨G.entry, List.mem_singleton_self _, D.reaches_entry v⟩

theorem mem_forward (D : NodeGraph.Depicts g G) (v : G.Node) : v ∈ (forward G).preorder :=
  (Forest.postorder_perm_preorder _).mem_iff.1 (mem_ordering D v)

theorem mem_opposite (D : NodeGraph.Depicts g G) (v : G.Node) : v ∈ (opposite G).preorder := by
  rw [opposite, mem_search_iff, along_reverse]
  exact ⟨G.entry, List.mem_singleton_self _, D.reaches_entry v⟩

theorem get_stampTable (walk : List (Visit (Fin n))) (v : Fin n) :
    (stampTable walk).get v = Forest.stampsIn walk v := get_ofFn _ v

theorem encloses_stampTable {f : Forest (Fin n)} {v w : Fin n} (hf : f.preorder.Nodup)
    (hall : ∀ x, x ∈ f.preorder) :
    ((stampTable f.events).get v).encloses ((stampTable f.events).get w) = true ↔ f.Below v w := by
  rw [get_stampTable, get_stampTable, Stamps.encloses, Bool.and_eq_true, decide_eq_true_eq,
    decide_eq_true_eq]
  exact ⟨fun h => Forest.below_of_encloses hf (hall v) (hall w) h.1 h.2,
    Forest.encloses_stampsIn hf⟩

theorem encloses_stamps_iff (D : NodeGraph.Depicts g G) (v w : G.Node) :
    ((ofNodeGraph G).stamps.get v).encloses ((ofNodeGraph G).stamps.get w) = true ↔
      (forward G).Below v w :=
  encloses_stampTable (nodup_search _ _) (mem_forward D)

theorem encloses_revStamps_iff (D : NodeGraph.Depicts g G) (v w : G.Node) :
    ((ofNodeGraph G).revStamps.get v).encloses ((ofNodeGraph G).revStamps.get w) = true ↔
      (opposite G).Below v w :=
  encloses_stampTable (nodup_search _ _) (mem_opposite D)

theorem isAncestor_iff (D : NodeGraph.Depicts g G) :
    (ofNodeGraph G).isAncestor v w = true ↔ (forward G).Below v w ∨ (opposite G).Below v w := by
  rw [isAncestor, Bool.or_eq_true, encloses_stamps_iff D, encloses_revStamps_iff D]

theorem isBetween_iff (D : NodeGraph.Depicts g G) :
    (ofNodeGraph G).isBetween u v w = true ↔
      ((forward G).Below u v ∧ (forward G).Below v w) ∨
        ((opposite G).Below u v ∧ (opposite G).Below v w) := by
  simp only [isBetween, Bool.or_eq_true, Bool.and_eq_true, encloses_stamps_iff D,
    encloses_revStamps_iff D]

theorem bypasses_of_isBetween (D : NodeGraph.Depicts g G)
    (h : (ofNodeGraph G).isBetween u v w = true) : Bypasses (Along G.next) u v w := by
  rcases (isBetween_iff D).1 h with ⟨huv, hvw⟩ | ⟨huv, hvw⟩
  · obtain ⟨seen, hf⟩ := depthFirst_search G.next [G.entry]
    exact hf.bypasses_of_below huv hvw
  · obtain ⟨seen, hf⟩ := depthFirst_search (fun v => (G.next v).reverse) [G.entry]
    have hbypass := hf.bypasses_of_below huv hvw
    rwa [along_reverse] at hbypass

theorem isAncestor_of_isBetween {n : Nat} {k : Numbering n} {u v w : Fin n}
    (h : k.isBetween u v w = true) : k.isAncestor u v = true := by
  simp only [isBetween, isAncestor, Bool.or_eq_true, Bool.and_eq_true] at h ⊢
  exact h.imp And.left And.left

theorem exists_step_of_isAncestor (D : NodeGraph.Depicts g G)
    (h : (ofNodeGraph G).isAncestor v w = true) :
    ∃ x ∈ G.next v, Reaches (Along G.next) x w := by
  rcases (isAncestor_iff D).1 h with hb | hb
  · obtain ⟨seen, hf⟩ := depthFirst_search G.next [G.entry]
    exact hf.exists_step_of_below hb
  · obtain ⟨seen, hf⟩ := depthFirst_search (fun v => (G.next v).reverse) [G.entry]
    obtain ⟨x, hx, hreach⟩ := hf.exists_step_of_below hb
    rw [along_reverse] at hreach
    exact ⟨x, List.mem_reverse.1 hx, hreach⟩

theorem reaches_of_isAncestor (D : NodeGraph.Depicts g G)
    (h : (ofNodeGraph G).isAncestor v w = true) : Reaches (Along G.next) v w := by
  obtain ⟨x, hx, hreach⟩ := exists_step_of_isAncestor D h
  exact .step hx hreach

/-- An edge that goes back closes a cycle. -/
theorem reaches_of_isBackEdge (D : NodeGraph.Depicts g G)
    (h : (ofNodeGraph G).isBackEdge u v = true) : Reaches (Along G.next) v u := by
  rw [isBackEdge, Bool.or_eq_true, decide_eq_true_eq] at h
  rcases h with rfl | h
  · exact .refl u
  · exact reaches_of_isAncestor D h

/-- Along any other edge `order` falls. -/
theorem order_lt_of_not_isBackEdge (D : NodeGraph.Depicts g G) (hv : v ∈ G.next u)
    (h : ¬ (ofNodeGraph G).isBackEdge u v = true) :
    (ofNodeGraph G).order.get v < (ofNodeGraph G).order.get u := by
  rw [isBackEdge, Bool.or_eq_true, decide_eq_true_eq, isAncestor_iff D, not_or] at h
  obtain ⟨seen, hf⟩ := depthFirst_search G.next [G.entry]
  apply order_lt_of_sublist
  rcases hf.left_before_or_below (mem_forward D u) hv with hseen | heq | hbelow | hsub
  · cases hseen
  · exact absurd heq.symm h.1
  · exact absurd (Or.inl hbelow) h.2
  · exact hsub

theorem order_lt_of_not_reaches (D : NodeGraph.Depicts g G) (hv : v ∈ G.next u)
    (hback : ¬ Reaches (Along G.next) v u) :
    (ofNodeGraph G).order.get v < (ofNodeGraph G).order.get u :=
  order_lt_of_not_isBackEdge D hv (mt (reaches_of_isBackEdge D) hback)

theorem isBackEdge_eq_false (D : NodeGraph.Depicts g G) (hacyclic : Acyclic (Along G.next))
    (hv : v ∈ G.next u) : (ofNodeGraph G).isBackEdge u v = false :=
  Bool.eq_false_iff.2 fun h => hacyclic u v hv (reaches_of_isBackEdge D h)

theorem hasBackEdge_eq_false (D : NodeGraph.Depicts g G) (hacyclic : Acyclic (Along G.next)) :
    hasBackEdge G (ofNodeGraph G) v = false := by
  rw [← Bool.not_eq_true, hasBackEdge, List.any_eq_true]
  rintro ⟨s, hs, hback⟩
  rw [isBackEdge_eq_false D hacyclic hs] at hback
  cases hback

/-! ## Against the edges -/

/-- When every node leads to the exit, `revOrdering` lists the nodes as a search from the
exit against the edges leaves them, the exit last. -/
theorem exists_against (D : NodeGraph.Depicts g G) {x : G.Node} (hexit : G.exit = some x)
    (hreach : ∀ v, Reaches (Along G.next) v x) :
    ∃ c seen, Forest.DepthFirst G.previous [x] [] (.node x c .nil) seen ∧
      (ofNodeGraph G).revOrdering = c.postorder ++ [x] ∧ ∀ v, v ∈ c.postorder ++ [x] := by
  obtain ⟨seen, hf⟩ :=
    depthFirst_search G.previous (G.exit.toList ++ (ofNodeGraph G).ordering)
  have hrev : (ofNodeGraph G).revOrdering =
      (Forest.search G.previous G.size (G.exit.toList ++ (ofNodeGraph G).ordering)).postorder :=
    rfl
  rw [hrev]
  generalize Forest.search G.previous G.size (G.exit.toList ++ (ofNodeGraph G).ordering) = f at hf
  rw [hexit, Option.toList_some, List.cons_append] at hf
  cases hf with
  | skip hx _ => cases hx
  | @visit _ _ _ mid _ c s hx hc hs =>
    have hroot : Forest.DepthFirst G.previous [x] [] (.node x c .nil) mid :=
      .visit hx hc (.done mid)
    have hback (v : G.Node) : v ∈ (Forest.node x c .nil).preorder := by
      refine (hroot.mem_preorder_iff v).2 ⟨x, List.mem_singleton_self x, ?_⟩
      exact (hreach v).turn fun _ _ e => D.mem_previous_iff.2 e
    -- the first tree has it all, so no other root is new
    have hnil : s = .nil :=
      hs.eq_nil_of_pending fun v _ => (hroot.mem_seen v).2 (Or.inl (hback v))
    subst hnil
    exact ⟨c, mid, hroot, rfl, fun v =>
      (Forest.postorder_perm_preorder (.node x c .nil)).mem_iff.2 (hback v)⟩

theorem nodup_revOrdering (G : NodeGraph) : (ofNodeGraph G).revOrdering.Nodup :=
  (Forest.postorder_perm_preorder _).nodup_iff.2 (nodup_search G.previous _)

theorem pairwise_revOrdering (G : NodeGraph) : (ofNodeGraph G).revOrdering.Pairwise fun u v =>
    (ofNodeGraph G).revOrder.get u < (ofNodeGraph G).revOrder.get v :=
  pairwise_places (nodup_revOrdering G)

theorem revOrder_lt_of_sublist (h : [u, v].Sublist (ofNodeGraph G).revOrdering) :
    (ofNodeGraph G).revOrder.get u < (ofNodeGraph G).revOrder.get v :=
  places_lt_of_sublist (nodup_revOrdering G) h

/-- The nodes that cannot reach the exit are roots of their own, so none is left out. -/
theorem mem_revOrdering (D : NodeGraph.Depicts g G) (v : G.Node) :
    v ∈ (ofNodeGraph G).revOrdering := by
  apply (Forest.postorder_perm_preorder _).mem_iff.2
  apply (mem_search_iff G.previous _).2
  exact ⟨v, List.mem_append_right _ (mem_ordering D v), .refl v⟩

/-- Along an edge that no walk leads back along `revOrder` rises. -/
theorem revOrder_lt_of_not_reaches (D : NodeGraph.Depicts g G) (hv : v ∈ G.next u)
    (hback : ¬ Reaches (Along G.next) v u) :
    (ofNodeGraph G).revOrder.get u < (ofNodeGraph G).revOrder.get v := by
  obtain ⟨seen, hf⟩ :=
    depthFirst_search G.previous (G.exit.toList ++ (ofNodeGraph G).ordering)
  have hmem := (Forest.postorder_perm_preorder _).mem_iff.1 (mem_revOrdering D v)
  have hturned : ¬ Reaches (Along G.previous) u v := fun h =>
    hback (h.turn fun _ _ e => D.mem_previous_iff.1 e)
  apply revOrder_lt_of_sublist
  exact hf.left_before_of_not_reaches hmem (D.mem_previous_iff.2 hv) hturned

theorem revOrder_injective (hu : u ∈ (ofNodeGraph G).revOrdering)
    (h : (ofNodeGraph G).revOrder.get u = (ofNodeGraph G).revOrder.get v) : u = v :=
  places_injective hu h

theorem revOrder_lt_size (hv : v ∈ (ofNodeGraph G).revOrdering) :
    (ofNodeGraph G).revOrder.get v < G.size := by
  have hlength := (nodup_revOrdering G).length_le_card
  rw [Fintype.card_fin] at hlength
  exact Nat.lt_of_lt_of_le (get_places _ v ▸ List.idxOf_lt_length_of_mem hv) hlength

end Recovery.Numbering

namespace Recovery

theorem NumberedProcedure.exists_build (q : Procedure) (limit : Nat) (hbuilt : q.graph.Built)
    (hentry : q.graph.hasBlock q.graph.entry = true) :
    ∃ p, build q limit = .ok p ∧ NodeGraph.Depicts q.graph p.graph ∧
      p.numbering = Numbering.ofNodeGraph p.graph ∧
      p.postDominators = PostDominators.compute p.graph p.numbering limit := by
  obtain ⟨G, hG, D⟩ := NodeGraph.exists_depicts hbuilt hentry
  rw [build, hG]
  exact ⟨_, rfl, D, rfl, rfl⟩

theorem NumberedProcedure.exists_of_build {q : Procedure} {limit : Nat} {p : NumberedProcedure}
    (hbuilt : q.graph.Built) (h : build q limit = .ok p) :
    ∃ G, NodeGraph.ofGraph? q.graph = some G ∧ NodeGraph.Depicts q.graph G ∧
      p = ⟨q.name, G, G.positions q.graph, Numbering.ofNodeGraph G,
        PostDominators.compute G (Numbering.ofNodeGraph G) limit⟩ := by
  cases hentry : q.graph.hasBlock q.graph.entry with
  | false =>
    rw [build, NodeGraph.ofGraph?_eq_none hentry] at h
    cases h
  | true =>
    obtain ⟨G, hG, D⟩ := NodeGraph.exists_depicts hbuilt hentry
    rw [build, hG] at h
    cases h
    exact ⟨G, hG, D, rfl⟩

theorem StructuredProcedure.ofProcedure_of_build {q : Procedure} {settings : Settings}
    {p : NumberedProcedure} (h : NumberedProcedure.build q settings.walkLimit = .ok p) :
    ofProcedure q settings = .ok p.classify := by
  rw [ofProcedure, h]
  rfl

theorem StructuredProcedure.depicts_of_ofProcedure {q : Procedure} {settings : Settings}
    {s : StructuredProcedure} (hbuilt : q.graph.Built) (h : ofProcedure q settings = .ok s) :
    NodeGraph.Depicts q.graph s.graph ∧ s.numbering = Numbering.ofNodeGraph s.graph := by
  cases hb : NumberedProcedure.build q settings.walkLimit with
  | error e =>
    rw [ofProcedure, hb] at h
    cases h
  | ok p =>
    obtain ⟨G, -, D, rfl⟩ := NumberedProcedure.exists_of_build hbuilt hb
    rw [ofProcedure_of_build hb] at h
    cases h
    exact ⟨D, rfl⟩

/-- Structuring answers, with parts found in a node graph that depicts the graph of the
procedure. -/
theorem StructuredProcedure.exists_ofProcedure (q : Procedure) (settings : Settings)
    (hbuilt : q.graph.Built) (hentry : q.graph.hasBlock q.graph.entry = true) :
    ∃ s, ofProcedure q settings = .ok s ∧ NodeGraph.Depicts q.graph s.graph ∧
      s.numbering = Numbering.ofNodeGraph s.graph ∧
      s.roles = Roles.find s.graph (Numbering.ofNodeGraph s.graph) s.postDominators := by
  obtain ⟨p, hbuild, D, hnumbering, -⟩ :=
    NumberedProcedure.exists_build q settings.walkLimit hbuilt hentry
  refine ⟨p.classify, ofProcedure_of_build hbuild, D, hnumbering, ?_⟩
  show Roles.find p.graph p.numbering p.postDominators = _
  rw [hnumbering]
  rfl

namespace StructuredProcedure
variable {q : Procedure} {settings : Settings} {s : StructuredProcedure}

/-- What structuring is computed to say of the node of a block, it says. -/
theorem exists_node {γ : Type} (hs : ofProcedure q settings = .ok s) (b : BlockId)
    (read : ∀ s : StructuredProcedure, s.graph.Node → Option γ) (x : γ)
    (hfound : ((ofProcedure q settings).toOption.bind fun s =>
      (s.graph.nodeOf? b).bind (read s)) = some x) :
    ∃ v, s.graph.nodeOf? b = some v ∧ read s v = some x := by
  rw [hs] at hfound
  exact Option.bind_eq_some_iff.1 hfound

/-- A loop that structuring is computed to find, with its latch and what is asked of the two. -/
theorem exists_loop (hs : ofProcedure q settings = .ok s) (head latch : BlockId)
    (P : ∀ s : StructuredProcedure, s.graph.Node → s.graph.Node → Prop)
    [∀ s h l, Decidable (P s h l)]
    (hfound : ((ofProcedure q settings).toOption.bind fun s =>
      (s.graph.nodeOf? head).bind fun h => (s.role h).latch.map fun l =>
        (s.graph.blockOf l, decide (P s h l))) = some (latch, true)) :
    ∃ h l, s.graph.blockOf h = head ∧ s.graph.blockOf l = latch ∧ (s.role h).latch = some l ∧
      P s h l := by
  obtain ⟨h, hh, hfound⟩ := exists_node hs head _ _ hfound
  obtain ⟨l, hl, hfound⟩ := Option.map_eq_some_iff.1 hfound
  obtain ⟨hlatch, hP⟩ := Prod.mk.inj hfound
  exact ⟨h, l, NodeGraph.blockOf_of_nodeOf? hh, hlatch, hl, of_decide_eq_true hP⟩

end StructuredProcedure
end Recovery
