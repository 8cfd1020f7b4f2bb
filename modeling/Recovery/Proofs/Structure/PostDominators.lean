import Recovery.Proofs.Structure.Headers
import Recovery.Proofs.Structure.Passes
/-
  Which links are immediate post-dominators.

  A block post-dominates another when every walk from that one to the exit goes
  through it. The numbers of a node graph in which every node leads to the exit
  put the exit on top (`PostDominators.summit`), so what is known of the passes
  holds of the links that are found.

    1. Without cycles every edge goes up, the first pass settles the links, and
       each node but the exit is linked to its immediate post-dominator. Its
       conditional follows there (`follows_at_post_dominator`).
    2. With cycles every link leads elsewhere, and all links are post-dominators
       whenever the second pass, made once more, would move none of them
       (`post_dominates_of_unmoved`). Passes are not repeated until that is so, and
       three may not be enough (`not_post_dominates_tangled`).
-/

namespace Recovery

namespace Graph

/-- Whether every walk from a block to the exit visits another. -/
def PostDominates (g : Graph) (a b : BlockId) : Prop := Guards (Along g.flow) b a g.exit

/-- Of the other blocks that post-dominate a block, the one all of them post-dominate. -/
structure ImmediatelyPostDominates (g : Graph) (a b : BlockId) : Prop where
  postDominates : g.PostDominates a b
  ne : a ≠ b
  closest : ∀ c, c ≠ b → g.PostDominates c b → g.PostDominates c a

/-- Every block leads to the exit when each other one has a way on of lower rank. -/
theorem reaches_exit_of_rank {g : Graph} (rank : BlockId → Nat)
    (h : ∀ b ∈ g.blockIds, b ≠ g.exit → ∃ c ∈ g.flow b, rank c < rank b) {b : BlockId}
    (hb : b ∈ g.blockIds) : Reaches (Along g.flow) b g.exit := by
  induction hrank : rank b using Nat.strongRecOn generalizing b with
  | ind r ih =>
    by_cases hexit : b = g.exit
    · exact hexit ▸ .refl b
    · obtain ⟨c, hc, hlt⟩ := h b hb hexit
      exact .step hc (ih _ (hrank ▸ hlt) (mem_flow.1 hc).2 rfl)

end Graph

theorem NodeGraph.Depicts.exists_exit {g : Graph} {G : NodeGraph} (D : NodeGraph.Depicts g G)
    (hexit : ∀ b, g.Reached b → Reaches (Along g.flow) b g.exit) :
    ∃ x, G.blockOf x = g.exit ∧ G.exit = some x ∧ ∀ v, Reaches (Along G.next) v x := by
  obtain ⟨x, hx⟩ := D.exists_node (hexit _ (.refl _))
  refine ⟨x, hx, D.exit_eq_some_iff.2 hx, fun v => ?_⟩
  rw [D.reaches_iff, hx]
  exact hexit _ (D.reached_blockOf v)

/-! ## The numbers of a node graph that leads to its exit -/

namespace PostDominators
variable {g : Graph} {G : NodeGraph} {x v w : G.Node} {limit : Nat}

theorem summit (D : NodeGraph.Depicts g G) (hexit : G.exit = some x)
    (hreach : ∀ v, Reaches (Along G.next) v x) (hstop : G.next x = []) :
    Summit G (Numbering.ofNodeGraph G) x := by
  obtain ⟨c, seen, hf, hrev, hall⟩ := Numbering.exists_against D hexit hreach
  refine ⟨fun v hv => ?_, fun v hv => ?_, hstop,
    fun v => Numbering.revOrder_lt_size (hrev ▸ hall v),
    fun u _ => Numbering.revOrder_injective (hrev ▸ hall u)⟩
  · have hvc : v ∈ c.postorder := (List.mem_append.1 (hall v)).resolve_right
      fun h => hv (List.mem_singleton.1 h)
    refine Numbering.revOrder_lt_of_sublist ?_
    rw [hrev]
    exact (List.singleton_sublist.2 hvc).append (List.Sublist.refl [x])
  · -- what stands above a node in the tree against the edges is where it leads
    have hmem : v ∈ (Forest.node x c .nil).preorder :=
      (Forest.postorder_perm_preorder (.node x c .nil)).mem_iff.1 (hall v)
    rcases hf.parent hmem with hx | ⟨s, -, hs, hsub⟩
    · exact absurd (List.mem_singleton.1 hx) hv
    · refine ⟨s, D.mem_previous_iff.1 hs, Numbering.revOrder_lt_of_sublist ?_⟩
      rw [hrev]
      exact hsub

theorem standing (D : NodeGraph.Depicts g G) (hexit : G.exit = some x)
    (hreach : ∀ v, Reaches (Along G.next) v x) (hstop : G.next x = [])
    (hlimit : 2 * G.size ≤ limit) :
    Standing G (Numbering.ofNodeGraph G) x (compute G (Numbering.ofNodeGraph G) limit) :=
  standing_compute (summit D hexit hreach hstop) hlimit (Numbering.mem_revOrdering D)
    (Numbering.pairwise_revOrdering G)

theorem settled_of_acyclic (D : NodeGraph.Depicts g G) (hexit : G.exit = some x)
    (hreach : ∀ v, Reaches (Along G.next) v x) (hacyclic : Acyclic (Along G.next))
    (hlimit : 2 * G.size ≤ limit) :
    Ascended G (Numbering.ofNodeGraph G) x [] (compute G (Numbering.ofNodeGraph G) limit) ∧
      Settled G (compute G (Numbering.ofNodeGraph G) limit) := by
  have hstop : G.next x = [] :=
    List.eq_nil_iff_forall_not_mem.2 fun w hw => hacyclic x w hw (hreach w)
  have hrise (v s : G.Node) (hs : s ∈ G.next v) :=
    Numbering.revOrder_lt_of_not_reaches D hs (hacyclic v s hs)
  have A := ascended_compute (summit D hexit hreach hstop) hlimit
    (Numbering.mem_revOrdering D) (Numbering.pairwise_revOrdering G) hrise
    fun v s hs => Numbering.isBackEdge_eq_false D hacyclic hs
  exact ⟨A, A.settled hrise⟩

theorem Settled.postDominates (D : NodeGraph.Depicts g G) (hexit : G.exit = some x)
    {links : PostDominators G.size} (h : Settled G links) (hnone : links.get x = none)
    {a : G.Node} (hv : links.get v = some a) : g.PostDominates (G.blockOf a) (G.blockOf v) := by
  rw [Graph.PostDominates, ← D.exit_eq_some_iff.1 hexit, ← D.guards_iff]
  exact h.guards hnone (.step hv (.stop a))

/-- Faithful links lead to the closest post-dominators. -/
theorem Faithful.postDominates (D : NodeGraph.Depicts g G) (hexit : G.exit = some x)
    (hreach : ∀ v, Reaches (Along G.next) v x) {k : Numbering G.size}
    {links : PostDominators G.size} (F : Faithful G k x links) {a : G.Node}
    (hv : links.get v = some a) {c : BlockId} (hc : c ≠ G.blockOf v)
    (hpost : g.PostDominates c (G.blockOf v)) : g.PostDominates c (G.blockOf a) := by
  have hx : G.blockOf x = g.exit := D.exit_eq_some_iff.1 hexit
  obtain ⟨vs, hw⟩ := hreach v
  obtain ⟨y, -, rfl⟩ := List.mem_map.1 (hpost _ (hx ▸ D.walk_blocks hw))
  rw [Graph.PostDominates, ← hx, ← D.guards_iff] at hpost ⊢
  exact F.guards_link v a y hv (fun h => hc (congrArg G.blockOf h)) hpost

end PostDominators

/-! ## Follows -/

/-- A choice that is not left to the loops follows where it is linked to. -/
theorem Conditionals.follow_classify_of_ahead {G : NodeGraph} {k : Numbering G.size}
    {links : PostDominators G.size} {v : G.Node} (hv : v ∈ k.ordering)
    (hchoice : 2 ≤ (G.next v).length)
    (hahead : (Numbering.hasBackEdge G k v && decide (G.branching v = .twoWay)) = false) :
    ((classify G k links).get v).follow = links.get v := by
  refine foldl_classifyOne k links (P := fun r => r.follow = links.get v) (fun state => ?_)
    (fun _ _ h => h) _ _ (Or.inl (List.mem_filter.2 ⟨hv, NodeGraph.isConditional_iff.2 hchoice⟩))
  obtain ⟨c, hc⟩ := get_classifyOne G k links state v v
  rw [hc, if_pos rfl, followAt, hahead]
  rfl

theorem Conditionals.follow_classify {G : NodeGraph} {k : Numbering G.size}
    {links : PostDominators G.size} {v : G.Node} (hv : v ∈ k.ordering)
    (hchoice : 2 ≤ (G.next v).length) (hback : Numbering.hasBackEdge G k v = false) :
    ((classify G k links).get v).follow = links.get v :=
  follow_classify_of_ahead hv hchoice (by rw [hback, Bool.false_and])

theorem Roles.follow_find (G : NodeGraph) (k : Numbering G.size) (links : PostDominators G.size)
    (v : G.Node) :
    ((find G k links).get v).follow = ((Conditionals.classify G k links).get v).follow := by
  obtain ⟨_, _, _, _, _, _, _, hv⟩ := exists_get_find G k links v
  rw [hv]

theorem NumberedProcedure.follow_classify {g : Graph} {p : NumberedProcedure}
    (D : NodeGraph.Depicts g p.graph) (hnumbering : p.numbering = Numbering.ofNodeGraph p.graph)
    (hacyclic : Acyclic (Along p.graph.next)) {n : p.graph.Node}
    (hchoice : 2 ≤ (p.graph.next n).length) :
    (p.classify.role n).follow = p.postDominators.get n := by
  show ((Roles.find p.graph p.numbering p.postDominators).get n).follow = _
  rw [Roles.follow_find, hnumbering]
  exact Conditionals.follow_classify (Numbering.mem_ordering D n) hchoice
    (Numbering.hasBackEdge_eq_false D hacyclic)

/-! ## Procedures without cycles -/

namespace StructuredProcedure

/-- **Exactness without cycles.** When the entry reaches no cycle, every block
it reaches leads to the exit, and the limit is at least twice the number of nodes,
each node but the exit is linked to its immediate post-dominator, and follows
there if it has a choice. -/
theorem follows_at_post_dominator (q : Procedure) (settings : Settings)
    (hbuilt : q.graph.Built) (hentry : q.graph.hasBlock q.graph.entry = true)
    (hacyclic : ∀ b c, q.graph.Reached b → c ∈ q.graph.flow b →
      ¬ Reaches (Along q.graph.flow) c b)
    (hexit : ∀ b, q.graph.Reached b → Reaches (Along q.graph.flow) b q.graph.exit) :
    ∃ p, NumberedProcedure.build q settings.walkLimit = .ok p ∧
      ofProcedure q settings = .ok p.classify ∧
      (2 * p.graph.size ≤ settings.walkLimit → ∀ n,
        (p.graph.blockOf n = q.graph.exit → p.postDominators.get n = none) ∧
        (p.graph.blockOf n ≠ q.graph.exit → ∃ m, p.postDominators.get n = some m ∧
          q.graph.ImmediatelyPostDominates (p.graph.blockOf m) (p.graph.blockOf n)) ∧
        (2 ≤ (p.graph.next n).length →
          (p.classify.role n).follow = p.postDominators.get n)) := by
  obtain ⟨p, hbuild, D, hnumbering, hlinks⟩ :=
    NumberedProcedure.exists_build q settings.walkLimit hbuilt hentry
  refine ⟨p, hbuild, ofProcedure_of_build hbuild, fun hlimit n => ?_⟩
  rw [hnumbering] at hlinks
  obtain ⟨x, hx, hsome, hreach⟩ := D.exists_exit hexit
  have hturnless := D.acyclic hacyclic
  obtain ⟨A, hsettled⟩ := PostDominators.settled_of_acyclic D hsome hreach hturnless hlimit
  rw [← hlinks] at A hsettled
  refine ⟨fun hn => ?_, fun hn => ?_,
    fun hchoice => p.follow_classify D hnumbering hturnless hchoice⟩
  · rw [D.blockOf_injective (hn.trans hx.symm)]
    exact A.exit
  · obtain ⟨s, hs⟩ : ∃ s, s ∈ p.graph.next n := by
      obtain ⟨vs, hw⟩ := hreach n
      cases hw with
      | stop => exact absurd hx hn
      | step e _ => exact ⟨_, e⟩
    obtain ⟨m, hm, -⟩ := hsettled n s hs
    refine ⟨m, hm, hsettled.postDominates D hsome A.exit hm, fun heq => ?_,
      fun c => A.faithful.postDominates D hsome hreach hm⟩
    have hnm := A.faithful.rising n m hm
    rw [D.blockOf_injective heq] at hnm
    exact Nat.lt_irrefl _ hnm

/-- A choice inside a choice, joined twice. -/
def choosing : Procedure :=
  .ofGraph 0 "choose" (.empty 4)
    ((Graph.empty 0 5).addBlock (.empty 0 "outer") |>.addBlock (.empty 1 "inner")
      |>.addBlock (.empty 2 "left") |>.addBlock (.empty 3 "right") |>.addBlock (.empty 4 "joined")
      |>.addBlock (.empty 5 "done") |>.addEdge 0 1 |>.addEdge 0 5 |>.addEdge 1 2 |>.addEdge 1 3
      |>.addEdge 2 4 |>.addEdge 3 4 |>.addEdge 4 5)

theorem built_choosing : choosing.graph.Built :=
  .addEdge _ _ (.addEdge _ _ (.addEdge _ _ (.addEdge _ _ (.addEdge _ _ (.addEdge _ _ (.addEdge _ _
    (.addBlock _ (.addBlock _ (.addBlock _ (.addBlock _ (.addBlock _
      (.addBlock _ (.empty 0 5)))))))))))))

theorem acyclic_choosing : Acyclic (Along choosing.graph.flow) :=
  .of_rank id fun u v h =>
    (by decide : ∀ e ∈ choosing.graph.edges, e.1 < e.2) (u, v)
      (Graph.mem_successors.1 (Graph.mem_flow.1 h).1)

theorem reaches_exit_choosing {b : BlockId} (hb : choosing.graph.Reached b) :
    Reaches (Along choosing.graph.flow) b choosing.graph.exit :=
  Graph.reaches_exit_of_rank (5 - ·) (by decide)
    (Graph.mem_blockIds_of_reaches hb (by decide))

/-- Each of its blocks is linked to its immediate post-dominator, and both choices follow there. -/
theorem follows_at_post_dominator_choosing :
    choosing.graph.Built ∧ choosing.graph.hasBlock choosing.graph.entry = true ∧
      (∀ b c, choosing.graph.Reached b → c ∈ choosing.graph.flow b →
        ¬ Reaches (Along choosing.graph.flow) c b) ∧
      (∀ b, choosing.graph.Reached b →
        Reaches (Along choosing.graph.flow) b choosing.graph.exit) ∧
      ∃ p, NumberedProcedure.build choosing 12 = .ok p ∧
        ofProcedure choosing (Settings.sequential.withWalkLimit 12) = .ok p.classify ∧
        2 * p.graph.size ≤ 12 ∧ ∀ n,
          (p.graph.blockOf n = 5 → p.postDominators.get n = none) ∧
          (p.graph.blockOf n ≠ 5 → ∃ m, p.postDominators.get n = some m ∧
            choosing.graph.ImmediatelyPostDominates (p.graph.blockOf m) (p.graph.blockOf n)) ∧
          (2 ≤ (p.graph.next n).length →
            (p.classify.role n).follow = p.postDominators.get n) := by
  refine ⟨built_choosing, by decide, fun b c _ => acyclic_choosing b c,
    fun b => reaches_exit_choosing, ?_⟩
  obtain ⟨p, hbuild, hproc, hexact⟩ := follows_at_post_dominator choosing
    (Settings.sequential.withWalkLimit 12) built_choosing (by decide)
    (fun b c _ => acyclic_choosing b c) fun b => reaches_exit_choosing
  obtain ⟨p', hbuild', D, -⟩ :=
    NumberedProcedure.exists_build choosing 12 built_choosing (by decide)
  obtain rfl : p' = p := Except.ok.inj (hbuild'.symm.trans hbuild)
  have hsize : 2 * p'.graph.size ≤ 12 := Nat.mul_le_mul_left 2 D.size_le
  exact ⟨p', hbuild', hproc, hsize, hexact hsize⟩

end StructuredProcedure

/-! ## Procedures with cycles -/

namespace NumberedProcedure
open StructuredProcedure (searching built_searching)

/-- **With cycles.** When every block the entry reaches leads to the exit, which
leads nowhere, and the limit is at least twice the number of nodes, no node
is linked to itself, and if the second pass would move no link then all of them
are post-dominators. -/
theorem post_dominates_of_unmoved (q : Procedure) (walkLimit : Nat) (hbuilt : q.graph.Built)
    (hentry : q.graph.hasBlock q.graph.entry = true)
    (hexit : ∀ b, q.graph.Reached b → Reaches (Along q.graph.flow) b q.graph.exit)
    (hstop : q.graph.flow q.graph.exit = []) :
    ∃ p, build q walkLimit = .ok p ∧ (2 * p.graph.size ≤ walkLimit →
      (∀ n m, p.postDominators.get n = some m → m ≠ n) ∧
      (PostDominators.branch p.graph p.numbering walkLimit p.postDominators = p.postDominators →
        ∀ n m, p.postDominators.get n = some m →
          q.graph.PostDominates (p.graph.blockOf m) (p.graph.blockOf n))) := by
  obtain ⟨p, hbuild, D, hnumbering, hlinks⟩ := exists_build q walkLimit hbuilt hentry
  refine ⟨p, hbuild, fun hlimit => ?_⟩
  obtain ⟨x, hx, hsome, hreach⟩ := D.exists_exit hexit
  have hnil : p.graph.next x = [] := by
    rw [← List.map_eq_nil_iff (f := p.graph.blockOf), D.map_next, hx, hstop]
  have S := PostDominators.summit D hsome hreach hnil
  have St := PostDominators.standing D hsome hreach hnil hlimit
  rw [hnumbering] at hlinks ⊢
  rw [← hlinks] at St
  refine ⟨fun n m hn hmn => ?_, fun hbranch n m hn => ?_⟩
  · exact absurd (St.rising n m hn) (hmn ▸ Nat.lt_irrefl _)
  · have hsettled :=
      PostDominators.Settled.of_branch_eq S St hlimit (Numbering.mem_ordering D) hbranch
    exact hsettled.postDominates D hsome St.exit hn

/-- No link of a loop with a way out at its head would move. -/
theorem post_dominates_of_unmoved_searching :
    searching.graph.Built ∧ searching.graph.hasBlock searching.graph.entry = true ∧
      (∀ b, searching.graph.Reached b →
        Reaches (Along searching.graph.flow) b searching.graph.exit) ∧
      searching.graph.flow searching.graph.exit = [] ∧
      ∃ p, build searching 10 = .ok p ∧ 2 * p.graph.size ≤ 10 ∧
        ∀ n m, p.postDominators.get n = some m → m ≠ n ∧
          searching.graph.PostDominates (p.graph.blockOf m) (p.graph.blockOf n) := by
  have hexit (b : BlockId) (hb : searching.graph.Reached b) :
      Reaches (Along searching.graph.flow) b searching.graph.exit :=
    Graph.reaches_exit_of_rank ([1, 3, 3, 2, 0].getD · 0) (by decide)
      (Graph.mem_blockIds_of_reaches hb (by decide))
  refine ⟨built_searching, by decide, hexit, by decide, ?_⟩
  obtain ⟨p, hbuild, hexact⟩ :=
    post_dominates_of_unmoved searching 10 built_searching (by decide) hexit (by decide)
  obtain ⟨p', hbuild', D, -⟩ := exists_build searching 10 built_searching (by decide)
  obtain rfl : p' = p := Except.ok.inj (hbuild'.symm.trans hbuild)
  have hsize : 2 * p'.graph.size ≤ 10 := Nat.mul_le_mul_left 2 D.size_le
  have hbranch : (build searching 10).toOption.all (fun p => decide (PostDominators.branch
      p.graph p.numbering 10 p.postDominators = p.postDominators)) = true := by
    decide +kernel
  rw [hbuild] at hbranch
  obtain ⟨hne, hpost⟩ := hexact hsize
  exact ⟨p', hbuild, hsize, fun n m h => ⟨hne n m h, hpost (of_decide_eq_true hbranch) n m h⟩⟩

/-- Two loops that share a block, each with ways out of its own. -/
def tangled : Procedure :=
  .ofGraph 0 "tangle" (.empty 4)
    ((Graph.empty 0 5).addBlock (.empty 0 "b0") |>.addBlock (.empty 1 "b1")
      |>.addBlock (.empty 2 "b2") |>.addBlock (.empty 3 "b3") |>.addBlock (.empty 4 "b4")
      |>.addBlock (.empty 5 "b5") |>.addEdge 0 1 |>.addEdge 2 3 |>.addEdge 0 4 |>.addEdge 2 0
      |>.addEdge 3 2 |>.addEdge 3 4 |>.addEdge 1 2 |>.addEdge 4 5 |>.addEdge 1 5)

theorem built_tangled : tangled.graph.Built :=
  .addEdge _ _ (.addEdge _ _ (.addEdge _ _ (.addEdge _ _ (.addEdge _ _ (.addEdge _ _ (.addEdge _ _
    (.addEdge _ _ (.addEdge _ _ (.addBlock _ (.addBlock _ (.addBlock _ (.addBlock _ (.addBlock _
      (.addBlock _ (.empty 0 5)))))))))))))))

/-- `b3` is linked to `b4`, though a walk by `b2`, `b0` and `b1` misses it: the link of
`b2` is moved past `b4` only in the third pass, when `b3` has had its turn. -/
theorem not_post_dominates_tangled :
    tangled.graph.Built ∧ tangled.graph.hasBlock tangled.graph.entry = true ∧
      (∀ b, tangled.graph.Reached b → Reaches (Along tangled.graph.flow) b tangled.graph.exit) ∧
      tangled.graph.flow tangled.graph.exit = [] ∧
      ∃ p n m, build tangled 12 = .ok p ∧ 2 * p.graph.size ≤ 12 ∧
        p.postDominators.get n = some m ∧
        ¬ tangled.graph.PostDominates (p.graph.blockOf m) (p.graph.blockOf n) := by
  have hexit (b : BlockId) (hb : tangled.graph.Reached b) :
      Reaches (Along tangled.graph.flow) b tangled.graph.exit :=
    Graph.reaches_exit_of_rank ([2, 1, 3, 2, 1, 0].getD · 0) (by decide)
      (Graph.mem_blockIds_of_reaches hb (by decide))
  obtain ⟨p, hbuild, D, -⟩ := exists_build tangled 12 built_tangled (by decide)
  have hlink : ((build tangled 12).toOption.bind fun p =>
      ((p.graph.nodeOf? 3).bind p.postDominators.get).map p.graph.blockOf) = some 4 := by
    decide +kernel
  rw [hbuild] at hlink
  obtain ⟨m, hm, hm4⟩ := Option.map_eq_some_iff.1 hlink
  obtain ⟨n, hn, hnm⟩ := Option.bind_eq_some_iff.1 hm
  refine ⟨built_tangled, by decide, hexit, by decide, p, n, m, hbuild,
    Nat.mul_le_mul_left 2 D.size_le, hnm, fun hpost => ?_⟩
  rw [hm4, NodeGraph.blockOf_of_nodeOf? hn] at hpost
  have hwalk : Walk (Along tangled.graph.flow) 3 5 [3, 2, 0, 1, 5] :=
    .step (by decide : 2 ∈ _) (.step (by decide : 0 ∈ _) (.step (by decide : 1 ∈ _)
      (.step (by decide : 5 ∈ _) (.stop 5))))
  exact absurd (hpost _ hwalk) (by decide)

end NumberedProcedure
end Recovery
