import Recovery.Proofs.Structure.LoopRanges
/-
  Who can be the latch of two loops.

  A node is not taken for a latch again by the loop it has been told of. That keeps
  a latch to a single loop as long as it is told of the loop it latches, and not
  when it is numbered above the head of that loop (`LoopRanges`).

  `Ranged` is what holds between the marks. `inner` says that whoever lies in a
  marked loop is told of that loop or of one with a lower head, and `within` that
  a loop whose head is numbered in the range of another has its latch there too,
  so two ranges are nested or apart. A latch numbered no higher than its head then
  is told of a loop inside its own, and another head that it could latch lies
  inside that one; either way the range of the loop it is told of would reach
  below the latch it lies above.
-/

namespace Recovery

namespace Loops
variable {G : NodeGraph} {roles : Roles G.size} {head latch h l v y : G.Node}

theorem loopHead_of_canLatch {g : NodeGraph} {k : Numbering g.size} {roles : Roles g.size}
    {head p : g.Node} (h : canLatch g k roles head p = true) :
    (roles.get p).loopHead = (roles.get head).loopHead ∧
      ∀ x, (roles.get p).loopHead = some x → (roles.get x).latch ≠ some p := by
  simp only [canLatch, Bool.and_eq_true, decide_eq_true_eq] at h
  obtain ⟨⟨⟨-, hsame⟩, hfree⟩, -⟩ := h
  refine ⟨hsame, fun x hx => ?_⟩
  simpa [hx] using hfree

/-- What holds of the ranges of the loops that have been marked. -/
structure Ranged (G : NodeGraph) (roles : Roles G.size) : Prop where
  decide : LatchesDecide G (Numbering.ofNodeGraph G) roles
  told : roles.MembersTold G (Numbering.ofNodeGraph G)
  /-- Whoever lies in a loop is told of one whose head is numbered no higher. -/
  inner : ∀ {h l v}, (roles.get h).latch = some l → Holds G (Numbering.ofNodeGraph G) h l v →
    ∃ y, (roles.get v).loopHead = some y ∧
      (Numbering.ofNodeGraph G).order.get y ≤ (Numbering.ofNodeGraph G).order.get h
  /-- A head numbered in the range of another loop has its latch there too. -/
  within : ∀ {h l x q}, (roles.get h).latch = some l → (roles.get x).latch = some q →
    (Numbering.ofNodeGraph G).order.get x < (Numbering.ofNodeGraph G).order.get h →
    (Numbering.ofNodeGraph G).order.get l ≤ (Numbering.ofNodeGraph G).order.get x →
    (Numbering.ofNodeGraph G).order.get l ≤ (Numbering.ofNodeGraph G).order.get q
  /-- A latch numbered no higher than its head has no other. -/
  single : ∀ {h h' l}, (roles.get h).latch = some l → (roles.get h').latch = some l →
    (Numbering.ofNodeGraph G).order.get l ≤ (Numbering.ofNodeGraph G).order.get h → h' = h

/-! ## The next head -/

/-- What `Ranged` is asked to keep: a head below all others that have a latch, and one
that can latch it. -/
structure Next (G : NodeGraph) (roles : Roles G.size) (head latch : G.Node) : Prop where
  mem : latch ∈ G.previous head
  can : canLatch G (Numbering.ofNodeGraph G) roles head latch = true
  above : ∀ v l, (roles.get v).latch = some l →
    (Numbering.ofNodeGraph G).order.get head < (Numbering.ofNodeGraph G).order.get v

namespace Ranged
variable {g : Graph}

/-- A head and its latch that are told of a loop lie in its range. -/
theorem told_range (R : Ranged G roles) (N : Next G roles head latch)
    (hy : (roles.get head).loopHead = some y) :
    ∃ q, (roles.get y).latch = some q ∧ q ≠ latch ∧
      (Numbering.ofNodeGraph G).order.get q ≤ (Numbering.ofNodeGraph G).order.get head ∧
      (Numbering.ofNodeGraph G).order.get head < (Numbering.ofNodeGraph G).order.get y ∧
      (latch = y ∨
        (Numbering.ofNodeGraph G).order.get q ≤ (Numbering.ofNodeGraph G).order.get latch ∧
        (Numbering.ofNodeGraph G).order.get latch < (Numbering.ofNodeGraph G).order.get y) := by
  obtain ⟨q, hq⟩ := R.decide.loopHead_latched head y hy
  obtain ⟨hsame, hfree⟩ := loopHead_of_canLatch N.can
  have hlatch := hsame.trans hy
  have hrange {v : G.Node} (hv : (roles.get v).loopHead = some y) : v = y ∨
      (Numbering.ofNodeGraph G).order.get q ≤ (Numbering.ofNodeGraph G).order.get v ∧
      (Numbering.ofNodeGraph G).order.get v < (Numbering.ofNodeGraph G).order.get y := by
    refine (R.told v y hv).imp_right fun ⟨q', hq', hmem⟩ => ?_
    cases hq.symm.trans hq'
    exact (Numbering.mem_descending.1 (List.mem_filter.1 hmem).1).2
  have hne : head ≠ y := by
    intro heq
    have hnone := latch_eq_none_of_above N.above
    rw [heq, hq] at hnone
    cases hnone
  obtain ⟨hlow, hhigh⟩ := (hrange hy).resolve_left hne
  exact ⟨q, hq, fun heq => hfree y hlatch (heq ▸ hq), hlow, hhigh, hrange hlatch⟩

/-- A new head in the range of a loop is latched from that range. -/
theorem latch_within (D : NodeGraph.Depicts g G) (R : Ranged G roles) (N : Next G roles head latch)
    (hl : (roles.get h).latch = some l)
    (hlow : (Numbering.ofNodeGraph G).order.get l ≤ (Numbering.ofNodeGraph G).order.get head) :
    (Numbering.ofNodeGraph G).order.get l ≤ (Numbering.ofNodeGraph G).order.get latch := by
  by_contra hout
  have hhigh := N.above h l hl
  -- the head is on the branch of the first search between the other head and its latch
  have hdown : (Numbering.forward G).Below head latch := by
    refine ((Numbering.order_le_iff D (D.mem_previous_iff.1 N.mem)).1 (by omega)).resolve_left ?_
    intro heq
    rw [heq] at hout
    exact hout hlow
  have hbelow : (Numbering.forward G).Below h l := by
    have hedge := D.mem_previous_iff.1 (R.decide.latch_mem h l hl).1
    refine ((Numbering.order_le_iff D hedge).1 (by omega)).resolve_left ?_
    intro heq
    rw [heq] at hlow
    omega
  have hmember : head ∈ members G (Numbering.ofNodeGraph G) h l := by
    rw [members, List.mem_filter, Numbering.mem_descending]
    refine ⟨⟨Numbering.mem_ordering D head, hlow, hhigh⟩, ?_⟩
    rw [Bool.or_eq_true, decide_eq_true_eq, Numbering.isBetween_iff D]
    by_cases heq : head = l
    · exact Or.inl heq
    · have hlt := Nat.lt_of_le_of_ne hlow fun he => heq (Numbering.order_injective D he).symm
      exact Or.inr (Or.inl ⟨Numbering.below_of_order_lt D hbelow hlt hhigh,
        Numbering.below_of_order_lt D hdown (by omega) hlt⟩)
  -- so it is told of a loop inside the other, which its latch lies in as well
  obtain ⟨y, hy, hyh⟩ := R.inner hl (Or.inr hmember)
  obtain ⟨q, hq, -, -, hheady, hlatch⟩ := R.told_range N hy
  rcases hlatch with rfl | ⟨hqlatch, -⟩
  · omega
  · by_cases hyeq : y = h
    · subst hyeq
      cases hl.symm.trans hq
      omega
    · have hlt := Nat.lt_of_le_of_ne hyh fun he => hyeq (Numbering.order_injective D he)
      have := R.within hl hq hlt (by omega)
      omega

/-- A latch that is used again is numbered above the head it had. -/
theorem latch_above (D : NodeGraph.Depicts g G) (R : Ranged G roles) (N : Next G roles head latch)
    (hl : (roles.get h).latch = some latch) :
    (Numbering.ofNodeGraph G).order.get h < (Numbering.ofNodeGraph G).order.get latch := by
  by_contra hin
  obtain ⟨y, hy, hyh⟩ := R.inner hl ((holds_latch_iff D).2 (Nat.not_lt.1 hin))
  rw [(loopHead_of_canLatch N.can).1] at hy
  obtain ⟨q, hq, hne, hqhead, hheady, hlatch⟩ := R.told_range N hy
  have hlt : (Numbering.ofNodeGraph G).order.get y < (Numbering.ofNodeGraph G).order.get h := by
    refine Nat.lt_of_le_of_ne hyh fun he => hne ?_
    obtain rfl := Numbering.order_injective D he
    exact Option.some.inj (hq.symm.trans hl)
  rcases hlatch with rfl | ⟨hqlatch, hlatchy⟩
  · have := R.within hl hq hlt (Nat.le_refl _)
    omega
  · have hle := R.within hl hq hlt (Nat.le_of_lt hlatchy)
    exact hne (Numbering.order_injective D (Nat.le_antisymm hqlatch hle))

theorem mark (D : NodeGraph.Depicts g G) (R : Ranged G roles) (N : Next G roles head latch) :
    Ranged G (Loops.mark G (Numbering.ofNodeGraph G) roles head latch) := by
  have hnew := latch_eq_none_of_above N.above
  -- after the mark a head is the new one, or one of those above it
  have hcases {h l : G.Node}
      (hl : ((Loops.mark G (Numbering.ofNodeGraph G) roles head latch).get h).latch = some l) :
      (head = h ∧ latch = l) ∨ (roles.get h).latch = some l ∧
        (Numbering.ofNodeGraph G).order.get head < (Numbering.ofNodeGraph G).order.get h := by
    exact (latch_mark_eq_some_iff.1 hl).imp (fun ⟨hh, hl⟩ => ⟨hh.symm, hl.symm⟩)
      fun ⟨_, hl⟩ => ⟨hl, N.above _ _ hl⟩
  constructor
  case decide => exact R.decide.mark_below N.mem N.can N.above
  case told => exact membersTold_mark R.told hnew
  case inner =>
    intro h l v hl hv
    rw [loopHead_mark]
    split
    · next hin =>
      refine ⟨head, rfl, ?_⟩
      rcases hcases hl with ⟨rfl, -⟩ | ⟨-, hlt⟩
      · exact Nat.le_refl _
      · exact Nat.le_of_lt hlt
    · next hout =>
      rcases hcases hl with ⟨rfl, rfl⟩ | ⟨hold, -⟩
      · exact absurd hv hout
      · exact R.inner hold hv
  case within =>
    intro h l x q hl hq hlt hlow
    rcases hcases hl with ⟨rfl, rfl⟩ | ⟨hl, hhead⟩
    · rcases hcases hq with ⟨rfl, -⟩ | ⟨-, habove⟩
      · omega
      · omega
    · rcases hcases hq with ⟨rfl, rfl⟩ | ⟨hq, -⟩
      · exact R.latch_within D N hl hlow
      · exact R.within hl hq hlt hlow
  case single =>
    intro h h' l hl hl' hle
    rcases hcases hl with ⟨rfl, rfl⟩ | ⟨hl, hlt⟩
    · rcases hcases hl' with ⟨rfl, -⟩ | ⟨hl', hlt'⟩
      · rfl
      · have := R.latch_above D N hl'
        omega
    · rcases hcases hl' with ⟨rfl, rfl⟩ | ⟨hl', -⟩
      · have := R.latch_above D N hl
        omega
      · exact R.single hl hl' hle

theorem marked (D : NodeGraph.Depicts g G) (links : PostDominators G.size) :
    Ranged G (classify G (Numbering.ofNodeGraph G)
      (Conditionals.classify G (Numbering.ofNodeGraph G) links)) := by
  have hnone := Conditionals.latch_classify (Numbering.ofNodeGraph G) links
  have nolatch := Conditionals.latch_classify_ne_some (Numbering.ofNodeGraph G) links
  apply classify_induction hnone
  · constructor
    case decide => exact .conditionals links (Numbering.mem_ordering D)
    case told =>
      intro v h hv
      rw [Conditionals.loopHead_classify] at hv
      cases hv
    case inner => exact fun hl => absurd hl (nolatch _ _)
    case within => exact fun hl => absurd hl (nolatch _ _)
    case single => exact fun hl => absurd hl (nolatch _ _)
  · exact fun roles head latch R hmem hcan habove => R.mark D ⟨hmem, hcan, habove⟩

end Ranged
end Loops

namespace StructuredProcedure

/-- **A node latches at most one loop it lies in.** Whatever the graph and the walk limit, a latch
that is numbered no higher than one of its heads, as it is when that head dominates it, has no
other head. -/
theorem latch_single (q : Procedure) (settings : Settings) (hbuilt : q.graph.Built)
    (hentry : q.graph.hasBlock q.graph.entry = true) :
    ∃ s, ofProcedure q settings = .ok s ∧ NodeGraph.Depicts q.graph s.graph ∧
      ∀ l h h', (s.role h).latch = some l → (s.role h').latch = some l →
        s.numbering.order.get l ≤ s.numbering.order.get h ∨
          q.graph.Dominates (s.graph.blockOf h) (s.graph.blockOf l) → h' = h := by
  obtain ⟨s, hs, D, hnumbering, hroles⟩ := exists_ofProcedure q settings hbuilt hentry
  refine ⟨s, hs, D, fun l h h' hl hl' hin => ?_⟩
  have R := Loops.Ranged.marked D s.postDominators
  have hlatch (v : s.graph.Node) : (s.role v).latch = ((Loops.classify s.graph
      (Numbering.ofNodeGraph s.graph) (Conditionals.classify s.graph
        (Numbering.ofNodeGraph s.graph) s.postDominators)).get v).latch := by
    show (s.roles.get v).latch = _
    rw [hroles, (Roles.loops_find _ _ _ v).1]
  rw [hlatch] at hl hl'
  refine R.single hl hl' ?_
  rw [← hnumbering]
  refine hin.elim id fun hdom => ?_
  rw [hnumbering]
  exact Numbering.order_le_of_dominates D (D.mem_previous_iff.1 (R.decide.latch_mem h l hl).1) hdom

/-- The latch of a loop that is entered at its head latches no other. -/
theorem latch_single_searching :
    searching.graph.Built ∧ searching.graph.hasBlock searching.graph.entry = true ∧
      ∃ s h l, ofProcedure searching .sequential = .ok s ∧ s.graph.blockOf h = 0 ∧
        s.graph.blockOf l = 3 ∧ (s.role h).latch = some l ∧
        s.numbering.order.get l ≤ s.numbering.order.get h ∧
        ∀ h', (s.role h').latch = some l → h' = h := by
  obtain ⟨s, hs, -, hsingle⟩ := latch_single searching .sequential built_searching (by decide)
  obtain ⟨h, l, hh, hlatch, hl, hle⟩ := latch_in_range_searching hs
  exact ⟨built_searching, by decide, s, h, l, hs, hh, hlatch, hl, hle,
    fun h' hl' => hsingle l h h' hl hl' (Or.inl hle)⟩

/-- Two blocks in a row, both of which a third leads back to. -/
def returning : Procedure :=
  .ofGraph 0 "return" (.empty 4)
    ((Graph.empty 0 3).addBlock (.empty 0 "entry") |>.addBlock (.empty 1 "first")
      |>.addBlock (.empty 2 "second") |>.addBlock (.empty 3 "latch") |>.addEdge 3 1
      |>.addEdge 2 3 |>.addEdge 1 2 |>.addEdge 3 2 |>.addEdge 0 3 |>.addEdge 0 1)

theorem built_returning : returning.graph.Built :=
  .addEdge _ _ (.addEdge _ _ (.addEdge _ _ (.addEdge _ _ (.addEdge _ _ (.addEdge _ _
    (.addBlock _ (.addBlock _ (.addBlock _ (.addBlock _ (.empty 0 3))))))))))

/-- The third is numbered above both, and latches both. -/
theorem latch_shared_returning :
    returning.graph.Built ∧ returning.graph.hasBlock returning.graph.entry = true ∧
      ∃ s h h' l, ofProcedure returning .sequential = .ok s ∧ s.graph.blockOf h = 1 ∧
        s.graph.blockOf h' = 2 ∧ s.graph.blockOf l = 3 ∧ h ≠ h' ∧
        (s.role h).latch = some l ∧ (s.role h').latch = some l := by
  obtain ⟨s, hs, -⟩ := exists_ofProcedure returning .sequential built_returning (by decide)
  obtain ⟨h, hh, hfound⟩ := exists_node hs 1
    (fun s h => (s.graph.nodeOf? 2).bind fun h' => (s.role h).latch.map fun l =>
      (s.graph.blockOf l, decide ((s.role h').latch = some l))) (3, true) (by decide +kernel)
  obtain ⟨h', hh', hfound⟩ := Option.bind_eq_some_iff.1 hfound
  obtain ⟨l, hl, hfound⟩ := Option.map_eq_some_iff.1 hfound
  simp only [Prod.mk.injEq, decide_eq_true_eq] at hfound
  have h1 := NodeGraph.blockOf_of_nodeOf? hh
  have h2 := NodeGraph.blockOf_of_nodeOf? hh'
  have hne : h ≠ h' := by
    intro heq
    rw [heq, h2] at h1
    cases h1
  exact ⟨built_returning, by decide, s, h, h', l, hs, h1, h2, hfound.1, hne, hl, hfound.2⟩

end StructuredProcedure
end Recovery
