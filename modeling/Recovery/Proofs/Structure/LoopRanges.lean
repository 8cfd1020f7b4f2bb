import Recovery.Proofs.Structure.BackEdges
import Recovery.Proofs.Structure.LoopFollow
import Recovery.Proofs.Structure.Numbers
/-
  The range of numbers that a loop is collected from.

  The members of a loop are looked for among the nodes numbered from its latch up
  to its head. The numbers are those of the first search, and a latch need only
  go back to its head in one of the two:

    1. an edge leads to a node numbered no lower exactly when its source is that
       node or hangs below it in the first search (`Numbering.order_le_iff`);
    2. so a latch that goes back in the second search alone is numbered above its
       head. The range is empty then, and not even the latch is told of the loop
       (`StructuredProcedure.told_iff_in_range`);
    3. a head that dominates its latch is above it in the first search, so its
       latch is told.

  The parts of a node graph are looked at twice: when the turn of a head comes
  (`Loops.before`), and after its loop has been marked.
-/

namespace Recovery

namespace Numbering
variable {g : Graph} {G : NodeGraph} {u v w : G.Node}

theorem order_injective (D : NodeGraph.Depicts g G)
    (h : (ofNodeGraph G).order.get u = (ofNodeGraph G).order.get v) : u = v :=
  places_injective (mem_ordering D u) h

theorem order_lt_of_forward_below (D : NodeGraph.Depicts g G) (h : (forward G).Below v u) :
    (ofNodeGraph G).order.get u < (ofNodeGraph G).order.get v := by
  have hencloses := (encloses_stamps_iff D v u).2 h
  rw [Stamps.encloses, Bool.and_eq_true, decide_eq_true_eq, decide_eq_true_eq] at hencloses
  exact (order_lt_iff_leave D).2 hencloses.2

/-- Along an edge the number does not fall when it leads to its source, or back up in the
first search. -/
theorem order_le_iff (D : NodeGraph.Depicts g G) (hv : v ∈ G.next u) :
    (ofNodeGraph G).order.get u ≤ (ofNodeGraph G).order.get v ↔
      u = v ∨ (forward G).Below v u := by
  constructor
  · intro hle
    obtain ⟨seen, hf⟩ := depthFirst_search G.next [G.entry]
    rcases hf.left_before_or_below (mem_forward D u) hv with hseen | heq | hbelow | hsub
    · cases hseen
    · exact Or.inl heq.symm
    · exact Or.inr hbelow
    · exact absurd (order_lt_of_sublist hsub) (Nat.not_lt.2 hle)
  · rintro (rfl | hbelow)
    · exact Nat.le_refl _
    · exact Nat.le_of_lt (order_lt_of_forward_below D hbelow)

theorem order_le_of_dominates (D : NodeGraph.Depicts g G) (hv : v ∈ G.next u)
    (hdom : g.Dominates (G.blockOf v) (G.blockOf u)) :
    (ofNodeGraph G).order.get u ≤ (ofNodeGraph G).order.get v := by
  have hguards : Guards (Along G.next) G.entry v u := D.guards_iff.2 (D.blockOf_entry ▸ hdom)
  exact (order_le_iff D hv).2 ((eq_or_below_of_guards (D.reaches_entry u) hguards).imp_left Eq.symm)

/-- What is numbered between a node and another below it hangs below it too. -/
theorem below_of_order_lt (D : NodeGraph.Depicts g G) (h : (forward G).Below v u)
    (hlow : (ofNodeGraph G).order.get u < (ofNodeGraph G).order.get w)
    (hhigh : (ofNodeGraph G).order.get w < (ofNodeGraph G).order.get v) :
    (forward G).Below v w := by
  have L := (lawful_ofNodeGraph D).stamps
  have hencloses := (encloses_stamps_iff D v u).2 h
  rw [order_lt_iff_leave D] at hlow hhigh
  have hu := L.enter_lt_leave u
  have hw := L.enter_lt_leave w
  have hvw : v ≠ w := fun h => by
    rw [h] at hhigh
    exact Nat.lt_irrefl _ hhigh
  rw [Stamps.encloses, Bool.and_eq_true, decide_eq_true_eq, decide_eq_true_eq] at hencloses
  rcases L.nested_or_apart v w hvw with hin | hout | hapart
  · exact (encloses_stamps_iff D v w).1 hin
  · rw [Stamps.encloses, Bool.and_eq_true, decide_eq_true_eq, decide_eq_true_eq] at hout
    omega
  · rw [Stamps.Apart] at hapart
    omega

end Numbering

/-! ## The turn of a head -/

namespace Loops
variable {G : NodeGraph}

/-- The parts when the turn of a node comes to be tried as a head. -/
def before (g : NodeGraph) (k : Numbering g.size) (roles : Roles g.size) (head : g.Node) :
    Roles g.size :=
  (k.ordering.reverse.takeWhile fun v => decide (v ≠ head)).foldl (markAt g k) roles

theorem exists_eq_takeWhile_append {α : Type} [DecidableEq α] {l : List α} {a : α} (ha : a ∈ l) :
    ∃ rest, l = (l.takeWhile fun x => decide (x ≠ a)) ++ a :: rest := by
  induction l with
  | nil => cases ha
  | cons x l ih =>
    by_cases hx : x = a
    · exact ⟨l, by simp [hx]⟩
    · obtain ⟨rest, hrest⟩ := ih ((List.mem_cons.1 ha).resolve_left (Ne.symm hx))
      refine ⟨rest, ?_⟩
      rw [List.takeWhile_cons_of_pos (by simpa using hx), List.cons_append, ← hrest]

theorem latch_foldl_markAt {k : Numbering G.size} {v : G.Node} (heads : List G.Node)
    (hv : v ∉ heads) :
    ∀ roles : Roles G.size,
      ((heads.foldl (markAt G k) roles).get v).latch = (roles.get v).latch := by
  induction heads with
  | nil => exact fun _ => rfl
  | cons head heads ih =>
    intro roles
    rw [List.mem_cons, not_or] at hv
    rw [List.foldl_cons, ih hv.2, markAt]
    split
    · rw [latch_mark, if_neg (Ne.symm hv.1)]
    · rfl

theorem latch_markAt {k : Numbering G.size} {roles : Roles G.size} {head : G.Node}
    (hnone : (roles.get head).latch = none) :
    ((markAt G k roles head).get head).latch = latch? G k roles head := by
  rw [markAt]
  split
  · next hl => rw [latch_mark, if_pos rfl, hl]
  · next hl => rw [hnone, hl]

section
variable {g : Graph} {roles : Roles G.size}

/-- Before its turn a head has no latch, and it keeps the one that it is given then. -/
theorem latch_before_classify (D : NodeGraph.Depicts g G)
    (hnone : ∀ v, (roles.get v).latch = none) (head : G.Node) :
    ((before G (Numbering.ofNodeGraph G) roles head).get head).latch = none ∧
    ((classify G (Numbering.ofNodeGraph G) roles).get head).latch =
      latch? G (Numbering.ofNodeGraph G) (before G (Numbering.ofNodeGraph G) roles head) head := by
  obtain ⟨rest, hrest⟩ := exists_eq_takeWhile_append
    (List.mem_reverse.2 (Numbering.mem_ordering D head))
  have hnodup := List.nodup_reverse.2 (Numbering.nodup_ordering G)
  rw [hrest] at hnodup
  obtain ⟨-, hlater, hapart⟩ := List.nodup_append.1 hnodup
  have hnew : ((before G (Numbering.ofNodeGraph G) roles head).get head).latch = none := by
    rw [before, latch_foldl_markAt _ fun h => hapart head h head List.mem_cons_self rfl, hnone]
  refine ⟨hnew, ?_⟩
  rw [classify, hrest, List.foldl_append, List.foldl_cons,
    latch_foldl_markAt rest (List.nodup_cons.1 hlater).1]
  exact latch_markAt hnew

theorem latchesDecide_before (h : LatchesDecide G (Numbering.ofNodeGraph G) roles)
    (hnone : ∀ v, (roles.get v).latch = none) (head : G.Node) :
    LatchesDecide G (Numbering.ofNodeGraph G)
      (before G (Numbering.ofNodeGraph G) roles head) := by
  apply foldl_markAt_induction (fun _ _ _ h hmem hcan habove => h.mark_below hmem hcan habove)
    _ _ roles h
  · intro v l hl
    rw [hnone] at hl
    cases hl
  · apply List.Pairwise.sublist (List.takeWhile_sublist _)
    rw [List.pairwise_reverse]
    exact Numbering.pairwise_ordering G

end

/-! ## The range of a loop -/

section
variable {g : Graph} {roles : Roles G.size} {head latch v : G.Node}

theorem holds_latch_iff (D : NodeGraph.Depicts g G) :
    Holds G (Numbering.ofNodeGraph G) head latch latch ↔
      (Numbering.ofNodeGraph G).order.get latch ≤ (Numbering.ofNodeGraph G).order.get head := by
  have hmem : latch ∈ members G (Numbering.ofNodeGraph G) head latch ↔
      (Numbering.ofNodeGraph G).order.get latch < (Numbering.ofNodeGraph G).order.get head := by
    rw [members, List.mem_filter, Numbering.mem_descending]
    simp [Numbering.mem_ordering D latch]
  rw [Holds, hmem, Nat.le_iff_lt_or_eq, or_comm]
  exact or_congr_right ⟨fun h => h ▸ rfl, Numbering.order_injective D⟩

theorem members_eq_nil
    (h : (Numbering.ofNodeGraph G).order.get head < (Numbering.ofNodeGraph G).order.get latch) :
    members G (Numbering.ofNodeGraph G) head latch = [] := by
  rw [List.eq_nil_iff_forall_not_mem]
  intro v hv
  obtain ⟨-, hlow, hhigh⟩ := Numbering.mem_descending.1 (List.mem_filter.1 hv).1
  omega

theorem loopHead_mark_eq_iff {k : Numbering G.size} (hnew : (roles.get v).loopHead ≠ some head) :
    ((mark G k roles head latch).get v).loopHead = some head ↔ Holds G k head latch v := by
  rw [loopHead_mark]
  split
  · next hin => exact iff_of_true rfl hin
  · next hout => exact iff_of_false hnew hout

end
end Loops

namespace StructuredProcedure

/-- The parts when the turn of a node comes to be tried as the head of a loop. -/
def before (s : StructuredProcedure) (h : s.graph.Node) : Roles s.graph.size :=
  Loops.before s.graph s.numbering (Conditionals.classify s.graph s.numbering s.postDominators) h

/-- **Who is told of a loop.** Whatever the graph and the walk limit, every head has the latch
chosen at its turn. Once the loop is marked the latch is told of it exactly when it is numbered
no higher than the head, that is, when it is the head or hangs below it in the first search, as
it does when the head dominates it. Else nobody but the head is told, then or later. -/
theorem told_iff_in_range (q : Procedure) (settings : Settings) (hbuilt : q.graph.Built)
    (hentry : q.graph.hasBlock q.graph.entry = true) :
    ∃ s, ofProcedure q settings = .ok s ∧ NodeGraph.Depicts q.graph s.graph ∧
      ∀ h, (s.role h).latch = Loops.latch? s.graph s.numbering (s.before h) h ∧
        ∀ l, (s.role h).latch = some l →
          (((Loops.mark s.graph s.numbering (s.before h) h l).get l).loopHead = some h ↔
            s.numbering.order.get l ≤ s.numbering.order.get h) ∧
          (s.numbering.order.get l ≤ s.numbering.order.get h ↔
            l = h ∨ (s.numbering.stamps.get h).encloses (s.numbering.stamps.get l) = true) ∧
          (q.graph.Dominates (s.graph.blockOf h) (s.graph.blockOf l) →
            s.numbering.order.get l ≤ s.numbering.order.get h) ∧
          (s.numbering.order.get h < s.numbering.order.get l → ∀ v,
            ((Loops.mark s.graph s.numbering (s.before h) h l).get v).loopHead = some h ∨
              (s.role v).loopHead = some h → v = h) := by
  obtain ⟨s, hs, D, hnumbering, hroles⟩ := exists_ofProcedure q settings hbuilt hentry
  refine ⟨s, hs, D, fun h => ?_⟩
  have hnone := Conditionals.latch_classify (Numbering.ofNodeGraph s.graph) s.postDominators
  obtain ⟨hnew, hchosen⟩ := Loops.latch_before_classify D hnone h
  have hdecide : LatchesDecide s.graph (Numbering.ofNodeGraph s.graph) s.roles :=
    hroles ▸ LatchesDecide.find D s.postDominators
  have htold : s.roles.MembersTold s.graph (Numbering.ofNodeGraph s.graph) :=
    hroles ▸ Roles.membersTold_find s.graph s.postDominators
  have hchosen' : (s.role h).latch = Loops.latch? s.graph s.numbering (s.before h) h := by
    show (s.roles.get h).latch = _
    rw [before, hnumbering, hroles, (Roles.loops_find _ _ _ h).1, hchosen]
  refine ⟨hchosen', fun l hl => ?_⟩
  obtain ⟨hmem, hback⟩ := hdecide.latch_mem h l hl
  have hedge := D.mem_previous_iff.1 hmem
  -- before its turn the head has no latch, so nobody has been told of its loop
  have hbefore := Loops.latchesDecide_before
    (.conditionals s.postDominators (Numbering.mem_ordering D)) hnone h
  have hfresh (v : s.graph.Node) : ((Loops.before s.graph (Numbering.ofNodeGraph s.graph)
      (Conditionals.classify s.graph (Numbering.ofNodeGraph s.graph) s.postDominators) h).get
        v).loopHead ≠ some h := by
    intro hv
    obtain ⟨x, hx⟩ := hbefore.loopHead_latched v h hv
    cases hnew.symm.trans hx
  rw [before, hnumbering]
  refine ⟨?_, ?_, fun hdom => ?_, fun hlt v => ?_⟩
  · rw [Loops.loopHead_mark_eq_iff (hfresh l), Loops.holds_latch_iff D]
  · rw [Numbering.order_le_iff D hedge, Numbering.encloses_stamps_iff D]
  · exact Numbering.order_le_of_dominates D hedge hdom
  · have hnil := Loops.members_eq_nil hlt
    rw [Loops.loopHead_mark_eq_iff (hfresh v), Loops.Holds, hnil]
    rintro ((hv | hv) | hv)
    · exact hv
    · cases hv
    · rcases htold v h hv with hvh | ⟨l', hl', hmember⟩
      · exact hvh
      · cases hl.symm.trans hl'
        rw [hnil] at hmember
        cases hmember

theorem latch_in_range_searching {s : StructuredProcedure}
    (hs : ofProcedure searching .sequential = .ok s) :
    ∃ h l, s.graph.blockOf h = 0 ∧ s.graph.blockOf l = 3 ∧ (s.role h).latch = some l ∧
      s.numbering.order.get l ≤ s.numbering.order.get h :=
  exists_loop hs 0 3 (fun s h l => s.numbering.order.get l ≤ s.numbering.order.get h)
    (by decide +kernel)

/-- The latch of a loop that is entered at its head is told of it. -/
theorem told_iff_in_range_searching :
    searching.graph.Built ∧ searching.graph.hasBlock searching.graph.entry = true ∧
      ∃ s h l, ofProcedure searching .sequential = .ok s ∧ s.graph.blockOf h = 0 ∧
        s.graph.blockOf l = 3 ∧ (s.role h).latch = some l ∧
        s.numbering.order.get l ≤ s.numbering.order.get h ∧
        ((Loops.mark s.graph s.numbering (s.before h) h l).get l).loopHead = some h := by
  obtain ⟨s, hs, D, hall⟩ := told_iff_in_range searching .sequential built_searching (by decide)
  obtain ⟨h, l, hh, hlatch, hl, hle⟩ := latch_in_range_searching hs
  exact ⟨built_searching, by decide, s, h, l, hs, hh, hlatch, hl, hle,
    ((hall h).2 l hl).1.2 hle⟩

/-- A cycle of two blocks, each of which the entry leads to. -/
def facing : Procedure :=
  .ofGraph 0 "face" (.empty 4)
    ((Graph.empty 0 2).addBlock (.empty 0 "entry") |>.addBlock (.empty 1 "left")
      |>.addBlock (.empty 2 "right") |>.addEdge 0 1 |>.addEdge 0 2 |>.addEdge 1 2 |>.addEdge 2 1)

theorem built_facing : facing.graph.Built :=
  .addEdge _ _ (.addEdge _ _ (.addEdge _ _ (.addEdge _ _
    (.addBlock _ (.addBlock _ (.addBlock _ (.empty 0 2)))))))

/-- The right block heads a loop whose latch, the left one, is numbered above it and is not told
of that loop when it is marked. -/
theorem latch_above_head_facing :
    facing.graph.Built ∧ facing.graph.hasBlock facing.graph.entry = true ∧
      ∃ s h l, ofProcedure facing .sequential = .ok s ∧ s.graph.blockOf h = 2 ∧
        s.graph.blockOf l = 1 ∧
        Loops.latch? s.graph s.numbering (s.before h) h = some l ∧
        s.numbering.order.get h < s.numbering.order.get l ∧
        ((Loops.mark s.graph s.numbering (s.before h) h l).get l).loopHead ≠ some h := by
  obtain ⟨s, hs, -⟩ := exists_ofProcedure facing .sequential built_facing (by decide)
  obtain ⟨h, hh, hfound⟩ := exists_node hs 2
    (fun s h => (Loops.latch? s.graph s.numbering (s.before h) h).map fun l =>
      (s.graph.blockOf l, decide (s.numbering.order.get h < s.numbering.order.get l),
        decide (((Loops.mark s.graph s.numbering (s.before h) h l).get l).loopHead ≠ some h)))
    (1, true, true) (by decide +kernel)
  obtain ⟨l, hl, hfound⟩ := Option.map_eq_some_iff.1 hfound
  simp only [Prod.mk.injEq, decide_eq_true_eq] at hfound
  exact ⟨built_facing, by decide, s, h, l, hs, NodeGraph.blockOf_of_nodeOf? hh, hfound.1, hl,
    hfound.2⟩

end StructuredProcedure
end Recovery
