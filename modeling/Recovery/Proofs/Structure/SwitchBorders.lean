import Recovery.Proofs.Structure.Headers
import Recovery.Proofs.Structure.SwitchBodies
/-
  What lies across the border of a switch.

  A conditional jumps into a case when one of its successors is told of another
  switch than itself, or of none. Nothing is asked of the graph here.

    1. the body of a switch is closed: a node of it that is no switch itself leads
       on to where the switch follows, to the head of a switch, or to a node that is
       told of some switch, unless it goes back (`Bordered`, `successor_cases`);
    2. a choice of two that follows somewhere has no edge that goes back
       (`ahead_of_follow`);
    3. so a successor that is told of none is not met in another body: the
       conditional leaves the switch it lies in, for where that follows or for the
       head of a switch (`StructuredProcedure.jump_intoCase_iff`).

  From outside all switches such a jump leads into a body. From inside of one it
  need not (`StructuredProcedure.jump_intoCase_leaving`).
-/

namespace Recovery

namespace Conditionals
variable {g : NodeGraph} {k : Numbering g.size} {links : PostDominators g.size} {f h s v w : g.Node}

/-! ## Bodies are closed -/

/-- What holds of the switches that have been classified, and of the nodes they have found. -/
structure Bordered (g : NodeGraph) (k : Numbering g.size) (links : PostDominators g.size)
    (state : Roles g.size × List g.Node) : Prop where
  /-- What was found is a switch, or told of one. -/
  found_cases : ∀ {w}, w ∈ state.2 →
    g.branching w = .nWay ∨ ∃ h, (state.1.get w).caseHead = some h
  /-- Whoever is told of a switch was found, and nothing but switches is told of. -/
  told : ∀ {w h}, (state.1.get w).caseHead = some h → w ∈ state.2 ∧ g.branching h = .nWay
  /-- A node in a switch leads on to where that follows or to what was found. -/
  closed : ∀ {w h}, (state.1.get w).caseHead = some h → g.branching w ≠ .nWay →
    ∀ s ∈ g.next w, k.isBackEdge w s = false → links.get h = some s ∨ s ∈ state.2

namespace Bordered
variable {state : Roles g.size × List g.Node}

theorem start (g : NodeGraph) (k : Numbering g.size) (links : PostDominators g.size) :
    Bordered g k links (.replicate g.size (.plain g.size), []) := by
  have untold {w h : g.Node}
      (hw : ((Vector.replicate g.size (Role.plain g.size)).get w).caseHead = some h) : False := by
    rw [get_replicate] at hw
    cases hw
  exact ⟨fun hw => (nomatch hw), fun hw => (untold hw).elim, fun hw => (untold hw).elim⟩

theorem classifyOne_of_not_nWay (B : Bordered g k links state) (hn : g.branching v ≠ .nWay) :
    Bordered g k links (classifyOne g k links state v) := by
  obtain ⟨hfound, hget⟩ := Conditionals.classifyOne_of_not_nWay k links hn state
  constructor
  case found_cases =>
    intro w
    rw [hfound, hget]
    exact B.found_cases
  case told =>
    intro w h
    rw [hfound, hget]
    exact B.told
  case closed =>
    intro w h
    rw [hfound, hget]
    exact B.closed

theorem classifyOne_of_nWay (B : Bordered g k links state) (hn : g.branching v = .nWay) :
    Bordered g k links (classifyOne g k links state v) := by
  obtain ⟨roles', hfound, hget⟩ := exists_classifyOne_of_nWay k links hn state
  obtain ⟨f, hf, hbody⟩ := Indexed.depthFirst_body k roles' v (links.get v) state.2
  have hmem (w : g.Node) : w ∈ (classifyOne g k links state v).2 ↔
      w ∈ f.preorder ∨ w = v ∨ w ∈ state.2 := by
    rw [hfound, hbody.mem_seen, List.mem_cons]
  simp only [hf] at hget
  constructor
  case found_cases =>
    intro w hw
    rw [hget]
    split
    · exact Or.inr ⟨v, rfl⟩
    · next hout =>
      rcases ((hmem w).1 hw).resolve_left hout with rfl | hw
      · exact Or.inl hn
      · exact B.found_cases hw
  case told =>
    intro w h hw
    rw [hmem]
    rw [hget] at hw
    split at hw
    · next hin => exact ⟨Or.inl hin, Option.some.inj hw ▸ hn⟩
    · obtain ⟨hold, hh⟩ := B.told hw
      exact ⟨Or.inr (Or.inr hold), hh⟩
  case closed =>
    intro w h hw hwn s hs hahead
    rw [hmem]
    rw [hget] at hw
    split at hw
    · next hin =>
      obtain rfl := Option.some.inj hw
      by_cases hfollow : links.get v = some s
      · exact Or.inl hfollow
      · have hnext : s ∈ bodyNext g k roles' (links.get v) w := by
          rw [bodyNext, if_neg hwn, List.mem_filter, List.mem_filter, hahead]
          exact ⟨⟨hs, rfl⟩, decide_eq_true hfollow⟩
        have hseen := hbody.seen_of_next hin hnext
        rw [hbody.mem_seen, List.mem_cons] at hseen
        exact Or.inr hseen
    · exact (B.closed hw hwn s hs hahead).imp_right fun hold => Or.inr (Or.inr hold)

theorem classified (k : Numbering g.size) (links : PostDominators g.size) :
    Bordered g k links ((k.ordering.filter g.isConditional).foldl (classifyOne g k links)
      (.replicate g.size (.plain g.size), [])) := by
  refine List.foldlRecOn _ _ (start g k links) fun state B v _ => ?_
  by_cases hn : g.branching v = .nWay
  · exact B.classifyOne_of_nWay hn
  · exact B.classifyOne_of_not_nWay hn

end Bordered

/-- Where a node in a switch leads on to. -/
theorem successor_cases (hall : ∀ v, v ∈ k.ordering)
    (hw : ((classify g k links).get w).caseHead = some h) (hn : g.branching w ≠ .nWay)
    (hs : s ∈ g.next w) (hahead : k.isBackEdge w s = false) :
    ((classify g k links).get h).follow = some s ∨ g.branching s = .nWay ∨
      ∃ h', ((classify g k links).get s).caseHead = some h' := by
  have B := Bordered.classified k links
  have hh := (B.told hw).2
  rw [follow_classify_of_ahead (hall h) (NodeGraph.choice_of_nWay hh) (by simp [hh])]
  exact (B.closed hw hn s hs hahead).imp_right B.found_cases

/-! ## Follows and shapes -/

theorem ahead_of_follow (hv : ((classify g k links).get v).follow = some f) :
    2 ≤ (g.next v).length ∧
      (Numbering.hasBackEdge g k v && decide (g.branching v = .twoWay)) = false := by
  revert hv
  refine List.foldlRecOn (motive := fun (state : Roles g.size × List g.Node) =>
    (state.1.get v).follow = some f → 2 ≤ (g.next v).length ∧
      (Numbering.hasBackEdge g k v && decide (g.branching v = .twoWay)) = false)
    _ _ (fun h => ?_) fun state ih u hu h => ?_
  · rw [get_replicate] at h
    cases h
  · obtain ⟨c, hc⟩ := get_classifyOne g k links state u v
    rw [hc] at h
    split at h
    · next huv =>
      subst huv
      have h : followAt g k links state.1 u = some f := h
      rw [followAt] at h
      split at h
      · exact ih h
      · next hahead =>
        exact ⟨NodeGraph.isConditional_iff.1 (List.mem_filter.1 hu).2, Bool.eq_false_iff.2 hahead⟩
    · exact ih h

theorem shape_classify_eq_switch_iff (hall : ∀ v, v ∈ k.ordering) :
    ((classify g k links).get v).shape = some .switch ↔ g.branching v = .nWay := by
  by_cases hchoice : 2 ≤ (g.next v).length
  · obtain ⟨follow, hshape⟩ : ∃ follow, ((classify g k links).get v).shape =
        some (shapeOf g v follow) := by
      refine foldl_classifyOne k links (P := fun r => ∃ follow, r.shape = some (shapeOf g v follow))
        (fun state => ?_) (fun _ _ h => h) _ _
        (Or.inl (List.mem_filter.2 ⟨hall v, NodeGraph.isConditional_iff.2 hchoice⟩))
      obtain ⟨c, hc⟩ := get_classifyOne g k links state v v
      rw [hc, if_pos rfl]
      exact ⟨_, rfl⟩
    rw [hshape, Option.some.injEq, shapeOf_eq_switch_iff]
  · obtain ⟨_, _, _, _, hget, -, hplain⟩ := exists_get_classify links hall v
    refine iff_of_false (fun h => ?_) (mt NodeGraph.choice_of_nWay hchoice)
    rw [hget] at h
    cases h.symm.trans (hplain hchoice).2

end Conditionals

/-! ## Jumps into cases -/

namespace Jumps
variable {g : NodeGraph} {k : Numbering g.size} {roles : Roles g.size} {v : g.Node}

theorem jump_judged_eq_intoCase_iff (hfresh : (roles.get v).jump = .none) :
    (judged g k roles v).jump = .intoCase ↔
      (roles.get v).heads.isConditional = true ∧ (roles.get v).shape ≠ some .switch ∧
        (∃ f, (roles.get v).follow = some f ∧ crossing g k roles v f = none) ∧
        ∃ c ∈ g.next v, (roles.get c).caseHead ≠ (roles.get v).caseHead := by
  have hplain : (roles.get v).jump ≠ .intoCase := by
    rw [hfresh]
    decide
  rw [judged]
  split
  · next hfollow => exact iff_of_false hplain fun h => by simp [hfollow] at h
  · next follow hfollow =>
    simp only [hfollow, Option.some.injEq, exists_eq_left']
    split
    · next hno =>
      refine iff_of_false hplain fun h => ?_
      rcases hno with hno | hno
      · rw [hno] at h
        cases h.1
      · exact h.2.1 hno
    · next hyes =>
      rw [not_or, Bool.not_eq_false] at hyes
      split
      · next hcross => exact iff_of_false (by simp) fun h => by simp [hcross] at h
      · next hcross =>
        have hany : ((g.next v).any fun c => decide ((roles.get c).caseHead ≠
            (roles.get v).caseHead)) = true ↔
              ∃ c ∈ g.next v, (roles.get c).caseHead ≠ (roles.get v).caseHead := by
          simp only [List.any_eq_true, decide_eq_true_eq]
        rw [← hany]
        split
        · next hc => exact iff_of_true rfl ⟨hyes.1, hyes.2, hcross, hc⟩
        · next hc => exact iff_of_false hplain fun h => hc h.2.2.2

theorem jump_classify_eq_intoCase_iff :
    ((classify g k roles).get v).jump = .intoCase ↔ (judged g k roles v).jump = .intoCase := by
  rw [classify, get_markUnlatched, judge, get_ofFn]
  split
  · next h => exact iff_of_false (by simp) (by rw [h.1]; decide)
  · exact Iff.rfl

/-- Marking jumps leaves alone what tells whether a branch crosses a loop. -/
theorem crossing_classify (follow : g.Node) :
    crossing g k (classify g k roles) v follow = crossing g k roles v follow := by
  have hsame (w : g.Node) :
      ((classify g k roles).get w).heads = (roles.get w).heads ∧
        ((classify g k roles).get w).loopHead = (roles.get w).loopHead ∧
        ((classify g k roles).get w).latch = (roles.get w).latch := by
    obtain ⟨_, _, hw, -⟩ := exists_get_classify g k roles w
    rw [hw]
    exact ⟨rfl, rfl, rfl⟩
  simp only [crossing, loopOf, fun w => (hsame w).1, fun w => (hsame w).2.1, fun w => (hsame w).2.2]
  rfl

end Jumps

/-- In the parts that are found a jump into a case is told by follows, loops and switches. -/
theorem Roles.jump_find_eq_intoCase_iff {G : NodeGraph} {k : Numbering G.size}
    (links : PostDominators G.size) (hall : ∀ v, v ∈ k.ordering) (v : G.Node) :
    ((find G k links).get v).jump = .intoCase ↔
      ((find G k links).get v).heads.isConditional = true ∧ G.branching v ≠ .nWay ∧
        (∃ f, ((find G k links).get v).follow = some f ∧
          Jumps.crossing G k (find G k links) v f = none) ∧
        ∃ c ∈ G.next v,
          ((find G k links).get c).caseHead ≠ ((find G k links).get v).caseHead := by
  let marked := Loops.classify G k (Conditionals.classify G k links)
  obtain ⟨_, _, _, _, _, hloops⟩ :=
    Loops.exists_get_classify G k (Conditionals.classify G k links) v
  obtain ⟨_, _, _, _, hplain⟩ := Conditionals.exists_classify_eq_plain k links v
  have hfresh : (marked.get v).jump = .none := by
    show ((Loops.classify G k (Conditionals.classify G k links)).get v).jump = .none
    rw [hloops, hplain]
    rfl
  have hshape : (marked.get v).shape = some .switch ↔ G.branching v = .nWay := by
    show ((Loops.classify G k (Conditionals.classify G k links)).get v).shape = _ ↔ _
    rw [hloops, ← Conditionals.shape_classify_eq_switch_iff hall]
  have hsame (w : G.Node) : ((find G k links).get w).heads = (marked.get w).heads ∧
      ((find G k links).get w).follow = (marked.get w).follow ∧
      ((find G k links).get w).caseHead = (marked.get w).caseHead := by
    obtain ⟨_, _, hw, -⟩ := Jumps.exists_get_classify G k marked w
    rw [find, hw]
    exact ⟨rfl, rfl, rfl⟩
  simp only [hsame]
  rw [find, Jumps.jump_classify_eq_intoCase_iff, Jumps.jump_judged_eq_intoCase_iff hfresh, ne_eq,
    hshape]
  simp only [Jumps.crossing_classify]
  rfl

theorem Roles.successor_cases {G : NodeGraph} {k : Numbering G.size}
    (links : PostDominators G.size) (hall : ∀ v, v ∈ k.ordering) {f h s v : G.Node}
    (hfollow : ((find G k links).get v).follow = some f) (hn : G.branching v ≠ .nWay)
    (hv : ((find G k links).get v).caseHead = some h) (hs : s ∈ G.next v) :
    ((find G k links).get h).follow = some s ∨ G.branching s = .nWay ∨
      ∃ h', ((find G k links).get s).caseHead = some h' := by
  rw [follow_find] at hfollow
  rw [caseHead_find] at hv
  simp only [follow_find, caseHead_find]
  obtain ⟨hchoice, hahead⟩ := Conditionals.ahead_of_follow hfollow
  have htwo : G.branching v = .twoWay := by
    rw [ne_eq, NodeGraph.branching_eq_nWay_iff] at hn
    exact NodeGraph.branching_eq_twoWay_iff.2 (by omega)
  rw [htwo, decide_eq_true rfl, Bool.and_true, Numbering.hasBackEdge, List.any_eq_false] at hahead
  exact Conditionals.successor_cases hall hv hn hs (Bool.eq_false_iff.2 (hahead s hs))

namespace StructuredProcedure

/-- **Jumps into cases.** Whatever the graph and the walk limit, a node is marked as a jump into a
case exactly when it is a conditional of two that follows somewhere, neither of its branches
crosses a loop, and one of them leads to a node that is told of another switch or of none.
If none does that leads into another body, the node lies in a switch, and leaves it for
where that follows or for a switch that lies in none. -/
theorem jump_intoCase_iff (q : Procedure) (settings : Settings) (hbuilt : q.graph.Built)
    (hentry : q.graph.hasBlock q.graph.entry = true) :
    ∃ s, ofProcedure q settings = .ok s ∧ NodeGraph.Depicts q.graph s.graph ∧
      ∀ n, ((s.role n).jump = .intoCase ↔
          (s.role n).heads.isConditional = true ∧ s.graph.branching n ≠ .nWay ∧
          (∃ f, (s.role n).follow = some f ∧
            Jumps.crossing s.graph s.numbering s.roles n f = none) ∧
          ∃ c ∈ s.graph.next n, (s.role c).caseHead ≠ (s.role n).caseHead) ∧
        ((s.role n).jump = .intoCase →
          (∃ c ∈ s.graph.next n, ∃ h, (s.role c).caseHead = some h ∧
            (s.role n).caseHead ≠ some h) ∨
          ∃ h, (s.role n).caseHead = some h ∧ ∃ c ∈ s.graph.next n, (s.role c).caseHead = none ∧
            ((s.role h).follow = some c ∨ s.graph.branching c = .nWay)) := by
  obtain ⟨s, hs, D, hnumbering, hroles⟩ := exists_ofProcedure q settings hbuilt hentry
  refine ⟨s, hs, D, fun n => ?_⟩
  have hiff : (s.role n).jump = .intoCase ↔
      (s.role n).heads.isConditional = true ∧ s.graph.branching n ≠ .nWay ∧
      (∃ f, (s.role n).follow = some f ∧
        Jumps.crossing s.graph s.numbering s.roles n f = none) ∧
      ∃ c ∈ s.graph.next n, (s.role c).caseHead ≠ (s.role n).caseHead := by
    simp only [role, hnumbering, hroles]
    exact Roles.jump_find_eq_intoCase_iff s.postDominators (Numbering.mem_ordering D) n
  refine ⟨hiff, fun hjump => ?_⟩
  obtain ⟨-, hn, ⟨f, hfollow, -⟩, c, hc, hne⟩ := hiff.1 hjump
  cases hcase : (s.role c).caseHead with
  | some h => exact Or.inl ⟨c, hc, h, hcase, fun heq => hne (hcase.trans heq.symm)⟩
  | none =>
    -- only a node in a switch can differ from one in none
    obtain ⟨h, hh⟩ := Option.ne_none_iff_exists'.1 fun hnone => hne (hcase.trans hnone.symm)
    refine Or.inr ⟨h, hh, c, hc, hcase, ?_⟩
    simp only [role, hroles] at hfollow hh hcase ⊢
    rcases Roles.successor_cases s.postDominators (Numbering.mem_ordering D) hfollow hn hh hc with
      hleave | hswitch | ⟨h', hh'⟩
    · exact Or.inl hleave
    · exact Or.inr hswitch
    · cases hcase.symm.trans hh'

/-- A choice in front of a switch, one branch of which leads past the switch into its body. -/
def entering : Procedure :=
  .ofGraph 0 "enter" (.empty 4)
    ((Graph.empty 0 4).addBlock (.empty 0 "test") |>.addBlock (.empty 1 "choose")
      |>.addBlock (.empty 2 "left") |>.addBlock (.empty 3 "right") |>.addBlock (.empty 4 "done")
      |>.addEdge 0 1 |>.addEdge 0 2 |>.addEdge 1 2 |>.addEdge 1 3 |>.addEdge 1 4 |>.addEdge 2 4
      |>.addEdge 3 4)

theorem built_entering : entering.graph.Built :=
  .addEdge _ _ (.addEdge _ _ (.addEdge _ _ (.addEdge _ _ (.addEdge _ _ (.addEdge _ _ (.addEdge _ _
    (.addBlock _ (.addBlock _ (.addBlock _ (.addBlock _ (.addBlock _ (.empty 0 4))))))))))))

/-- It lies in no switch, so the jump it is marked as leads into a body. -/
theorem jump_intoCase_iff_entering :
    entering.graph.Built ∧ entering.graph.hasBlock entering.graph.entry = true ∧
      ∃ s n c h, ofProcedure entering .sequential = .ok s ∧ s.graph.blockOf n = 0 ∧
        (s.role n).jump = .intoCase ∧ c ∈ s.graph.next n ∧ (s.role c).caseHead = some h ∧
        (s.role n).caseHead ≠ some h := by
  obtain ⟨s, hs, -, hall⟩ := jump_intoCase_iff entering .sequential built_entering (by decide)
  obtain ⟨n, hn, hfound⟩ := exists_node hs 0
    (fun s n => some ((s.role n).jump, (s.role n).caseHead.isSome)) (.intoCase, false)
    (by decide +kernel)
  simp only [Option.some.injEq, Prod.mk.injEq, Option.isSome_eq_false_iff,
    Option.isNone_iff_eq_none] at hfound
  rcases (hall n).2 hfound.1 with ⟨c, hc, h, hh, hne⟩ | ⟨h, hh, -⟩
  · exact ⟨built_entering, by decide, s, n, c, h, hs, NodeGraph.blockOf_of_nodeOf? hn, hfound.1, hc,
      hh, hne⟩
  · cases hfound.2.symm.trans hh

/-- A switch with a choice in its first branch that may leave it at once. -/
def leaving : Procedure :=
  .ofGraph 0 "leave" (.empty 4)
    ((Graph.empty 0 4).addBlock (.empty 0 "choose") |>.addBlock (.empty 1 "test")
      |>.addBlock (.empty 2 "work") |>.addBlock (.empty 3 "other") |>.addBlock (.empty 4 "done")
      |>.addEdge 0 1 |>.addEdge 0 3 |>.addEdge 0 4 |>.addEdge 1 2 |>.addEdge 1 4 |>.addEdge 2 4
      |>.addEdge 3 4)

theorem built_leaving : leaving.graph.Built :=
  .addEdge _ _ (.addEdge _ _ (.addEdge _ _ (.addEdge _ _ (.addEdge _ _ (.addEdge _ _ (.addEdge _ _
    (.addBlock _ (.addBlock _ (.addBlock _ (.addBlock _ (.addBlock _ (.empty 0 4))))))))))))

/-- The choice is marked as a jump into a case, though one branch stays in its own switch and the
other leads to where that follows. -/
theorem jump_intoCase_leaving :
    leaving.graph.Built ∧ leaving.graph.hasBlock leaving.graph.entry = true ∧
      ∃ s n h inside done, ofProcedure leaving .sequential = .ok s ∧ s.graph.blockOf n = 1 ∧
        (s.role n).jump = .intoCase ∧ (s.role n).caseHead = some h ∧
        s.graph.next n = [inside, done] ∧ (s.role inside).caseHead = some h ∧
        (s.role done).caseHead = none ∧ (s.role h).follow = some done := by
  obtain ⟨s, hs, -⟩ := exists_ofProcedure leaving .sequential built_leaving (by decide)
  obtain ⟨n, hn, hfound⟩ := exists_node hs 1
    (fun s n => (s.role n).caseHead.bind fun h =>
      (s.graph.nodeOf? 2).bind fun inside => (s.graph.nodeOf? 4).map fun done =>
        decide ((s.role n).jump = .intoCase ∧ s.graph.next n = [inside, done] ∧
          (s.role inside).caseHead = some h ∧ (s.role done).caseHead = none ∧
          (s.role h).follow = some done)) true (by decide +kernel)
  obtain ⟨h, hh, hfound⟩ := Option.bind_eq_some_iff.1 hfound
  obtain ⟨inside, -, hfound⟩ := Option.bind_eq_some_iff.1 hfound
  obtain ⟨done, -, hfound⟩ := Option.map_eq_some_iff.1 hfound
  obtain ⟨hjump, hnext, hfacts⟩ := of_decide_eq_true hfound
  exact ⟨built_leaving, by decide, s, n, h, inside, done, hs, NodeGraph.blockOf_of_nodeOf? hn,
    hjump, hh, hnext, hfacts⟩

end StructuredProcedure
end Recovery
