import Recovery.Proofs.Structure.Headers
/-
  Who lies in a loop.

  A node is told the head of its loop when that loop is marked, and told again by
  each loop marked later that it is a member of. What it was told last is kept, so
  it is the head itself or a member found from the head and its latch
  (`Roles.MembersTold`): a head is marked once, and its latch stays.

  A member is the latch, or lies between head and latch on a branch of one of the
  two searches from the entry. On that branch the head leads down to it, and it
  leads on down to the latch without coming back to the head
  (`Loops.paths_of_mem_members`). Which of the searches the branch is in makes no
  difference, nor whether other edges lead into the loop.
-/

namespace Recovery

/-- Whoever is told the head of a loop is that head or a member of its loop. -/
def Roles.MembersTold (g : NodeGraph) (k : Numbering g.size) (roles : Roles g.size) : Prop :=
  ∀ v h, (roles.get v).loopHead = some h →
    v = h ∨ ∃ l, (roles.get h).latch = some l ∧ v ∈ Loops.members g k h l

namespace Loops
variable {g : NodeGraph} {k : Numbering g.size} {roles : Roles g.size}

theorem membersTold_mark {head latch : g.Node} (h : roles.MembersTold g k)
    (hnew : (roles.get head).latch = none) : (mark g k roles head latch).MembersTold g k := by
  intro v x hx
  rw [loopHead_mark] at hx
  split at hx
  · next hin =>
    obtain rfl := Option.some.inj hx
    exact hin.imp_right fun hmem => ⟨latch, latch_mark_eq_some_iff.2 (Or.inl ⟨rfl, rfl⟩), hmem⟩
  · -- told before, of a head that had its latch then
    apply (h v x hx).imp_right
    intro ⟨l, hl, hmem⟩
    refine ⟨l, latch_mark_eq_some_iff.2 (Or.inr ⟨?_, hl⟩), hmem⟩
    rintro rfl
    cases hnew.symm.trans hl

/-- The ways around a loop by one of its members: from the head down to it, and on to the
latch without the head. It is left before the head. -/
theorem paths_of_mem_members {q : Graph} {G : NodeGraph} (D : NodeGraph.Depicts q G)
    {v head latch : G.Node} (hback : (Numbering.ofNodeGraph G).isBackEdge latch head = true)
    (hv : v ∈ members G (Numbering.ofNodeGraph G) head latch) :
    Reaches (Along G.next) head v ∧ Bypasses (Along G.next) head v latch ∧
      (Numbering.ofNodeGraph G).order.get v < (Numbering.ofNodeGraph G).order.get head := by
  obtain ⟨hrange, hbranch⟩ := List.mem_filter.1 hv
  have hlt := (Numbering.mem_descending.1 hrange).2.2
  rw [Bool.or_eq_true, decide_eq_true_eq] at hbranch
  rcases hbranch with rfl | hbetween
  · have hne : v ≠ head := fun h => Nat.lt_irrefl _ (h ▸ hlt)
    rw [Numbering.isBackEdge, Bool.or_eq_true, decide_eq_true_eq] at hback
    refine ⟨Numbering.reaches_of_isAncestor D (hback.resolve_left hne), ⟨[v], .stop v, ?_⟩, hlt⟩
    rw [List.mem_singleton]
    exact hne.symm
  · exact ⟨Numbering.reaches_of_isAncestor D (Numbering.isAncestor_of_isBetween hbetween),
      Numbering.bypasses_of_isBetween D hbetween, hlt⟩

end Loops

theorem Roles.membersTold_find (G : NodeGraph) (links : PostDominators G.size) :
    (find G (Numbering.ofNodeGraph G) links).MembersTold G (Numbering.ofNodeGraph G) := by
  have hstart : (Conditionals.classify G (Numbering.ofNodeGraph G) links).MembersTold G
      (Numbering.ofNodeGraph G) := by
    intro v h hv
    rw [Conditionals.loopHead_classify] at hv
    cases hv
  have hloops : (Loops.classify G (Numbering.ofNodeGraph G)
      (Conditionals.classify G (Numbering.ofNodeGraph G) links)).MembersTold G
      (Numbering.ofNodeGraph G) := by
    apply Loops.classify_induction (Conditionals.latch_classify _ links) hstart
    intro roles head latch h _ _ habove
    exact Loops.membersTold_mark h (Loops.latch_eq_none_of_above habove)
  intro v h hv
  rw [(loops_find _ _ links v).2] at hv
  rw [(loops_find _ _ links h).1]
  exact hloops v h hv

namespace StructuredProcedure

/-- **Members lie on their loop.** Whatever the graph and the walk limit, the head that a
node is told has a latch that leads back to it. The node is that head, or is reached
from it and leads on to the latch without passing it; and it is left no later. -/
theorem members_on_loop (q : Procedure) (settings : Settings) (hbuilt : q.graph.Built)
    (hentry : q.graph.hasBlock q.graph.entry = true) :
    ∃ s, ofProcedure q settings = .ok s ∧ NodeGraph.Depicts q.graph s.graph ∧
      ∀ n h, (s.role n).loopHead = some h → ∃ l, (s.role h).latch = some l ∧
        s.graph.blockOf h ∈ q.graph.flow (s.graph.blockOf l) ∧
        (n = h ∨ Reaches (Along q.graph.flow) (s.graph.blockOf h) (s.graph.blockOf n) ∧
          Bypasses (Along q.graph.flow) (s.graph.blockOf h) (s.graph.blockOf n)
            (s.graph.blockOf l)) ∧
        s.numbering.order.get n ≤ s.numbering.order.get h := by
  obtain ⟨s, hs, D, hnumbering, hroles⟩ := exists_ofProcedure q settings hbuilt hentry
  have hdecide : LatchesDecide s.graph (Numbering.ofNodeGraph s.graph) s.roles :=
    hroles ▸ LatchesDecide.find D s.postDominators
  have htold : s.roles.MembersTold s.graph (Numbering.ofNodeGraph s.graph) :=
    hroles ▸ Roles.membersTold_find s.graph s.postDominators
  refine ⟨s, hs, D, fun n h hn => ?_⟩
  obtain ⟨l, hl⟩ := hdecide.loopHead_latched n h hn
  obtain ⟨hmem, hback⟩ := hdecide.latch_mem h l hl
  refine ⟨l, hl, D.mem_next_iff.1 (D.mem_previous_iff.1 hmem), ?_⟩
  rw [hnumbering]
  rcases htold n h hn with rfl | ⟨l', hl', hmember⟩
  · exact ⟨Or.inl rfl, Nat.le_refl _⟩
  · obtain rfl : l' = l := Option.some.inj (hl'.symm.trans hl)
    obtain ⟨hdown, hon, hlt⟩ := Loops.paths_of_mem_members D hback hmember
    exact ⟨Or.inr ⟨D.reaches_iff.1 hdown, D.bypasses_iff.1 hon⟩, Nat.le_of_lt hlt⟩

/-- A ring of three blocks, entered from outside at two of them. -/
def crossed : Procedure :=
  .ofGraph 0 "cross" (.empty 4)
    ((Graph.empty 0 4).addBlock (.empty 0 "b0") |>.addBlock (.empty 1 "b1")
      |>.addBlock (.empty 2 "b2") |>.addBlock (.empty 3 "b3") |>.addBlock (.empty 4 "b4")
      |>.addEdge 0 1 |>.addEdge 0 3 |>.addEdge 1 2 |>.addEdge 2 3 |>.addEdge 3 1 |>.addEdge 3 4)

theorem built_crossed : crossed.graph.Built :=
  .addEdge _ _ (.addEdge _ _ (.addEdge _ _ (.addEdge _ _ (.addEdge _ _ (.addEdge _ _
    (.addBlock _ (.addBlock _ (.addBlock _ (.addBlock _ (.addBlock _ (.empty 0 4)))))))))))

/-- `b2` is told that `b1` heads its loop, and lies on it. -/
theorem members_on_loop_crossed :
    crossed.graph.Built ∧ crossed.graph.hasBlock crossed.graph.entry = true ∧
      ∃ s n h l, ofProcedure crossed .sequential = .ok s ∧
        s.graph.blockOf n = 2 ∧ s.graph.blockOf h = 1 ∧
        (s.role n).loopHead = some h ∧ (s.role h).latch = some l ∧
        1 ∈ crossed.graph.flow (s.graph.blockOf l) ∧
        Reaches (Along crossed.graph.flow) 1 2 ∧
        Bypasses (Along crossed.graph.flow) 1 2 (s.graph.blockOf l) ∧
        s.numbering.order.get n ≤ s.numbering.order.get h := by
  obtain ⟨s, hs, D, hmembers⟩ := members_on_loop crossed .sequential built_crossed (by decide)
  obtain ⟨n, hn, hhead⟩ := exists_node hs 2
    (fun s n => (s.role n).loopHead.map s.graph.blockOf) 1 (by decide +kernel)
  obtain ⟨h, hhead, hh⟩ := Option.map_eq_some_iff.1 hhead
  obtain ⟨l, hlatch, hedge, hpaths, hle⟩ := hmembers n h hhead
  have hn2 := NodeGraph.blockOf_of_nodeOf? hn
  have hne : n ≠ h := by
    intro heq
    rw [heq, hh] at hn2
    cases hn2
  rw [hh] at hedge
  rw [hh, hn2] at hpaths
  obtain ⟨hdown, hon⟩ := hpaths.resolve_left hne
  exact ⟨built_crossed, by decide, s, n, h, l, hs, hn2, hh, hhead, hlatch, hedge, hdown, hon, hle⟩

end StructuredProcedure
end Recovery
