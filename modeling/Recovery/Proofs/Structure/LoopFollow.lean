import Recovery.Proofs.Structure.Members
/-
  Where loops lead when they end.

  The follow of a loop is found when the loop is marked, from the nodes it holds at
  that time: its head and its members. An endless loop is searched for a
  branch that leaves it, so what is found lies outside (`endlessFollow_outside`). A loop that
  is tested at its head or its latch follows at a successor of that node, and then
  it matters whether the node has a way out at all:

    1. the follow lies outside the loop exactly when the loop is endless or the node that
       tests it has a successor outside (`follow_outside_iff`), and in that case it
       is not told this loop's head;
    2. a head with two ways around its loop and its own conditional's follow beyond it is
       taken for the test of the loop all the same, and the loop follows at one
       of its own members (`follow_inside_forking`).
-/

namespace Recovery

/-- The node that tests a loop of a shape, when one does. -/
def LoopShape.tester? {n : Nat} (head latch : Fin n) : LoopShape → Option (Fin n)
  | .preTested => some head
  | .postTested => some latch
  | .endless => none

theorem NodeGraph.exists_next_of_twoWay {g : NodeGraph} {v : g.Node}
    (h : g.branching v = .twoWay) :
    ∃ taken fallen, g.next v = [taken, fallen] ∧ g.branches? v = some (taken, fallen) := by
  obtain ⟨taken, fallen, hnext⟩ := List.length_eq_two.1 (branching_eq_twoWay_iff.1 h)
  exact ⟨taken, fallen, hnext, by rw [branches?, hnext]⟩

namespace Loops
variable {g : NodeGraph} {k : Numbering g.size} {roles : Roles g.size} {head latch v f : g.Node}
  {inside : g.Node → Bool}

/-- Whether a node is the head of a loop or one of its members. -/
def Holds (g : NodeGraph) (k : Numbering g.size) (head latch v : g.Node) : Prop :=
  v = head ∨ v ∈ members g k head latch

instance (g : NodeGraph) (k : Numbering g.size) (head latch v : g.Node) :
    Decidable (Holds g k head latch v) :=
  inferInstanceAs (Decidable (_ ∨ _))

theorem inside_eq_false_iff :
    (v == head || (members g k head latch).contains v) = false ↔ ¬ Holds g k head latch v := by
  simp [Holds]

/-- Whether a loop of a shape leads out exactly when something lets it: it is endless, or the
node that tests it has a successor outside. -/
def LeadsOut (g : NodeGraph) (k : Numbering g.size) (head latch : g.Node) (shape : LoopShape)
    (f : g.Node) : Prop :=
  ¬ Holds g k head latch f ↔
    ∀ t, shape.tester? head latch = some t → ∃ s ∈ g.next t, ¬ Holds g k head latch s

/-! ## The follow that is found -/

theorem exit?_outside {s : g.Node} (h : exit? g v inside = some s) : inside s = false := by
  rw [exit?] at h
  split at h
  · cases h
  · split at h
    · split at h
      · cases h
      · next hfallen => exact Option.some.inj h ▸ Bool.eq_false_iff.2 hfallen
    · next htaken => exact Option.some.inj h ▸ Bool.eq_false_iff.2 htaken

theorem endlessFollow_outside (vs : List g.Node) :
    ∀ bound best, (∀ b, best = some b → inside b = false) →
      endlessFollow g k roles head inside vs bound best = some f → inside f = false := by
  induction vs with
  | nil => exact fun _ _ hbest h => hbest f h
  | cons v vs ih =>
    intro bound best hbest h
    rw [endlessFollow.eq_def] at h
    dsimp only at h
    split at h
    · exact ih _ _ hbest h
    · split at h
      · split at h
        · exact ih _ _ hbest h
        · split at h
          · split at h
            · exact ih _ _ hbest h
            · exact hbest f h
          · refine ih _ _ (fun b hb => ?_) h
            split at hb
            · next s b' hexit =>
              split at hb
              · exact Option.some.inj hb ▸ exit?_outside hexit
              · exact hbest b hb
            · next hexit => exact Option.some.inj hb ▸ exit?_outside hexit
            · exact hbest b hb
      · exact ih _ _ hbest h

theorem twoWay_of_preTested {follow : Option g.Node}
    (h : shapeOf g follow head latch inside = .preTested) : g.branching head = .twoWay := by
  unfold shapeOf at h
  split at h
  · cases h
  · split at h
    · assumption
    · cases h

theorem twoWay_of_postTested {follow : Option g.Node}
    (h : shapeOf g follow head latch inside = .postTested) : g.branching latch = .twoWay := by
  unfold shapeOf at h
  split at h
  · assumption
  · split at h
    · split at h <;> cases h
    · cases h

/-- A loop is followed outside when it is endless, and else when the node that tests it has a
successor outside. -/
theorem followOf_outside_iff {follow : Option g.Node} {shape : LoopShape}
    (hshape : shapeOf g follow head latch inside = shape) (hlatch : head ∈ g.next latch)
    (hhead : inside head = true) (h : followOf g k roles head latch inside shape = some f) :
    inside f = false ↔
      ∀ t, shape.tester? head latch = some t → ∃ s ∈ g.next t, inside s = false := by
  -- of two successors the follow is one, and the other lies inside unless the follow does not
  have hpair {t taken fallen : g.Node} (hnext : g.next t = [taken, fallen])
      (hf : (f = fallen ∧ inside taken = true) ∨
        (f = taken ∧ (inside taken = false ∨ inside fallen = true))) :
      inside f = false ↔ ∃ s ∈ g.next t, inside s = false := by
    rw [hnext]
    rcases hf with ⟨rfl, htaken⟩ | ⟨rfl, htaken | hfallen⟩
    · simp [htaken]
    · simp [htaken]
    · simp [hfallen]
  cases shape with
  | endless =>
    have hf := endlessFollow_outside _ _ none (fun b hb => nomatch hb) h
    exact iff_of_true hf fun t ht => nomatch ht
  | preTested =>
    obtain ⟨taken, fallen, hnext, hbranches⟩ :=
      NodeGraph.exists_next_of_twoWay (twoWay_of_preTested hshape)
    rw [followOf, hbranches] at h
    replace h : (if inside taken then fallen else taken) = f := Option.some.inj h
    have hiff : inside f = false ↔ ∃ s ∈ g.next head, inside s = false := by
      apply hpair hnext
      split at h
      · next htaken => exact Or.inl ⟨h.symm, htaken⟩
      · next htaken => exact Or.inr ⟨h.symm, Or.inl (Bool.eq_false_iff.2 htaken)⟩
    simpa [LoopShape.tester?] using hiff
  | postTested =>
    obtain ⟨taken, fallen, hnext, hbranches⟩ :=
      NodeGraph.exists_next_of_twoWay (twoWay_of_postTested hshape)
    rw [followOf, hbranches] at h
    replace h : (if taken = head then fallen else taken) = f := Option.some.inj h
    have hiff : inside f = false ↔ ∃ s ∈ g.next latch, inside s = false := by
      apply hpair hnext
      split at h
      · next htaken => exact Or.inl ⟨h.symm, htaken ▸ hhead⟩
      · next htaken =>
        -- the latch leads back to the head, so with its other branch
        rw [hnext, List.mem_cons, List.mem_singleton] at hlatch
        exact Or.inr ⟨h.symm, Or.inr (hlatch.resolve_left (Ne.symm htaken) ▸ hhead)⟩
    simpa [LoopShape.tester?] using hiff

/-! ## Marked loops -/

/-- Whether every marked loop with a follow has a shape by which it leads out. -/
def FollowsTold (g : NodeGraph) (k : Numbering g.size) (roles : Roles g.size) : Prop :=
  ∀ h l f, (roles.get h).latch = some l → (roles.get h).loopFollow = some f →
    ∃ shape, (roles.get h).loopShape = some shape ∧ LeadsOut g k h l shape f

theorem followsTold_mark (hlatch : head ∈ g.next latch) (h : FollowsTold g k roles) :
    FollowsTold g k (mark g k roles head latch) := by
  intro x l f hl hf
  by_cases hx : x = head
  · subst hx
    rw [latch_mark, if_pos rfl] at hl
    obtain rfl : latch = l := Option.some.inj hl
    let inside (v : g.Node) : Bool := v == x || (members g k x latch).contains v
    let marked := unshaped g k roles x latch
    have hmark : mark g k roles x latch = marked.edit x fun r =>
        { r with
          loopShape := some (shapeOf g (marked.get x).follow x latch inside)
          loopFollow := followOf g k marked x latch inside
            (shapeOf g (marked.get x).follow x latch inside) } := rfl
    rw [hmark, Roles.get_edit, if_pos rfl] at hf ⊢
    refine ⟨_, rfl, ?_⟩
    have hiff := followOf_outside_iff rfl hlatch (by simp [inside]) hf
    simpa only [LeadsOut, inside, inside_eq_false_iff] using hiff
  · -- marking a loop leaves the shapes and follows of the others
    obtain ⟨shape, follow, hget⟩ := exists_get_mark g k roles head latch
    rw [hget, if_neg hx] at hl hf ⊢
    exact h x l f hl hf

end Loops

theorem Roles.followsTold_find {q : Graph} {G : NodeGraph} (D : NodeGraph.Depicts q G)
    (links : PostDominators G.size) :
    Loops.FollowsTold G (Numbering.ofNodeGraph G)
      (find G (Numbering.ofNodeGraph G) links) := by
  have hloops : Loops.FollowsTold G (Numbering.ofNodeGraph G) (Loops.classify G
      (Numbering.ofNodeGraph G) (Conditionals.classify G (Numbering.ofNodeGraph G) links)) := by
    apply Loops.classify_induction (Conditionals.latch_classify _ links)
    · exact fun h l f hl => absurd hl (Conditionals.latch_classify_ne_some _ links h l)
    · intro roles head latch h hmem _ _
      exact Loops.followsTold_mark (D.mem_previous_iff.1 hmem) h
  -- jumps change neither the shapes nor the follows of loops
  intro h l f hl hf
  obtain ⟨_, _, hjumps, -⟩ := Jumps.exists_get_classify G (Numbering.ofNodeGraph G) _ h
  rw [find, hjumps] at hl hf ⊢
  exact hloops h l f hl hf

namespace StructuredProcedure

/-- **Follows of loops.** Whatever the graph and the walk limit, the follow of a loop lies
outside the loop exactly when the loop is endless or the node that tests it has a successor
outside. Then it is not the head, nor told that the head is that of its loop. -/
theorem follow_outside_iff (q : Procedure) (settings : Settings) (hbuilt : q.graph.Built)
    (hentry : q.graph.hasBlock q.graph.entry = true) :
    ∃ s, ofProcedure q settings = .ok s ∧
      ∀ h f, (s.role h).loopFollow = some f → ∃ l shape, (s.role h).latch = some l ∧
        (s.role h).loopShape = some shape ∧
        (¬ Loops.Holds s.graph s.numbering h l f ↔
          ∀ t, shape.tester? h l = some t →
            ∃ c ∈ s.graph.next t, ¬ Loops.Holds s.graph s.numbering h l c) ∧
        (¬ Loops.Holds s.graph s.numbering h l f → f ≠ h ∧ (s.role f).loopHead ≠ some h) := by
  obtain ⟨s, hs, D, hnumbering, hroles⟩ := exists_ofProcedure q settings hbuilt hentry
  have hdecide : LatchesDecide s.graph (Numbering.ofNodeGraph s.graph) s.roles :=
    hroles ▸ LatchesDecide.find D s.postDominators
  have htold : s.roles.MembersTold s.graph (Numbering.ofNodeGraph s.graph) :=
    hroles ▸ Roles.membersTold_find s.graph s.postDominators
  have hfollows : Loops.FollowsTold s.graph (Numbering.ofNodeGraph s.graph) s.roles :=
    hroles ▸ Roles.followsTold_find D s.postDominators
  refine ⟨s, hs, fun h f hf => ?_⟩
  rw [hnumbering]
  -- only a head with a latch has a follow
  obtain ⟨l, hl⟩ : ∃ l, (s.role h).latch = some l := by
    refine Option.ne_none_iff_exists'.1 fun hnone => ?_
    cases hf.symm.trans (hdecide.other h hnone).2
  obtain ⟨shape, hshape, hleads⟩ := hfollows h l f hl hf
  refine ⟨l, shape, hl, hshape, hleads, fun hout => ⟨fun hfh => hout (Or.inl hfh), fun hhead => ?_⟩⟩
  rcases htold f h hhead with hfh | ⟨l', hl', hmem⟩
  · exact hout (Or.inl hfh)
  · cases hl.symm.trans hl'
    exact hout (Or.inr hmem)

/-- A loop that is tested at its head follows at the way out from there. -/
theorem follow_outside_iff_searching :
    searching.graph.Built ∧ searching.graph.hasBlock searching.graph.entry = true ∧
      ∃ s h f l, ofProcedure searching .sequential = .ok s ∧ s.graph.blockOf h = 0 ∧
        s.graph.blockOf f = 4 ∧ (s.role h).loopFollow = some f ∧ (s.role h).latch = some l ∧
        (s.role h).loopShape = some .preTested ∧ ¬ Loops.Holds s.graph s.numbering h l f ∧
        f ≠ h ∧ (s.role f).loopHead ≠ some h := by
  obtain ⟨s, hs, hout⟩ := follow_outside_iff searching .sequential built_searching (by decide)
  obtain ⟨h, hh, hfound⟩ := exists_node hs 0
    (fun s h => (s.role h).loopFollow.bind fun f => (s.role h).latch.map fun l =>
      (s.graph.blockOf f, (s.role h).loopShape,
        decide (∃ c ∈ s.graph.next h, ¬ Loops.Holds s.graph s.numbering h l c)))
    (4, some .preTested, true) (by decide +kernel)
  obtain ⟨f, hf, hfound⟩ := Option.bind_eq_some_iff.1 hfound
  obtain ⟨l, hl, hfound⟩ := Option.map_eq_some_iff.1 hfound
  simp only [Prod.mk.injEq, decide_eq_true_eq] at hfound
  obtain ⟨hf4, hshape, hexit⟩ := hfound
  obtain ⟨l', shape, hl', hshape', hiff, hne⟩ := hout h f hf
  cases hl.symm.trans hl'
  cases hshape.symm.trans hshape'
  have hfout := hiff.2 fun t ht => Option.some.inj ht ▸ hexit
  exact ⟨built_searching, by decide, s, h, f, l, hs, NodeGraph.blockOf_of_nodeOf? hh, hf4, hf, hl,
    hshape, hfout, hne hfout⟩

/-- A loop with two ways around, each of which may leave it halfway. -/
def forking : Procedure :=
  .ofGraph 0 "fork" (.empty 4)
    ((Graph.empty 0 4).addBlock (.empty 0 "head") |>.addBlock (.empty 1 "left")
      |>.addBlock (.empty 2 "right") |>.addBlock (.empty 3 "next") |>.addBlock (.empty 4 "done")
      |>.addEdge 0 1 |>.addEdge 0 2 |>.addEdge 1 3 |>.addEdge 1 4 |>.addEdge 2 3 |>.addEdge 2 4
      |>.addEdge 3 0)

theorem built_forking : forking.graph.Built :=
  .addEdge _ _ (.addEdge _ _ (.addEdge _ _ (.addEdge _ _ (.addEdge _ _ (.addEdge _ _ (.addEdge _ _
    (.addBlock _ (.addBlock _ (.addBlock _ (.addBlock _ (.addBlock _ (.empty 0 4))))))))))))

/-- It is taken to be tested at its head, and to follow at one of the ways around. -/
theorem follow_inside_forking :
    forking.graph.Built ∧ forking.graph.hasBlock forking.graph.entry = true ∧
      forking.graph.edges.Nodup ∧
      ∃ s h f, ofProcedure forking .sequential = .ok s ∧ s.graph.blockOf h = 0 ∧
        s.graph.blockOf f = 2 ∧ (s.role h).loopFollow = some f ∧ (s.role f).loopHead = some h := by
  obtain ⟨s, hs, -⟩ := exists_ofProcedure forking .sequential built_forking (by decide)
  obtain ⟨h, hh, hfound⟩ := exists_node hs 0
    (fun s h => (s.role h).loopFollow.map fun f =>
      (s.graph.blockOf f, decide ((s.role f).loopHead = some h))) (2, true) (by decide +kernel)
  obtain ⟨f, hf, hfound⟩ := Option.map_eq_some_iff.1 hfound
  simp only [Prod.mk.injEq, decide_eq_true_eq] at hfound
  exact ⟨built_forking, by decide, by decide, s, h, f, hs, NodeGraph.blockOf_of_nodeOf? hh,
    hfound.1, hf, hfound.2⟩

end StructuredProcedure
end Recovery
