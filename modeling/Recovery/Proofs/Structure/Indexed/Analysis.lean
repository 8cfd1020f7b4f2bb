import Recovery.Proofs.Structure.Indexed.Jumps
import Recovery.Proofs.Structure.Indexed.NodeGraph
/-
  Structuring answers.

  `Indexed.analyze` reads every list by place and lets every loop run until it is
  done, so it answers only if no read misses and every loop ends. On a graph as
  graph operations build it it always answers, with what structuring answers: the
  parts of the nodes when the entry block was added, and that it is missing
  otherwise (`Indexed.analyze_answers`). Nothing is asked of the exit, of the edges
  or of the walk limit.
-/

namespace Recovery

namespace Indexed

theorem find_eq {graph : Graph} {g : NodeGraph} (D : NodeGraph.Depicts graph g)
    (links : PostDominators g.size) :
    find g (Numbering.ofNodeGraph g) links =
      some (Roles.find g (Numbering.ofNodeGraph g) links) := by
  have hall := Numbering.mem_ordering D
  obtain ⟨hloops, hchosen⟩ :=
    loops_eq (listed_ofNodeGraph D) (chosen_classify links hall)
  rw [find, conditionals_eq]
  show (loops g _ _).bind _ = _
  rw [hloops, Option.bind_some, jumps_eq hchosen (Numbering.nodup_ordering g) hall]
  rfl

/-- **Structuring is total and safe.** Of every procedure, with every walk limit, all reads
hit and all loops end, and the answer is a structure exactly when the entry block was added. -/
theorem analyze_answers (p : Procedure) (settings : Settings) (hbuilt : p.graph.Built) :
    analyze p settings.walkLimit = some (StructuredProcedure.ofProcedure p settings) ∧
      ((∃ s, StructuredProcedure.ofProcedure p settings = .ok s) ↔
        p.graph.hasBlock p.graph.entry = true) ∧
      (p.graph.hasBlock p.graph.entry = false →
        StructuredProcedure.ofProcedure p settings = .error (.missingEntry p.name)) := by
  cases hentry : p.graph.hasBlock p.graph.entry with
  | false =>
    have herror : StructuredProcedure.ofProcedure p settings = .error (.missingEntry p.name) := by
      rw [StructuredProcedure.ofProcedure, NumberedProcedure.build,
        NodeGraph.ofGraph?_eq_none hentry]
      rfl
    refine ⟨?_, ⟨?_, fun h => absurd h Bool.false_ne_true⟩, fun _ => herror⟩
    · rw [analyze, if_pos hentry, herror]
    · rintro ⟨s, hs⟩
      rw [herror] at hs
      cases hs
  | true =>
    obtain ⟨s, hs, -⟩ := StructuredProcedure.exists_ofProcedure p settings hbuilt hentry
    refine ⟨?_, ⟨fun _ => rfl, fun _ => ⟨s, hs⟩⟩, fun h => absurd h.symm Bool.false_ne_true⟩
    obtain ⟨g, hg, D⟩ := NodeGraph.exists_depicts hbuilt hentry
    obtain ⟨met, hmet, hgraph⟩ := exists_nodeGraph hbuilt hentry
    have hfound : p.graph.hasBlock p.graph.entry ≠ false := by
      rw [hentry]
      exact Bool.noConfusion
    rw [analyze, if_neg hfound, hmet]
    simp only [Option.bind_eq_bind, Option.bind_some, hgraph, hg, number_eq, postDominators_eq,
      find_eq D]
    rw [StructuredProcedure.ofProcedure, NumberedProcedure.build, hg]
    rfl

/-- Entry and exit in one, a block added twice, edges declared twice, an edge from a block to
itself and one to a block that was never added, and no way out of the loops. -/
def unruly : Procedure :=
  .ofGraph 0 "unruly" (.empty 4)
    ((Graph.empty 0 0).addBlock (.empty 0 "b0") |>.addBlock (.empty 1 "b1")
      |>.addBlock (.empty 2 "b2") |>.addBlock (.empty 1 "again") |>.addEdge 0 1 |>.addEdge 0 1
      |>.addEdge 1 1 |>.addEdge 1 9 |>.addEdge 0 2 |>.addEdge 2 0 |>.addEdge 9 2)

theorem built_unruly : unruly.graph.Built :=
  .addEdge _ _ (.addEdge _ _ (.addEdge _ _ (.addEdge _ _ (.addEdge _ _ (.addEdge _ _ (.addEdge _ _
    (.addBlock _ (.addBlock _ (.addBlock _ (.addBlock _ (.empty 0 0)))))))))))

/-- It has a structure, found with a walk limit of one. -/
theorem analyze_answers_unruly :
    unruly.graph.Built ∧
      analyze unruly (Settings.standard.withWalkLimit 0).walkLimit =
        some (StructuredProcedure.ofProcedure unruly (Settings.standard.withWalkLimit 0)) ∧
      ∃ s, StructuredProcedure.ofProcedure unruly (Settings.standard.withWalkLimit 0) = .ok s := by
  obtain ⟨hanswer, hok, -⟩ :=
    analyze_answers unruly (Settings.standard.withWalkLimit 0) built_unruly
  exact ⟨built_unruly, hanswer, hok.2 (by decide)⟩

end Indexed
end Recovery
