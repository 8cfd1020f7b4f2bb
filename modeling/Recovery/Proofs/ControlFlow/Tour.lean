import Recovery.Proofs.ControlFlow.DepthFirst
/-
  What lies between entering a vertex and leaving it.

  In the walk around a depth-first forest, the part from entering a vertex to leaving it
  is the walk around what hangs below the vertex, and that is again a depth-first forest,
  grown with what the walk had entered by then marked (`exists_tree`). So the vertices
  entered in that part are those to which a path leads from the vertex through vertices
  that were not marked yet when it was entered, and by the end of that part all
  neighbours of the vertex are marked (`exists_between`).
-/

namespace Recovery
variable {α : Type}

/-- Walks that leave each vertex they enter, after leaving what they entered in between. -/
inductive Visit.Nested : List (Visit α) → Prop
  | nil : Nested []
  | visit {v : α} {inside after : List (Visit α)} :
      Nested inside → Nested after → Nested (.enter v :: (inside ++ .leave v :: after))

namespace Forest

theorem nested_events (f : Forest α) : Visit.Nested f.events := by
  induction f with
  | nil => exact .nil
  | node v c s ihc ihs => exact .visit ihc ihs

namespace DepthFirst
variable {next : α → List α} {pending seen seen' : List α} {f : Forest α} {v : α}

/-- The walk around a forest comes to a vertex with what it has entered marked, and walks
around what grows there before it leaves the vertex. -/
theorem exists_tree (h : DepthFirst next pending seen f seen') (hv : v ∈ f.preorder) :
    ∃ before after there c mid,
      f.events = before ++ .enter v :: (c.events ++ .leave v :: after) ∧
        (∀ x, x ∈ there ↔ x ∈ seen ∨ .enter x ∈ before) ∧
        DepthFirst next (next v) (v :: there) c mid := by
  induction h with
  | done seen => cases hv
  | skip _ _ ih => exact ih hv
  | @visit r pending seen mid seen' c s _ hc _ ihc ihs =>
    simp only [preorder, List.mem_cons, List.mem_append] at hv
    rcases hv with rfl | hv | hv
    · exact ⟨[], s.events, seen, c, mid, rfl, by simp, hc⟩
    · obtain ⟨before, after, there, d, mid', hevents, hthere, hd⟩ := ihc hv
      refine ⟨.enter r :: before, after ++ .leave r :: s.events, there, d, mid', ?_, ?_, hd⟩
      · simp only [events, hevents, List.cons_append, List.append_assoc]
      · intro x
        simp only [hthere, List.mem_cons, Visit.enter.injEq, or_assoc, or_left_comm]
    · obtain ⟨before, after, there, d, mid', hevents, hthere, hd⟩ := ihs hv
      refine ⟨.enter r :: (c.events ++ .leave r :: before), after, there, d, mid', ?_, ?_, hd⟩
      · simp only [events, hevents, List.cons_append, List.append_assoc]
      · -- what the siblings start with is what the children have marked
        intro x
        simp only [hthere, hc.mem_seen, List.mem_cons, List.mem_append, Visit.enter.injEq,
          (c.mem_events x).1, reduceCtorEq, false_or]
        constructor
        · rintro ((hx | hx | hx) | hx) <;> simp [hx]
        · rintro (hx | hx | hx | hx) <;> simp [hx]

/-- Between entering a vertex and leaving it, the walk enters what the vertex reaches
through vertices that were not marked yet; then all neighbours of the vertex are marked. -/
theorem exists_between (h : DepthFirst next pending seen f seen') (hv : v ∈ f.preorder) :
    ∃ before inside after, f.events = before ++ .enter v :: (inside ++ .leave v :: after) ∧
      (∀ w, .enter w ∈ inside ↔ w ≠ v ∧
        Reaches (AlongTo next fun x => x ∉ seen ∧ .enter x ∉ before ++ [.enter v]) v w) ∧
      ∀ w ∈ next v, w ∈ seen ∨ .enter w ∈ before ++ .enter v :: inside := by
  obtain ⟨before, after, there, c, mid, hevents, hthere, hc⟩ := h.exists_tree hv
  have hmarked (x : α) : x ∈ v :: there ↔ x ∈ seen ∨ .enter x ∈ before ++ [.enter v] := by
    rw [List.mem_cons, hthere, or_comm, List.mem_append, List.mem_singleton, Visit.enter.injEq,
      or_assoc]
  refine ⟨before, c.events, after, hevents, fun w => ?_, fun w hw => ?_⟩
  · rw [(c.mem_events w).1, ← alongTo_congr fun x => (not_congr (hmarked x)).trans not_or]
    constructor
    · intro hw
      obtain ⟨r, hr, hrs, hreach⟩ := (hc.mem_preorder_iff_unmarked w).1 hw
      exact ⟨fun hwv => hc.fresh hw (hwv ▸ List.mem_cons_self), .step ⟨hr, hrs⟩ hreach⟩
    · rintro ⟨hne, hreach⟩
      obtain ⟨r, ⟨hr, hrs⟩, hreach⟩ := hreach.exists_step hne
      exact (hc.mem_preorder_iff_unmarked w).2 ⟨r, hr, hrs, hreach⟩
  · rcases (hc.mem_seen w).1 (hc.seen_of_pending hw) with hw | hw
    · refine Or.inr (List.mem_append_right _ (List.mem_cons_of_mem _ ?_))
      exact (c.mem_events w).1.2 hw
    · refine ((hmarked w).1 hw).imp_right fun hw => ?_
      rw [← List.singleton_append, ← List.append_assoc]
      exact List.mem_append_left _ hw

end DepthFirst
end Forest
end Recovery
