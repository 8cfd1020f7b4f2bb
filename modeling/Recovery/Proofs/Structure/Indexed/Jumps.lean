import Recovery.Proofs.Structure.Indexed.Loops
/-
  Jumps, found by index.

  A node that still heads a conditional here has two successors, though its heads
  were written twice since it was classified (`Chosen`), so a branch of it can be
  read (`shapeToward_eq`).

  Nodes are judged one after the other in the same table. Judging a node writes
  its jump and its shape, and reads neither of any other node, so it makes no
  difference which nodes were judged before (`check_eq`, `foldl_set_eq_ofFn`). The
  same holds of marking the back edges that are left over.
-/

namespace Recovery.Indexed
variable {g : NodeGraph} {k : Numbering g.size} {roles : Roles g.size}

theorem shapeToward_eq {v : g.Node} (h : 2 ≤ (g.next v).length) (target : g.Node) :
    shapeToward g k v target = some (Jumps.shapeToward g k v target) := by
  obtain ⟨taken, fallen, hbranches, htaken, hfallen⟩ := NodeGraph.exists_branches h
  rw [shapeToward, Jumps.shapeToward, hbranches, htaken, hfallen]
  simp only [Option.bind_eq_bind, Option.bind_some]
  split
  · rfl
  · split
    · rfl
    · rfl

theorem shapeTowardAny_eq {v : g.Node} (h : 2 ≤ (g.next v).length) (target : Option g.Node) :
    shapeTowardAny g k v target = some (target.bind (Jumps.shapeToward g k v)) := by
  cases target with
  | none => rfl
  | some target => exact shapeToward_eq h target

theorem crossing_eq {v : g.Node} (h : 2 ≤ (g.next v).length) (roles : Roles g.size)
    (follow : g.Node) :
    crossing g k roles v follow = some (Jumps.crossing g k roles v follow) := by
  rw [crossing, Jumps.crossing]
  split
  · rfl
  · rw [shapeTowardAny_eq h, shapeTowardAny_eq h]
    simp only [Option.bind_eq_bind, Option.bind_some]
    split
    · next hshape => rw [hshape, Option.some_or]
    · next hshape => rw [hshape, Option.none_or]

/-! ## One node after the other -/

theorem check_eq (k : Numbering g.size) (hroles : Chosen g roles) (v : g.Node) :
    check g k roles v = some (roles.set v (Jumps.judged g k roles v) v.isLt) := by
  have hsame : roles.set v (roles.get v) v.isLt = roles := Vector.set_getElem_self v.isLt
  unfold check Jumps.judged
  dsimp only
  by_cases hstop : (roles.get v).heads.isConditional = false ∨
      (roles.get v).shape = some .switch
  · rw [if_pos hstop]
    cases (roles.get v).follow with
    | none => rw [hsame]
    | some follow => simp only [if_pos hstop, hsame]
  · rw [if_neg hstop]
    have hchoice : 2 ≤ (g.next v).length :=
      hroles v (Bool.eq_true_of_not_eq_false fun h => hstop (Or.inl h))
    cases hfollow : (roles.get v).follow with
    | none => rw [hsame]
    | some follow =>
      simp only [if_neg hstop, crossing_eq hchoice, Option.bind_eq_bind, Option.bind_some]
      cases Jumps.crossing g k roles v follow with
      | some shape => simp only [Roles.edit, hfollow]
      | none =>
        dsimp only
        split
        · simp only [Roles.edit, hfollow]
        · rw [hsame]

theorem heads_judged (roles : Roles g.size) (v : g.Node) :
    (Jumps.judged g k roles v).heads = (roles.get v).heads := by
  obtain ⟨jump, shape, hjudged, -⟩ := Jumps.exists_judged g k roles v
  rw [hjudged]

theorem Chosen.judged (k : Numbering g.size) (hroles : Chosen g roles) (v : g.Node) :
    Chosen g (roles.set v (Jumps.judged g k roles v) v.isLt) := by
  intro w hw
  rw [get_set] at hw
  split at hw
  · next hv =>
    rw [heads_judged, hv] at hw
    exact hroles w hw
  · exact hroles w hw

/-- How a node is judged is told by its own part and by the loops, latches and switches of
others. -/
theorem judged_congr {s t : Roles g.size} {v : g.Node}
    (h : ∀ w, ((s.get w).loopHead, (s.get w).latch, (s.get w).caseHead) =
      ((t.get w).loopHead, (t.get w).latch, (t.get w).caseHead))
    (hv : s.get v = t.get v) : Jumps.judged g k s v = Jumps.judged g k t v := by
  simp only [Prod.mk.injEq] at h
  have hloop (w : g.Node) : (s.get w).loopHead = (t.get w).loopHead := (h w).1
  have hlatch : (fun w => (s.get w).latch) = fun w => (t.get w).latch := funext fun w => (h w).2.1
  have hcase (w : g.Node) : (s.get w).caseHead = (t.get w).caseHead := (h w).2.2
  have hown : Jumps.loopOf g s v = Jumps.loopOf g t v := by rw [Jumps.loopOf, Jumps.loopOf, hv]
  have hcrossing : Jumps.crossing g k s v = Jumps.crossing g k t v := by
    funext follow
    unfold Jumps.crossing
    dsimp only
    rw [hown, hloop follow, hlatch]
  have hcases : ((g.next v).any fun w => decide ((s.get w).caseHead ≠ (t.get v).caseHead)) =
      (g.next v).any fun w => decide ((t.get w).caseHead ≠ (t.get v).caseHead) := by
    simp only [hcase]
  unfold Jumps.judged
  dsimp only
  rw [hv, hcrossing, hcases]

def flagged (g : NodeGraph) (k : Numbering g.size) (roles : Roles g.size) (v : g.Node) :
    Role g.size :=
  if (roles.get v).jump = .none ∧ Jumps.hasUnlatchedBackEdge g k roles v then
    { roles.get v with jump := .acrossLoop }
  else roles.get v

theorem flag_eq (roles : Roles g.size) (v : g.Node) :
    flag g k roles v = roles.set v (flagged g k roles v) v.isLt := by
  rw [flag, flagged]
  split
  · rfl
  · exact (Vector.set_getElem_self v.isLt).symm

theorem flagged_congr {s t : Roles g.size} {v : g.Node}
    (h : ∀ w, (s.get w).latch = (t.get w).latch) (hv : s.get v = t.get v) :
    flagged g k s v = flagged g k t v := by
  have hback : Jumps.hasUnlatchedBackEdge g k s v = Jumps.hasUnlatchedBackEdge g k t v := by
    simp only [Jumps.hasUnlatchedBackEdge, h]
  rw [flagged, flagged, hback, hv]

/-! ## Every jump -/

theorem jumps_eq (hroles : Chosen g roles) (hnodup : k.ordering.Nodup)
    (hall : ∀ v, v ∈ k.ordering) : jumps g k roles = some (Jumps.classify g k roles) := by
  have hcheck := (eachOrdered_eq k (fun roles : Roles g.size => roles) (Chosen g)
    (fun roles v h => ⟨check_eq k h v, h.judged k v⟩) roles hroles).1
  have hjudge := foldl_set_eq_ofFn (fun r : Role g.size => (r.loopHead, r.latch, r.caseHead))
    (Jumps.judged g k)
    (fun roles v => by
      obtain ⟨jump, shape, hjudged, -⟩ := Jumps.exists_judged g k roles v
      rw [hjudged])
    (fun s t v h hv => judged_congr h hv) hnodup hall roles
  have hmark := foldl_set_eq_ofFn (fun r : Role g.size => r.latch) (flagged g k)
    (fun roles v => by
      rw [flagged]
      split
      · rfl
      · rfl)
    (fun s t v h hv => flagged_congr h hv) hnodup hall (Jumps.judge g k roles)
  rw [jumps, hcheck, hjudge]
  show eachOrdered g k _ (Jumps.judge g k roles) = _
  simp only [flag_eq]
  rw [eachOrdered, eachAt_range, foldlM_some, hmark]
  rfl

end Recovery.Indexed
