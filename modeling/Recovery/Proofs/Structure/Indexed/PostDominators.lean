import Recovery.Proofs.Loop
import Recovery.Proofs.Structure.NodeGraph
import Recovery.Structure.Indexed
/-
  Links between nodes, found by index.

  Links may lead in circles, and nothing is asked of them here. The walk up two
  chains ends because it counts its steps: with as many left as the bounded walk
  is given it ends the same way (`climb_eq`), so each node gets the same link. The
  passes then read nodes and successors at places that lie in their lists
  (`postDominators_eq`).
-/

namespace Recovery.Indexed

section
variable {n : Nat} (k : Numbering n) (limit : Nat) (links : PostDominators n)

/-- Where a walk leaves a node whose link was `old`. -/
def outcome (old : Fin n) : PostDominators.WalkEnd n → Option (Fin n)
  | .settled place => place
  | .gaveUp => some old

/-- The walk that counts its steps up to a limit ends as the walk that counts down what is
left of them. -/
theorem climb_eq (old : Fin n) (left : Nat) :
    ∀ (steps : Nat) (cur succ : Option (Fin n)), steps + left = limit →
      untilDone (climbTurn k limit links old) (cur, succ, steps) =
        some (outcome old (PostDominators.walk k links left cur succ)) := by
  induction left with
  | zero =>
    intro steps cur succ hsteps
    have hnone : ¬ steps < limit := by omega
    exact untilDone_done (if_neg hnone)
  | succ left ih =>
    intro steps cur succ hsteps
    have hlt : steps < limit := by omega
    have hnext : steps + 1 + left = limit := by omega
    cases cur with
    | none => exact untilDone_done (if_pos hlt)
    | some c =>
      cases succ with
      | none => exact untilDone_done (if_pos hlt)
      | some s =>
        rw [PostDominators.walk]
        by_cases hcs : c = s
        · rw [if_pos hcs]
          exact untilDone_done ((if_pos hlt).trans (if_pos hcs))
        · rw [if_neg hcs]
          -- the chain at the lower number climbs
          by_cases hlow : k.revOrder.get s < k.revOrder.get c
          · rw [if_pos hlow, ← ih (steps + 1) (some c) (links.get s) hnext]
            exact untilDone_again ((if_pos hlt).trans ((if_neg hcs).trans (if_pos hlow)))
          · rw [if_neg hlow, ← ih (steps + 1) (links.get c) (some s) hnext]
            exact untilDone_again ((if_pos hlt).trans ((if_neg hcs).trans (if_neg hlow)))

theorem meet_eq (a b : Option (Fin n)) :
    meet k limit links a b = some (PostDominators.meet k limit links a b) := by
  cases a with
  | none => rfl
  | some a =>
    cases b with
    | none => rfl
    | some b =>
      rw [meet, climb_eq k limit links a limit 0 _ _ (Nat.zero_add limit), PostDominators.meet]
      cases PostDominators.walk k links limit (some a) (some b) with
      | settled place => rfl
      | gaveUp => rfl

theorem update_eq (v : Fin n) (a b : Option (Fin n)) :
    update k limit links v a b =
      some (links.set v (PostDominators.meet k limit links a b) v.isLt) := by
  rw [update, meet_eq]
  rfl

theorem joinThrough_eq (v s : Fin n) :
    joinThrough k limit v links s = some (PostDominators.joinThrough k limit v links s) := by
  rw [joinThrough, PostDominators.joinThrough]
  cases links.get s with
  | none => exact update_eq ..
  | some sp =>
    cases links.get v with
    | none => exact update_eq ..
    | some np =>
      by_cases hback : (k.isBackEdge v s && decide (k.order.get sp < k.order.get np)) = true
      · simp only [if_pos hback]
        exact update_eq ..
      · simp only [if_neg hback]
        exact update_eq ..

end

variable {g : NodeGraph} (k : Numbering g.size) (limit : Nat)

theorem eachSuccessor_eq {β : Type} {step : β → g.Node → Option β} {plain : β → g.Node → β}
    (h : ∀ b s, step b s = some (plain b s)) (v : g.Node) (b : β) :
    eachSuccessor g v step b = some ((g.next v).foldl plain b) := by
  have hstep : step = fun b s => some (plain b s) := funext fun b => funext (h b)
  rw [eachSuccessor, eachAt_range, hstep, foldlM_some]

/-- Nodes are read by their place as they stand in leaving order; a step may rely on what
earlier steps keep. -/
theorem eachOrdered_eq {β γ : Type} {step : β → g.Node → Option β} {plain : γ → g.Node → γ}
    (view : γ → β) (Keeps : γ → Prop)
    (h : ∀ c v, Keeps c → step (view c) v = some (view (plain c v)) ∧ Keeps (plain c v)) (c : γ)
    (hc : Keeps c) :
    eachOrdered g k step (view c) = some (view (k.ordering.foldl plain c)) ∧
      Keeps (k.ordering.foldl plain c) := by
  rw [eachOrdered, eachAt_range]
  exact foldlM_eq_some view Keeps (fun c v _ => h c v) c hc

theorem ascend_eq (links : PostDominators g.size) :
    ascend g k limit links = some (PostDominators.ascend g k limit links) := by
  have hnode (links : PostDominators g.size) (v : g.Node) :
      eachSuccessor g v (fun links s =>
        if k.revOrder.get v < k.revOrder.get s then update k limit links v (links.get v) (some s)
        else some links) links =
      some (((g.next v).filter fun s => k.revOrder.get v < k.revOrder.get s).foldl
        (PostDominators.join k limit v) links) := by
    rw [List.foldl_filter]
    refine eachSuccessor_eq (fun links s => ?_) v links
    simp only [decide_eq_true_eq]
    split
    · exact update_eq ..
    · rfl
  rw [ascend, eachAt_range_reverse]
  simp only [hnode]
  exact foldlM_some ..

theorem choices_eq {step : g.Node → PostDominators g.size → g.Node → Option (PostDominators g.size)}
    {plain : g.Node → PostDominators g.size → g.Node → PostDominators g.size}
    (h : ∀ v links s, step v links s = some (plain v links s)) (links : PostDominators g.size) :
    eachOrdered g k
      (fun links v =>
        if (g.next v).length ≤ 1 then some links else eachSuccessor g v (step v) links) links =
      some ((k.ordering.filter g.isConditional).foldl
        (fun links v => (g.next v).foldl (plain v) links) links) := by
  rw [List.foldl_filter]
  refine (eachOrdered_eq k (fun links => links) (fun _ => True) (fun links v _ => ⟨?_, trivial⟩)
    links trivial).1
  simp only [NodeGraph.isConditional_iff]
  by_cases hv : (g.next v).length ≤ 1
  · rw [if_pos hv, if_neg (by omega)]
  · rw [if_neg hv, if_pos (by omega)]
    exact eachSuccessor_eq (h v) v links

theorem postDominators_eq : postDominators g k limit = some (PostDominators.compute g k limit) := by
  rw [postDominators, ascend_eq]
  show (branch g k limit _).bind _ = _
  rw [branch, choices_eq k fun v links s => update_eq k limit links v (links.get v) (some s)]
  show branchThrough g k limit _ = _
  rw [branchThrough, choices_eq k fun v links s => joinThrough_eq k limit links v s]
  rfl

end Recovery.Indexed
