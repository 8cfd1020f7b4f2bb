import Recovery.Proofs.Structure.NodeGraph
import Recovery.Proofs.Vectors
import Recovery.Structure.StructuredProcedure
/-
  What each phase writes.

  Three phases write the table of parts one after the other, over the same
  fields. What each writes is said once, for the whole part of a node:

    1. a conditional is classified at its own node, and elsewhere at most the
       switch around a node changes (`Conditionals.get_classifyOne`);
    2. marking a loop makes its head a head, takes the conditional from its latch
       and hands out the loop to its members (`Loops.exists_get_mark`), so marking
       all of them leaves jumps, follows and switches alone
       (`Loops.exists_get_classify`);
    3. judging jumps changes marks and shapes only (`Jumps.exists_get_classify`), so
       follows and switches end up as the conditionals left them
       (`Roles.exists_get_find`).
-/

namespace Recovery

namespace Roles
variable {n : Nat}

theorem get_editAll {change : Role n → Role n} (h : ∀ r, change (change r) = change r)
    (vs : List (Fin n)) (w : Fin n) : ∀ roles : Roles n,
    (roles.editAll vs change).get w = if w ∈ vs then change (roles.get w) else roles.get w := by
  induction vs with
  | nil => exact fun _ => rfl
  | cons v vs ih =>
    intro roles
    show ((roles.edit v change).editAll vs change).get w = _
    rw [ih, get_edit]
    by_cases hvw : v = w
    · subst hvw
      simp [h]
    · simp [hvw, Ne.symm hvw]

theorem edit_edit (roles : Roles n) (v : Fin n) (first second : Role n → Role n) :
    (roles.edit v first).edit v second = roles.edit v fun r => second (first r) := by
  refine ext_get fun w => ?_
  simp only [get_edit, if_true]
  split
  · rfl
  · rfl

end Roles

/-! ## Conditionals -/

namespace Conditionals
variable {g : NodeGraph} {k : Numbering g.size} {links : PostDominators g.size}

/-- Where a node of a choice follows: nowhere new when a back edge leaves it two
ways, else at its link. -/
def followAt (g : NodeGraph) (k : Numbering g.size) (links : PostDominators g.size)
    (roles : Roles g.size) (v : g.Node) : Option g.Node :=
  if Numbering.hasBackEdge g k v && decide (g.branching v = .twoWay) then (roles.get v).follow
  else links.get v

theorem get_classifyOne (g : NodeGraph) (k : Numbering g.size) (links : PostDominators g.size)
    (state : Roles g.size × List g.Node) (v w : g.Node) :
    ∃ c, (classifyOne g k links state v).1.get w =
      if v = w then
        { state.1.get v with
          heads := .conditional
          shape := some (shapeOf g v (followAt g k links state.1 v))
          follow := followAt g k links state.1 v
          caseHead := c }
      else { state.1.get w with caseHead := c } := by
  unfold classifyOne followAt
  dsimp only
  split
  · refine ⟨(state.1.get w).caseHead, ?_⟩
    rw [Roles.get_edit]
    split
    · next hvw => rw [hvw]
    · rfl
  · split
    · rw [Roles.get_editAll, Roles.get_edit]
      · by_cases hvw : v = w
        · rw [if_pos hvw]
          split
          · exact ⟨some v, rfl⟩
          · exact ⟨(state.1.get v).caseHead, rfl⟩
        · rw [if_neg hvw]
          split
          · exact ⟨some v, rfl⟩
          · exact ⟨(state.1.get w).caseHead, rfl⟩
      · exact fun _ => rfl
    · refine ⟨(state.1.get w).caseHead, ?_⟩
      rw [Roles.get_edit]
      split
      · next hvw => rw [hvw]
      · rfl

theorem foldl_classifyOne (k : Numbering g.size) (links : PostDominators g.size)
    {P : Role g.size → Prop} {w : g.Node}
    (hset : ∀ state, P ((classifyOne g k links state w).1.get w))
    (hkeep : ∀ (r : Role g.size) c, P r → P { r with caseHead := c }) (vs : List g.Node) :
    ∀ state, w ∈ vs ∨ P (state.1.get w) →
      P ((vs.foldl (classifyOne g k links) state).1.get w) := by
  induction vs with
  | nil => exact fun _ h => h.resolve_left (List.not_mem_nil)
  | cons v vs ih =>
    intro state h
    refine ih _ ?_
    by_cases hvw : v = w
    · exact Or.inr (hvw ▸ hset state)
    · refine h.imp (fun hw => (List.mem_cons.1 hw).resolve_left (Ne.symm hvw)) fun hP => ?_
      obtain ⟨c, hc⟩ := get_classifyOne g k links state v w
      rw [hc, if_neg hvw]
      exact hkeep _ c hP

/-- A run changes what a node heads as a conditional, and that only if it
classifies the node. -/
theorem exists_get_foldl_classifyOne (k : Numbering g.size) (links : PostDominators g.size)
    (w : g.Node) (vs : List g.Node) : ∀ state,
    ∃ heads shape follow c, (vs.foldl (classifyOne g k links) state).1.get w =
        { state.1.get w with
          heads := heads, shape := shape, follow := follow, caseHead := c } ∧
      (w ∉ vs → heads = (state.1.get w).heads ∧ shape = (state.1.get w).shape) := by
  induction vs with
  | nil => exact fun state => ⟨_, _, _, _, rfl, fun _ => ⟨rfl, rfl⟩⟩
  | cons v vs ih =>
    intro state
    obtain ⟨c, hc⟩ := get_classifyOne g k links state v w
    obtain ⟨heads, shape, follow, c', hget, hsame⟩ := ih (classifyOne g k links state v)
    refine ⟨heads, shape, follow, c', ?_, fun hw => ?_⟩
    · rw [List.foldl_cons, hget, hc]
      split
      · next hvw => rw [hvw]
      · rfl
    · rw [List.mem_cons, not_or] at hw
      obtain ⟨hheads, hshape⟩ := hsame hw.2
      rw [hheads, hshape, hc, if_neg (Ne.symm hw.1)]
      exact ⟨rfl, rfl⟩

/-- After all conditionals are classified, exactly the nodes with a choice are
conditionals, and no loop is known. -/
theorem exists_get_classify (links : PostDominators g.size) (hall : ∀ v, v ∈ k.ordering)
    (v : g.Node) :
    ∃ heads shape follow c, (classify g k links).get v =
        { Role.plain g.size with
          heads := heads, shape := shape, follow := follow, caseHead := c } ∧
      (2 ≤ (g.next v).length → heads = .conditional ∧ ∃ s, shape = some s) ∧
      (¬ 2 ≤ (g.next v).length → heads = .nothing ∧ shape = none) := by
  obtain ⟨heads, shape, follow, c, hget, hsame⟩ :=
    exists_get_foldl_classifyOne k links v (k.ordering.filter g.isConditional)
      (.replicate g.size (.plain g.size), [])
  rw [get_replicate] at hget hsame
  have hmem : v ∈ k.ordering.filter g.isConditional ↔ 2 ≤ (g.next v).length := by
    rw [List.mem_filter, NodeGraph.isConditional_iff]
    exact and_iff_right (hall v)
  refine ⟨heads, shape, follow, c, hget, fun hv => ?_, fun hv => hsame (mt hmem.1 hv)⟩
  have hset := foldl_classifyOne k links (w := v)
    (P := fun r => r.heads = .conditional ∧ ∃ s, r.shape = some s)
    (fun state => by
      obtain ⟨c, hc⟩ := get_classifyOne g k links state v v
      rw [hc, if_pos rfl]
      exact ⟨rfl, _, rfl⟩)
    (fun _ _ h => h) _ (.replicate g.size (.plain g.size), []) (Or.inl (hmem.2 hv))
  rw [hget] at hset
  exact hset

theorem exists_classify_eq_plain (k : Numbering g.size) (links : PostDominators g.size)
    (w : g.Node) :
    ∃ heads shape follow c, (classify g k links).get w =
      { Role.plain g.size with
        heads := heads, shape := shape, follow := follow, caseHead := c } := by
  obtain ⟨heads, shape, follow, c, hw, -⟩ :=
    exists_get_foldl_classifyOne k links w (k.ordering.filter g.isConditional)
      (.replicate g.size (.plain g.size), [])
  rw [get_replicate] at hw
  exact ⟨heads, shape, follow, c, hw⟩

theorem latch_classify (k : Numbering g.size) (links : PostDominators g.size) (w : g.Node) :
    ((classify g k links).get w).latch = none := by
  obtain ⟨_, _, _, _, hw⟩ := exists_classify_eq_plain k links w
  rw [hw]
  rfl

theorem latch_classify_ne_some (k : Numbering g.size) (links : PostDominators g.size)
    (w l : g.Node) : ((classify g k links).get w).latch ≠ some l := by
  rw [latch_classify]
  exact fun h => nomatch h

theorem loopHead_classify (k : Numbering g.size) (links : PostDominators g.size) (w : g.Node) :
    ((classify g k links).get w).loopHead = none := by
  obtain ⟨_, _, _, _, hw⟩ := exists_classify_eq_plain k links w
  rw [hw]
  rfl

theorem heads_classify (links : PostDominators g.size) (hall : ∀ v, v ∈ k.ordering)
    (w : g.Node) :
    ((classify g k links).get w).heads =
      if 2 ≤ (g.next w).length then .conditional else .nothing := by
  obtain ⟨_, _, _, _, hw, hchoice, hplain⟩ := exists_get_classify links hall w
  rw [hw]
  split
  · next h2 => exact (hchoice h2).1
  · next h2 => exact (hplain h2).1

theorem exists_shape_classify_iff (links : PostDominators g.size) (hall : ∀ v, v ∈ k.ordering)
    (w : g.Node) :
    (∃ shape, ((classify g k links).get w).shape = some shape) ↔ 2 ≤ (g.next w).length := by
  obtain ⟨_, shape, _, _, hw, hchoice, hplain⟩ := exists_get_classify links hall w
  rw [hw]
  refine ⟨fun ⟨s, hs⟩ => ?_, fun h2 => (hchoice h2).2⟩
  by_contra h2
  cases (hplain h2).2.symm.trans hs

end Conditionals

/-! ## Loops -/

namespace Loops
variable {g : NodeGraph} {k : Numbering g.size} {roles : Roles g.size}

/-- The parts with a latch given to its head and its conditional taken from it. -/
def latched (roles : Roles g.size) (head latch : g.Node) : Roles g.size :=
  let roles := roles.edit head fun r => { r with latch := some latch }
  if latch ≠ head ∧ (roles.get latch).heads = .conditional then
    roles.edit latch fun r => { r with heads := .nothing }
  else roles

/-- The parts with a loop handed out to its head and its members, its shape not found yet. -/
def unshaped (g : NodeGraph) (k : Numbering g.size) (roles : Roles g.size)
    (head latch : g.Node) : Roles g.size :=
  ((latched roles head latch).edit head fun r =>
    { r with
      heads := if g.branching head = .twoWay ∧ head ≠ latch then .loopConditional else .loop
      loopHead := some head }).editAll
    (members g k head latch) fun r => { r with loopHead := some head }

theorem exists_mark_eq (roles : Roles g.size) (head latch : g.Node) :
    ∃ shape follow, mark g k roles head latch =
      (unshaped g k roles head latch).edit head fun r =>
        { r with loopShape := some shape, loopFollow := follow } :=
  ⟨_, _, rfl⟩

theorem get_latched (roles : Roles g.size) (head latch w : g.Node) :
    (latched roles head latch).get w =
      if w = head then { roles.get head with latch := some latch }
      else { roles.get w with
        heads := if w = latch ∧ (roles.get w).heads = .conditional then .nothing
          else (roles.get w).heads } := by
  have hedit (x : g.Node) : (roles.edit head fun r => { r with latch := some latch }).get x =
      if head = x then { roles.get head with latch := some latch } else roles.get x :=
    Roles.get_edit ..
  unfold latched
  dsimp only
  by_cases hw : w = head
  · rw [if_pos hw]
    split
    · next hc => rw [Roles.get_edit, if_neg (fun h => hc.1 (h.trans hw)), hedit, if_pos hw.symm]
    · rw [hedit, if_pos hw.symm]
  · rw [if_neg hw]
    split
    · next hc =>
      rw [hedit, if_neg (Ne.symm hc.1)] at hc
      rw [Roles.get_edit, hedit, hedit, if_neg (Ne.symm hw), if_neg (Ne.symm hc.1)]
      by_cases hl : latch = w
      · subst hl
        rw [if_pos rfl, if_pos ⟨rfl, hc.2⟩]
      · rw [if_neg hl, if_neg fun h => hl h.1.symm]
    · next hc =>
      rw [hedit, if_neg (Ne.symm hw), if_neg]
      rintro ⟨rfl, hw'⟩
      rw [hedit, if_neg (Ne.symm hw)] at hc
      exact hc ⟨hw, hw'⟩

/-- Marking a loop changes its head, its latch and its members. -/
theorem exists_get_mark (g : NodeGraph) (k : Numbering g.size) (roles : Roles g.size)
    (head latch : g.Node) :
    ∃ shape follow, ∀ w, (mark g k roles head latch).get w =
      if w = head then
        { roles.get head with
          heads := if g.branching head = .twoWay ∧ head ≠ latch then .loopConditional else .loop
          loopShape := some shape
          loopFollow := follow
          loopHead := some head
          latch := some latch }
      else
        { roles.get w with
          heads := if w = latch ∧ (roles.get w).heads = .conditional then .nothing
            else (roles.get w).heads
          loopHead := if w ∈ members g k head latch then some head
            else (roles.get w).loopHead } := by
  obtain ⟨shape, follow, heq⟩ := exists_mark_eq (k := k) roles head latch
  refine ⟨shape, follow, fun w => ?_⟩
  rw [heq, Roles.get_edit, unshaped, Roles.get_editAll, Roles.get_editAll]
  rotate_left
  · exact fun _ => rfl
  · exact fun _ => rfl
  rw [Roles.get_edit, Roles.get_edit, if_pos rfl, get_latched, get_latched, if_pos rfl]
  by_cases hw : w = head
  · rw [if_pos hw, if_pos hw.symm]
    split
    · rfl
    · rfl
  · rw [if_neg hw, if_neg (Ne.symm hw), if_neg (Ne.symm hw), if_neg hw]
    split
    · rfl
    · rfl

theorem latch_mark (head latch w : g.Node) :
    ((mark g k roles head latch).get w).latch =
      if head = w then some latch else (roles.get w).latch := by
  obtain ⟨shape, follow, hget⟩ := exists_get_mark g k roles head latch
  rw [hget]
  by_cases hw : head = w
  · rw [if_pos hw.symm, if_pos hw]
  · rw [if_neg (Ne.symm hw), if_neg hw]

theorem latch_mark_eq_some_iff {head latch w l : g.Node} :
    ((mark g k roles head latch).get w).latch = some l ↔
      w = head ∧ l = latch ∨ w ≠ head ∧ (roles.get w).latch = some l := by
  rw [latch_mark]
  by_cases hw : w = head
  · simp [hw, eq_comm]
  · simp [hw, Ne.symm hw]

theorem latch_mark_eq_none_iff {head latch w : g.Node} :
    ((mark g k roles head latch).get w).latch = none ↔
      w ≠ head ∧ (roles.get w).latch = none := by
  rw [latch_mark]
  by_cases hw : w = head
  · simp [hw]
  · simp [hw, Ne.symm hw]

theorem heads_mark (head latch w : g.Node) :
    ((mark g k roles head latch).get w).heads =
      if w = head then
        if g.branching head = .twoWay ∧ head ≠ latch then .loopConditional else .loop
      else if w = latch ∧ (roles.get w).heads = .conditional then .nothing
      else (roles.get w).heads := by
  obtain ⟨shape, follow, hget⟩ := exists_get_mark g k roles head latch
  rw [hget]
  split
  · rfl
  · rfl

theorem shape_mark (head latch w : g.Node) :
    ((mark g k roles head latch).get w).shape = (roles.get w).shape := by
  obtain ⟨shape, follow, hget⟩ := exists_get_mark g k roles head latch
  rw [hget]
  split
  · next hw => rw [hw]
  · rfl

theorem loopHead_mark (head latch w : g.Node) :
    ((mark g k roles head latch).get w).loopHead =
      if w = head ∨ w ∈ members g k head latch then some head else (roles.get w).loopHead := by
  obtain ⟨shape, follow, hget⟩ := exists_get_mark g k roles head latch
  rw [hget]
  by_cases hw : w = head
  · rw [if_pos hw, if_pos (Or.inl hw)]
  · rw [if_neg hw]
    by_cases hmem : w ∈ members g k head latch
    · rw [if_pos hmem, if_pos (Or.inr hmem)]
    · rw [if_neg hmem, if_neg (not_or.2 ⟨hw, hmem⟩)]

/-- Marking every loop changes what nodes head and their loops, and nothing else. -/
theorem exists_get_classify (g : NodeGraph) (k : Numbering g.size) (roles : Roles g.size)
    (w : g.Node) :
    ∃ heads loopShape loopFollow loopHead latch, (classify g k roles).get w =
      { roles.get w with
        heads := heads, loopShape := loopShape, loopFollow := loopFollow
        loopHead := loopHead, latch := latch } := by
  refine List.foldlRecOn
    (motive := fun (roles' : Roles g.size) =>
      ∃ heads loopShape loopFollow loopHead latch, roles'.get w =
        { roles.get w with
          heads := heads, loopShape := loopShape, loopFollow := loopFollow
          loopHead := loopHead, latch := latch })
    _ _ ⟨_, _, _, _, _, rfl⟩ fun roles' h head _ => ?_
  rw [markAt]
  split
  · next latch _ =>
    obtain ⟨_, _, _, _, _, hw⟩ := h
    obtain ⟨shape, follow, hget⟩ := exists_get_mark g k roles' head latch
    rw [hget]
    split
    · next hhead =>
      rw [← hhead, hw]
      exact ⟨_, _, _, _, _, rfl⟩
    · rw [hw]
      exact ⟨_, _, _, _, _, rfl⟩
  · exact h

theorem latch?_eq_some {head latch : g.Node} (h : latch? g k roles head = some latch) :
    latch ∈ g.previous head ∧ canLatch g k roles head latch = true := by
  rw [latch?] at h
  generalize hl : (g.previous head).filter (canLatch g k roles head) = candidates at h
  have hmem : none = some latch ∨ latch ∈ candidates := by
    clear hl
    generalize none = best at h ⊢
    induction candidates generalizing best with
    | nil => exact Or.inl h
    | cons p candidates ih =>
      rcases ih _ h with hbest | hmem
      · dsimp only at hbest
        split at hbest
        · split at hbest
          · exact Or.inr (Option.some.inj hbest ▸ List.mem_cons_self)
          · exact Or.inl hbest
        · exact Or.inr (Option.some.inj hbest ▸ List.mem_cons_self)
      · exact Or.inr (List.mem_cons_of_mem _ hmem)
  rcases hmem with hnone | hmem
  · cases hnone
  · rw [← hl] at hmem
    exact List.mem_filter.1 hmem

theorem isBackEdge_of_canLatch {head p : g.Node} (h : canLatch g k roles head p = true) :
    k.isBackEdge p head = true := by
  rw [canLatch, Bool.and_eq_true] at h
  exact h.2

end Loops

/-! ## Jumps -/

namespace Jumps
variable {g : NodeGraph} {k : Numbering g.size} {roles : Roles g.size}

theorem get_markUnlatched (v : g.Node) :
    (markUnlatched g k roles).get v =
      if (roles.get v).jump = .none ∧ hasUnlatchedBackEdge g k roles v then
        { roles.get v with jump := .acrossLoop }
      else roles.get v := by
  rw [markUnlatched, get_ofFn]

theorem isConditional_of_crossing {v follow : g.Node} {shape : ConditionalShape}
    (h : crossing g k roles v follow = some shape) : g.isConditional v = true := by
  have htoward {target : Option g.Node} (ht : target.bind (shapeToward g k v) = some shape) :
      g.isConditional v = true := by
    obtain ⟨t, -, ht⟩ := Option.bind_eq_some_iff.1 ht
    rw [shapeToward] at ht
    rw [NodeGraph.isConditional]
    split at ht
    · cases ht
    · next hb => rw [hb]; rfl
  rw [crossing] at h
  split at h
  · cases h
  · rcases Option.or_eq_some_iff.1 h with h | ⟨-, h⟩
    · exact htoward h
    · exact htoward h

/-- Judging a node changes whether it jumps and the shape of its conditional; only
a node with a choice gets a shape. -/
theorem exists_judged (g : NodeGraph) (k : Numbering g.size) (roles : Roles g.size) (v : g.Node) :
    ∃ jump shape, judged g k roles v = { roles.get v with jump := jump, shape := shape } ∧
      (shape = (roles.get v).shape ∨ g.isConditional v = true ∧ ∃ s, shape = some s) := by
  rw [judged]
  dsimp only
  split
  · exact ⟨_, _, rfl, Or.inl rfl⟩
  · split
    · exact ⟨_, _, rfl, Or.inl rfl⟩
    · split
      · next hc => exact ⟨_, _, rfl, Or.inr ⟨isConditional_of_crossing hc, _, rfl⟩⟩
      · split
        · exact ⟨_, _, rfl, Or.inl rfl⟩
        · exact ⟨_, _, rfl, Or.inl rfl⟩

/-- Marking jumps changes nothing else. -/
theorem exists_get_classify (g : NodeGraph) (k : Numbering g.size) (roles : Roles g.size)
    (v : g.Node) :
    ∃ jump shape, (classify g k roles).get v =
        { roles.get v with jump := jump, shape := shape } ∧
      (shape = (roles.get v).shape ∨ g.isConditional v = true ∧ ∃ s, shape = some s) := by
  obtain ⟨jump, shape, hj, hs⟩ := exists_judged g k roles v
  have hjudge : (judge g k roles).get v = { roles.get v with jump := jump, shape := shape } :=
    (get_ofFn _ v).trans hj
  rw [classify, get_markUnlatched, hjudge]
  split
  · exact ⟨_, _, rfl, hs⟩
  · exact ⟨_, _, rfl, hs⟩

/-- What does not look at marks and shapes reads the same after jumps are marked. -/
theorem read_classify {β : Type} (read : Role g.size → β)
    (hread : ∀ (r : Role g.size) jump shape,
      read { r with jump := jump, shape := shape } = read r) (v : g.Node) :
    read ((classify g k roles).get v) = read (roles.get v) := by
  obtain ⟨jump, shape, hv, -⟩ := exists_get_classify g k roles v
  rw [hv, hread]

end Jumps

/-! ## All three -/

/-- Loops and jumps leave the follows of conditionals and the switches alone. -/
theorem Roles.exists_get_find (g : NodeGraph) (k : Numbering g.size)
    (links : PostDominators g.size) (v : g.Node) :
    ∃ heads jump shape loopShape loopFollow loopHead latch,
      (find g k links).get v = { (Conditionals.classify g k links).get v with
        heads := heads, jump := jump, shape := shape, loopShape := loopShape
        loopFollow := loopFollow, loopHead := loopHead, latch := latch } := by
  obtain ⟨_, _, hjumps, -⟩ :=
    Jumps.exists_get_classify g k (Loops.classify g k (Conditionals.classify g k links)) v
  obtain ⟨_, _, _, _, _, hloops⟩ :=
    Loops.exists_get_classify g k (Conditionals.classify g k links) v
  rw [find, hjumps, hloops]
  exact ⟨_, _, _, _, _, _, _, rfl⟩

theorem Roles.loops_find (g : NodeGraph) (k : Numbering g.size) (links : PostDominators g.size)
    (v : g.Node) :
    ((find g k links).get v).latch =
        ((Loops.classify g k (Conditionals.classify g k links)).get v).latch ∧
      ((find g k links).get v).loopHead =
        ((Loops.classify g k (Conditionals.classify g k links)).get v).loopHead := by
  obtain ⟨_, _, hjumps, -⟩ :=
    Jumps.exists_get_classify g k (Loops.classify g k (Conditionals.classify g k links)) v
  rw [find, hjumps]
  exact ⟨rfl, rfl⟩

end Recovery
