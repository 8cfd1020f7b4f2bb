import Recovery.Proofs.Structure.Indexed.Conditionals
/-
  Loops, found by index.

  A place in leaving order is in range when it is the place of a node, and going
  down from one stays in range. The members of a loop are read between the places
  of its latch and its head; where the head stands below its latch there is
  nothing to read (`enlist_eq`).

  The scan for the follow of an endless loop jumps to the follow of a conditional
  only when that stands below the conditional, so its place falls with every turn.
  By induction on the place it finds what the search finds that passes over the
  nodes between (`scan_eq`).

  A shape that looks at successors is given only to loops whose head, or whose
  latch, has two, and the scan reads the exits of conditionals alone, which have
  two as well (`Chosen`).
-/

namespace Recovery.Indexed
variable {g : NodeGraph} {k : Numbering g.size} {roles : Roles g.size}

/-! ## Places in leaving order -/

/-- `Listed k`: every node stands in leaving order at the place that `order` tells. -/
structure Listed {n : Nat} (k : Numbering n) : Prop where
  getElem?_order : ∀ v, k.ordering[k.order.get v]? = some v
  order_eq : ∀ {place v}, k.ordering[place]? = some v → k.order.get v = place

theorem listed_ofNodeGraph {graph : Graph} (D : NodeGraph.Depicts graph g) :
    Listed (Numbering.ofNodeGraph g) where
  getElem?_order v := by
    have hplace : (Numbering.ofNodeGraph g).order.get v =
        (Numbering.ofNodeGraph g).ordering.idxOf v := Numbering.get_places _ v
    rw [hplace]
    exact List.getElem?_idxOf (Numbering.mem_ordering D v)
  order_eq {place v} h := by
    obtain ⟨hlt, rfl⟩ := List.getElem?_eq_some_iff.1 h
    exact (Numbering.get_places _ _).trans
      ((Numbering.nodup_ordering g).idxOf_getElem place hlt)

theorem Listed.order_lt (hk : Listed k) (v : g.Node) : k.order.get v < k.ordering.length :=
  (List.getElem?_eq_some_iff.1 (hk.getElem?_order v)).1

theorem descending_of_le {n low high : Nat} (k : Numbering n) (h : high ≤ low) :
    k.descending low high = [] := by
  rw [Numbering.descending, Nat.sub_eq_zero_of_le h, List.take_zero, List.reverse_nil]

theorem descending_succ {n low high : Nat} {k : Numbering n} {v : Fin n} (h : low ≤ high)
    (hv : k.ordering[high]? = some v) :
    k.descending low (high + 1) = v :: k.descending low high := by
  have hplace : low + (high - low) = high := by omega
  rw [Numbering.descending, Nat.succ_sub h, List.take_add_one, List.getElem?_drop, hplace, hv,
    List.reverse_append]
  rfl

/-! ## Latches -/

theorem latch?_eq (roles : Roles g.size) (head : g.Node) :
    latch? g k roles head = some (Loops.latch? g k roles head) := by
  rw [latch?, eachAt_range, foldlM_some, Loops.latch?, List.foldl_filter]
  congr 2
  funext best p
  rw [isBetterLatch]
  cases Loops.canLatch g k roles head p with
  | false => rfl
  | true =>
    cases best with
    | none => rfl
    | some l => simp only [Bool.true_and, Option.all_some, decide_eq_true_eq, if_true]

/-! ## Members -/

def inLoop {n : Nat} (head : Fin n) (r : Role n) : Role n := { r with loopHead := some head }

theorem foldl_editAll_add {n : Nat} (p : Fin n → Bool) (change : Role n → Role n)
    (list : List (Fin n)) : ∀ (roles : Roles n) (seen : List (Fin n)),
    list.foldl (fun state v => if p v then (state.1.edit v change, state.2.add v) else state)
        (roles, Marks.on seen) =
      (roles.editAll (list.filter p) change, Marks.on ((list.filter p).reverse ++ seen)) := by
  induction list with
  | nil => exact fun _ _ => rfl
  | cons v list ih =>
    intro roles seen
    rw [List.foldl_cons]
    by_cases hv : p v = true
    · rw [if_pos hv, Marks.add_on, ih, List.filter_cons_of_pos hv, List.reverse_cons,
        List.append_assoc]
      rfl
    · rw [if_neg hv, ih, List.filter_cons_of_neg hv]

theorem enlist_eq (hk : Listed k) (roles : Roles g.size) (head latch : g.Node) :
    enlist g k roles head latch =
      some (roles.editAll (Loops.members g k head latch) (inLoop head),
        .on (head :: Loops.members g k head latch)) := by
  have hrange := Nat.le_of_lt (hk.order_lt head)
  rw [enlist, Marks.clear_eq_on, Marks.add_on, eachAt_range'_reverse _ hrange, foldlM_some]
  have hrun := foldl_editAll_add (fun v => decide (v = latch) || k.isBetween head v latch)
    (inLoop head) (k.descending (k.order.get latch) (k.order.get head)) roles [head]
  refine congrArg some (hrun.trans (Prod.ext rfl (Marks.on_congr fun v => ?_)))
  rw [List.mem_append, List.mem_reverse, List.mem_singleton, List.mem_cons, or_comm]
  rfl

/-! ## The follow of an endless loop -/

/-- Only nodes with a choice head conditionals. -/
def Chosen (g : NodeGraph) (roles : Roles g.size) : Prop :=
  ∀ v, (roles.get v).heads.isConditional = true → 2 ≤ (g.next v).length

theorem exit?_eq {v : g.Node} (h : 2 ≤ (g.next v).length) (members : Marks g.size) :
    exit? g v members = some (Loops.exit? g v members.get) := by
  obtain ⟨taken, fallen, hbranches, htaken, hfallen⟩ := NodeGraph.exists_branches h
  rw [exit?, Loops.exit?, hbranches, htaken, hfallen]
  simp only [Option.bind_eq_bind, Option.bind_some]
  split
  · rfl
  · rfl

section
variable {head : g.Node} {bottom : Nat} {members : Marks g.size} {best : Option g.Node}

theorem scanTurn_stop {place : Int} (h : place ≤ bottom) :
    scanTurn g k roles head bottom members (place, best) = some (.done best) :=
  if_neg (Int.not_lt.2 h)

theorem scanTurn_read {high : Nat} {v : g.Node} (h : bottom < high)
    (hv : k.ordering[high]? = some v) :
    scanTurn g k roles head bottom members (high, best) =
      scanNode g k roles head members v high best := by
  rw [scanTurn, if_pos (Int.ofNat_lt.2 h), readAt_natCast, hv]
  rfl

/-- What the scan does at a node below its bound is what the search does there: it stops, goes
on to the next node, or goes on below the follow of the node. -/
theorem scanNode_cases (hroles : Chosen g roles) {v : g.Node} {bound : Nat}
    (hbound : k.order.get v < bound) (place : Int) :
    (scanNode g k roles head members v place best = some (.done best) ∧ ∀ rest,
      Loops.endlessFollow g k roles head members.get (v :: rest) bound best = best) ∨
    (∃ better, scanNode g k roles head members v place best =
        some (.again (place - 1, better)) ∧ ∀ rest,
      Loops.endlessFollow g k roles head members.get (v :: rest) bound best =
        Loops.endlessFollow g k roles head members.get rest bound better) ∨
    ∃ f, k.order.get f < k.order.get v ∧
      scanNode g k roles head members v place best =
        some (.again ((k.order.get f : Int) - 1, best)) ∧ ∀ rest,
      Loops.endlessFollow g k roles head members.get (v :: rest) bound best =
        Loops.endlessFollow g k roles head members.get rest (k.order.get f) best := by
  have hlt : ¬ bound ≤ k.order.get v := Nat.not_le.2 hbound
  by_cases hcond : (roles.get v).heads = .conditional ∧ (roles.get v).loopHead = some head
  · have hchoice : 2 ≤ (g.next v).length := hroles v (by rw [hcond.1]; rfl)
    cases hfollow : (roles.get v).follow with
    | none =>
      refine Or.inr (Or.inl ⟨best, ?_, fun rest => ?_⟩)
      · rw [scanNode, if_pos hcond, hfollow]
      · rw [Loops.endlessFollow.eq_def]
        simp only [if_neg hlt, if_pos hcond, hfollow]
    | some f =>
      by_cases hinside : members.get f = true
      · by_cases hlower : k.order.get f < k.order.get v
        · refine Or.inr (Or.inr ⟨f, hlower, ?_, fun rest => ?_⟩)
          · simp only [scanNode, if_pos hcond, hfollow, if_pos hinside, if_pos hlower]
          · rw [Loops.endlessFollow.eq_def]
            simp only [if_neg hlt, if_pos hcond, hfollow, if_pos hinside, if_pos hlower]
        · refine Or.inl ⟨?_, fun rest => ?_⟩
          · simp only [scanNode, if_pos hcond, hfollow, if_pos hinside, if_neg hlower]
          · rw [Loops.endlessFollow.eq_def]
            simp only [if_neg hlt, if_pos hcond, hfollow, if_pos hinside, if_neg hlower]
      · refine Or.inr (Or.inl ⟨later k (Loops.exit? g v members.get) best, ?_, fun rest => ?_⟩)
        · simp only [scanNode, if_pos hcond, hfollow, if_neg hinside, exit?_eq hchoice]
          rfl
        · rw [Loops.endlessFollow.eq_def]
          simp only [if_neg hlt, if_pos hcond, hfollow, if_neg hinside]
          cases Loops.exit? g v members.get with
          | none => rfl
          | some s =>
            cases best with
            | none => rfl
            | some b => rfl
  · refine Or.inr (Or.inl ⟨best, if_neg hcond, fun rest => ?_⟩)
    rw [Loops.endlessFollow.eq_def]
    simp only [if_neg hlt, if_neg hcond]

end

/-- From below a place, and below the follow it has jumped to last, the scan finds what the
search finds among the nodes between there and the latch. -/
theorem scan_eq (hk : Listed k) (hroles : Chosen g roles) (head : g.Node) (bottom : Nat)
    (members : Marks g.size) (high : Nat) (hhigh : high ≤ k.ordering.length) :
    ∀ (bound : Nat) (best : Option g.Node),
      untilDone (scanTurn g k roles head bottom members)
          (((min high bound : Nat) : Int) - 1, best) =
        some (Loops.endlessFollow g k roles head members.get (k.descending (bottom + 1) high)
          bound best) := by
  induction high with
  | zero =>
    intro bound best
    rw [descending_of_le k (Nat.zero_le _)]
    exact untilDone_done (scanTurn_stop (by omega))
  | succ high ih =>
    intro bound best
    by_cases hbottom : high ≤ bottom
    · rw [descending_of_le k (by omega)]
      exact untilDone_done (scanTurn_stop (by omega))
    obtain ⟨v, hv⟩ : ∃ v, k.ordering[high]? = some v :=
      ⟨_, List.getElem?_eq_getElem (by omega)⟩
    have horder := hk.order_eq hv
    have hbelow := ih (by omega)
    rw [descending_succ (by omega) hv]
    by_cases hbound : bound ≤ high
    · -- the scan is below this node already
      have hmin : min (high + 1) bound = min high bound := by omega
      rw [Loops.endlessFollow.eq_def, hmin, hbelow]
      simp only [horder, if_pos hbound]
    have hplace : ((min (high + 1) bound : Nat) : Int) - 1 = (high : Nat) := by omega
    have hmin : min high bound = high := by omega
    rw [hplace]
    have hread := (scanTurn_read (Nat.lt_of_not_le hbottom) hv : scanTurn g k roles head bottom
      members (high, best) = _)
    rcases scanNode_cases hroles (horder ▸ Nat.lt_of_not_le hbound) (high : Int) with
      ⟨hnode, hsearch⟩ | ⟨better, hnode, hsearch⟩ | ⟨f, hf, hnode, hsearch⟩
    · rw [hsearch, untilDone_done (hread.trans hnode)]
    · rw [hsearch, untilDone_again (hread.trans hnode), ← hbelow, hmin]
    · have hjump : min high (k.order.get f) = k.order.get f := by omega
      rw [hsearch, untilDone_again (hread.trans hnode), ← hbelow, hjump]

theorem loopFollow_eq (hk : Listed k) (hroles : Chosen g roles) (headFollow : Option g.Node)
    (head latch : g.Node) (members : Marks g.size) :
    loopFollow g k roles head latch members
        (Loops.shapeOf g headFollow head latch members.get) =
      some (Loops.followOf g k roles head latch members.get
        (Loops.shapeOf g headFollow head latch members.get)) := by
  have htwo {v : g.Node} (h : g.branching v = .twoWay) : 2 ≤ (g.next v).length :=
    Nat.le_of_eq (NodeGraph.branching_eq_twoWay_iff.1 h).symm
  have hendless : loopFollow g k roles head latch members .endless =
      some (Loops.followOf g k roles head latch members.get .endless) := by
    have hscan := scan_eq hk hroles head (k.order.get latch) members (k.order.get head)
      (Nat.le_of_lt (hk.order_lt head)) (k.order.get head) none
    rwa [Nat.min_self] at hscan
  rw [Loops.shapeOf]
  split
  · next hlatch =>
    obtain ⟨taken, fallen, hbranches, htaken, hfallen⟩ := NodeGraph.exists_branches (htwo hlatch)
    rw [loopFollow, Loops.followOf, hbranches, htaken, hfallen]
    simp only [Option.bind_eq_bind, Option.bind_some, Option.map_some]
    split
    · rfl
    · rfl
  · split
    · next hhead =>
      split
      · exact hendless
      · obtain ⟨taken, fallen, hbranches, htaken, hfallen⟩ :=
          NodeGraph.exists_branches (htwo hhead)
        rw [loopFollow, Loops.followOf, hbranches, htaken, hfallen]
        simp only [Option.bind_eq_bind, Option.bind_some, Option.map_some]
        split
        · rfl
        · rfl
    · exact hendless

/-! ## Every loop -/

theorem chosen_classify (links : PostDominators g.size) (hall : ∀ v, v ∈ k.ordering) :
    Chosen g (Conditionals.classify g k links) := by
  intro v hv
  obtain ⟨heads, shape, follow, c, hget, -, hnone⟩ :=
    Conditionals.exists_get_classify (k := k) links hall v
  rw [hget] at hv
  by_contra hchoice
  rw [(hnone hchoice).1] at hv
  cases hv

/-- The head of a loop becomes a conditional only with two successors, and no other node does. -/
theorem Chosen.mark (hroles : Chosen g roles) (head latch : g.Node) :
    Chosen g (Loops.mark g k roles head latch) := by
  intro v hv
  obtain ⟨shape, follow, hget⟩ := Loops.exists_get_mark g k roles head latch
  rw [hget] at hv
  split at hv
  · next heq =>
    subst heq
    dsimp only at hv
    split at hv
    · next htwo => exact Nat.le_of_eq (NodeGraph.branching_eq_twoWay_iff.1 htwo.1).symm
    · cases hv
  · dsimp only at hv
    split at hv
    · cases hv
    · exact hroles v hv

theorem Chosen.unshaped (hroles : Chosen g roles) (head latch : g.Node) :
    Chosen g (Loops.unshaped g k roles head latch) := by
  obtain ⟨shape, follow, heq⟩ := Loops.exists_mark_eq (k := k) roles head latch
  have hheads (v : g.Node) : ((Loops.mark g k roles head latch).get v).heads =
      ((Loops.unshaped g k roles head latch).get v).heads := by
    rw [heq, Roles.get_edit]
    split
    · next hv => rw [hv]
    · rfl
  intro v hv
  exact hroles.mark head latch v (hheads v ▸ hv)

theorem get_editAll_inLoop (roles : Roles g.size) (head : g.Node) (members : List g.Node)
    (v : g.Node) : (roles.editAll members (inLoop head)).get v =
      if v ∈ members then inLoop head (roles.get v) else roles.get v := by
  have hagain (r : Role g.size) : inLoop head (inLoop head r) = inLoop head r := rfl
  exact Roles.get_editAll hagain members v roles

/-- The parts with a loop handed out while its head is nothing but a loop. -/
def enlisted (g : NodeGraph) (k : Numbering g.size) (roles : Roles g.size)
    (head latch : g.Node) : Roles g.size :=
  ((Loops.latched roles head latch).edit head fun r =>
    { r with heads := .loop, loopHead := some head }).editAll
    (Loops.members g k head latch) (inLoop head)

/-- It makes no difference whether a head becomes a conditional before its loop is handed out
or after. -/
theorem raise_eq (roles : Roles g.size) (head latch : g.Node) :
    (if g.branching head = .twoWay ∧ head ≠ latch then
      (enlisted g k roles head latch).edit head fun r => { r with heads := .loopConditional }
    else enlisted g k roles head latch) = Loops.unshaped g k roles head latch := by
  have hunshaped : Loops.unshaped g k roles head latch =
      ((Loops.latched roles head latch).edit head fun r =>
        { r with
          heads := if g.branching head = .twoWay ∧ head ≠ latch then .loopConditional else .loop
          loopHead := some head }).editAll
        (Loops.members g k head latch) (inLoop head) := rfl
  rw [hunshaped, enlisted]
  split
  · refine ext_get fun v => ?_
    rw [Roles.get_edit, get_editAll_inLoop, get_editAll_inLoop, get_editAll_inLoop,
      Roles.get_edit, Roles.get_edit, Roles.get_edit, if_pos rfl]
    by_cases hv : head = v
    · subst hv
      simp only [if_true]
      split
      · rfl
      · rfl
    · simp only [if_neg hv]
  · rfl

theorem mark_eq (hk : Listed k) (hroles : Chosen g roles) (head latch : g.Node) :
    mark g k roles head latch = some (Loops.mark g k roles head latch) := by
  have hinside : (fun v => v == head || (Loops.members g k head latch).contains v) =
      (Marks.on (head :: Loops.members g k head latch)).get := by
    funext v
    rw [Marks.get_on, Bool.eq_iff_iff, Bool.or_eq_true, beq_iff_eq, List.contains_iff_mem,
      decide_eq_true_eq, List.mem_cons]
  have hfollow : ((enlisted g k roles head latch).get head).follow =
      ((Loops.unshaped g k roles head latch).get head).follow := by
    rw [← raise_eq]
    split
    · rw [Roles.get_edit, if_pos rfl]
    · rfl
  unfold mark
  show (enlist g k ((Loops.latched roles head latch).edit head fun r =>
    { r with heads := .loop, loopHead := some head }) head latch).bind _ = _
  rw [enlist_eq hk, Option.bind_some, ← enlisted]
  dsimp only
  rw [raise_eq, hfollow, loopFollow_eq hk (hroles.unshaped head latch), ← hinside]
  rfl

theorem markAt_eq (hk : Listed k) (hroles : Chosen g roles) (head : g.Node) :
    markAt g k roles head = some (Loops.markAt g k roles head) := by
  rw [markAt, latch?_eq, Loops.markAt]
  simp only [Option.bind_eq_bind, Option.bind_some]
  cases Loops.latch? g k roles head with
  | none => rfl
  | some latch => exact mark_eq hk hroles head latch

theorem Chosen.markAt (hroles : Chosen g roles) (head : g.Node) :
    Chosen g (Loops.markAt g k roles head) := by
  rw [Loops.markAt]
  split
  · exact hroles.mark head _
  · exact hroles

theorem loops_eq (hk : Listed k) (hroles : Chosen g roles) :
    loops g k roles = some (Loops.classify g k roles) ∧
      Chosen g (Loops.classify g k roles) := by
  rw [loops, eachAt_range_reverse]
  exact foldlM_eq_some (fun roles => roles) (Chosen g)
    (fun _ head _ h => ⟨markAt_eq hk h head, h.markAt head⟩) roles hroles

end Recovery.Indexed
