import Recovery.Proofs.Structure.Numbering
import Recovery.Proofs.Structure.Phases
/-
  The parts of the nodes are decided by the latches.

  `LatchesDecide` is what holds between the steps of finding the parts: who has a latch
  heads a loop, who is one heads nothing else, and everybody else is what its
  successors make it. Marks keep it because heads are tried from the highest
  `order` down. The members of a loop lie below its head, so a head once marked
  is in no later loop, and what it was told of its own loop stays
  (`Loops.classify_induction`, `LatchesDecide.loops`).
-/

namespace Recovery

/-! ## Marking one loop after another -/

namespace Loops
variable {G : NodeGraph}

/-- Trying heads from the highest `order` down keeps what marking a head keeps that lies
below all heads marked before. -/
theorem foldl_markAt_induction {P : Roles G.size → Prop}
    (hmark : ∀ roles head latch, P roles → latch ∈ G.previous head →
      canLatch G (Numbering.ofNodeGraph G) roles head latch = true →
      (∀ v l, (roles.get v).latch = some l →
        (Numbering.ofNodeGraph G).order.get head < (Numbering.ofNodeGraph G).order.get v) →
      P (mark G (Numbering.ofNodeGraph G) roles head latch))
    (heads : List G.Node)
    (hdown : heads.Pairwise fun u v =>
      (Numbering.ofNodeGraph G).order.get v < (Numbering.ofNodeGraph G).order.get u) :
    ∀ roles, P roles →
      (∀ v l, (roles.get v).latch = some l →
        ∀ u ∈ heads, (Numbering.ofNodeGraph G).order.get u <
          (Numbering.ofNodeGraph G).order.get v) →
      P (heads.foldl (markAt G (Numbering.ofNodeGraph G)) roles) := by
  induction heads with
  | nil => exact fun roles h _ => h
  | cons head heads ih =>
    intro roles h habove
    obtain ⟨hbelow, hdown⟩ := List.pairwise_cons.1 hdown
    rw [List.foldl_cons, markAt]
    split
    · next latch hlatch =>
      obtain ⟨hmem, hcan⟩ := latch?_eq_some hlatch
      apply ih hdown _ (hmark roles head latch h hmem hcan fun v l hl =>
        habove v l hl head List.mem_cons_self)
      intro v l hl u hu
      rw [latch_mark] at hl
      split at hl
      · next hv => exact hv ▸ hbelow u hu
      · exact habove v l hl u (List.mem_cons_of_mem _ hu)
    · exact ih hdown roles h fun v l hl u hu => habove v l hl u (List.mem_cons_of_mem _ hu)

/-- What marking a head that lies below all heads marked before keeps, holds once every
loop is marked, if it held when no node had a latch. -/
theorem classify_induction {P : Roles G.size → Prop} {roles : Roles G.size}
    (hnone : ∀ v, (roles.get v).latch = none) (h : P roles)
    (hmark : ∀ roles head latch, P roles → latch ∈ G.previous head →
      canLatch G (Numbering.ofNodeGraph G) roles head latch = true →
      (∀ v l, (roles.get v).latch = some l →
        (Numbering.ofNodeGraph G).order.get head < (Numbering.ofNodeGraph G).order.get v) →
      P (mark G (Numbering.ofNodeGraph G) roles head latch)) :
    P (classify G (Numbering.ofNodeGraph G) roles) := by
  apply foldl_markAt_induction hmark _ _ roles h
  · intro v l hl
    rw [hnone] at hl
    cases hl
  · rw [List.pairwise_reverse]
    exact Numbering.pairwise_ordering G

theorem latch_eq_none_of_above {roles : Roles G.size} {k : Numbering G.size} {head : G.Node}
    (habove : ∀ v l, (roles.get v).latch = some l → k.order.get head < k.order.get v) :
    (roles.get head).latch = none := by
  cases hl : (roles.get head).latch with
  | none => rfl
  | some l => exact absurd (habove head l hl) (Nat.lt_irrefl _)

end Loops

/-! ## What holds between the steps -/

/-- `LatchesDecide g k roles`: of the parts, the latches decide the rest. -/
structure LatchesDecide (g : NodeGraph) (k : Numbering g.size) (roles : Roles g.size) :
    Prop where
  /-- A node heads a loop exactly when it has a latch. -/
  isLoop_iff : ∀ v, ((roles.get v).heads = .loop ∨ (roles.get v).heads = .loopConditional) ↔
    ∃ l, (roles.get v).latch = some l
  /-- A latch is a predecessor that goes back to its head. -/
  latch_mem : ∀ v l, (roles.get v).latch = some l →
    l ∈ g.previous v ∧ k.isBackEdge l v = true
  /-- The innermost loop around a head is its own, and has a shape. -/
  head : ∀ v l, (roles.get v).latch = some l →
    (roles.get v).loopHead = some v ∧ ∃ shape, (roles.get v).loopShape = some shape
  /-- A head is a conditional too when it has two successors and is not its own latch. -/
  loopConditional_iff : ∀ v l, (roles.get v).latch = some l →
    ((roles.get v).heads = .loopConditional ↔ (g.next v).length = 2 ∧ l ≠ v)
  /-- Any other node knows of no loop that it heads. -/
  other : ∀ v, (roles.get v).latch = none →
    (roles.get v).loopShape = none ∧ (roles.get v).loopFollow = none
  /-- It is a conditional exactly when it has a choice and is nobody's latch. -/
  conditional_iff : ∀ v, (roles.get v).latch = none →
    ((roles.get v).heads = .conditional ↔
      2 ≤ (g.next v).length ∧ ∀ h, (roles.get h).latch ≠ some v)
  /-- A node has the shape of a conditional exactly when it has a choice. -/
  shape_iff : ∀ v, (∃ shape, (roles.get v).shape = some shape) ↔ 2 ≤ (g.next v).length
  /-- Whatever heads the loop around a node has a latch. -/
  loopHead_latched : ∀ v h, (roles.get v).loopHead = some h →
    ∃ l, (roles.get h).latch = some l

namespace LatchesDecide
variable {g : NodeGraph} {k : Numbering g.size} {roles : Roles g.size}

theorem latch_eq_none (h : LatchesDecide g k roles) {v : g.Node}
    (hv : (roles.get v).heads = .conditional) : (roles.get v).latch = none := by
  cases hl : (roles.get v).latch with
  | none => rfl
  | some l =>
    rcases (h.isLoop_iff v).2 ⟨l, hl⟩ with hloop | hloop
    · rw [hv] at hloop
      cases hloop
    · rw [hv] at hloop
      cases hloop

theorem heads_eq (h : LatchesDecide g k roles) {v : g.Node} (hl : (roles.get v).latch = none) :
    (roles.get v).heads =
      if 2 ≤ (g.next v).length ∧ ∀ x, (roles.get x).latch ≠ some v then .conditional
      else .nothing := by
  split
  · next hc => exact (h.conditional_iff v hl).2 hc
  · next hc =>
    have hcond := mt (h.conditional_iff v hl).1 hc
    have hloop := mt (h.isLoop_iff v).1 fun ⟨l, hl'⟩ => nomatch hl.symm.trans hl'
    rw [not_or] at hloop
    cases hheads : (roles.get v).heads with
    | nothing => rfl
    | conditional => exact absurd hheads hcond
    | loop => exact absurd hheads hloop.1
    | loopConditional => exact absurd hheads hloop.2

theorem conditionals (links : PostDominators g.size) (hall : ∀ v, v ∈ k.ordering) :
    LatchesDecide g k (Conditionals.classify g k links) where
  isLoop_iff v := by
    rw [Conditionals.heads_classify links hall, Conditionals.latch_classify]
    split
    · simp
    · simp
  latch_mem v l hl := absurd hl (Conditionals.latch_classify_ne_some k links v l)
  head v l hl := absurd hl (Conditionals.latch_classify_ne_some k links v l)
  loopConditional_iff v l hl := absurd hl (Conditionals.latch_classify_ne_some k links v l)
  other v _ := by
    obtain ⟨_, _, _, _, hv⟩ := Conditionals.exists_classify_eq_plain k links v
    rw [hv]
    exact ⟨rfl, rfl⟩
  conditional_iff v _ := by
    rw [and_iff_left fun h => Conditionals.latch_classify_ne_some k links h v,
      Conditionals.heads_classify links hall]
    split
    · next h2 => exact iff_of_true rfl h2
    · next h2 => exact iff_of_false (fun h => nomatch h) h2
  shape_iff := Conditionals.exists_shape_classify_iff links hall
  loopHead_latched v h hv := by
    rw [Conditionals.loopHead_classify] at hv
    cases hv

/-! ### Marking a loop -/

section
variable {head latch v l : g.Node}

theorem get_mark_of_latched (h : LatchesDecide g k roles) (hv : v ≠ head)
    (hl : (roles.get v).latch = some l) (hmember : v ∉ Loops.members g k head latch) :
    (Loops.mark g k roles head latch).get v = roles.get v := by
  obtain ⟨shape, follow, hget⟩ := Loops.exists_get_mark g k roles head latch
  have hheads : (roles.get v).heads ≠ .conditional := by
    intro hc
    rw [h.latch_eq_none hc] at hl
    cases hl
  rw [hget, if_neg hv, if_neg fun hc => hheads hc.2, if_neg hmember]

/-- A latch after the mark is the new one, or an old one of a node that did not change. -/
theorem new_or_unchanged (h : LatchesDecide g k roles)
    (hheads : ∀ v l, (roles.get v).latch = some l → v ∉ Loops.members g k head latch)
    (hl : ((Loops.mark g k roles head latch).get v).latch = some l) :
    v = head ∧ l = latch ∨
      (roles.get v).latch = some l ∧ (Loops.mark g k roles head latch).get v = roles.get v :=
  (Loops.latch_mark_eq_some_iff.1 hl).imp_right fun ⟨hv, hl⟩ =>
    ⟨hl, h.get_mark_of_latched hv hl (hheads v l hl)⟩

theorem isLoop_mark_iff (h : LatchesDecide g k roles) :
    (((Loops.mark g k roles head latch).get v).heads = .loop ∨
        ((Loops.mark g k roles head latch).get v).heads = .loopConditional) ↔
      ∃ l, ((Loops.mark g k roles head latch).get v).latch = some l := by
  rw [Loops.heads_mark, Loops.latch_mark]
  by_cases hv : v = head
  · rw [if_pos hv, if_pos hv.symm]
    refine iff_of_true ?_ ⟨latch, rfl⟩
    split
    · exact Or.inr rfl
    · exact Or.inl rfl
  · rw [if_neg hv, if_neg (Ne.symm hv), ← h.isLoop_iff v]
    split
    · next hc => simp [hc.2]
    · rfl

theorem latch_mark_ne_iff (hnew : (roles.get head).latch = none) :
    (∀ x, ((Loops.mark g k roles head latch).get x).latch ≠ some v) ↔
      latch ≠ v ∧ ∀ x, (roles.get x).latch ≠ some v := by
  constructor
  · intro hall
    refine ⟨fun hlv => hall head (Loops.latch_mark_eq_some_iff.2 (Or.inl ⟨rfl, hlv.symm⟩)),
      fun x hx => hall x (Loops.latch_mark_eq_some_iff.2 (Or.inr ⟨?_, hx⟩))⟩
    rintro rfl
    cases hnew.symm.trans hx
  · intro ⟨hlv, hall⟩ x hx
    rcases Loops.latch_mark_eq_some_iff.1 hx with ⟨-, hv⟩ | ⟨-, hx⟩
    · exact hlv hv.symm
    · exact hall x hx

/-- The new latch stops being a conditional, and no other node without a latch begins or
stops. -/
theorem conditional_mark_iff (h : LatchesDecide g k roles)
    (hnew : (roles.get head).latch = none)
    (hl : ((Loops.mark g k roles head latch).get v).latch = none) :
    ((Loops.mark g k roles head latch).get v).heads = .conditional ↔
      2 ≤ (g.next v).length ∧
        ∀ x, ((Loops.mark g k roles head latch).get x).latch ≠ some v := by
  obtain ⟨hv, hl⟩ := Loops.latch_mark_eq_none_iff.1 hl
  have hiff := h.conditional_iff v hl
  rw [latch_mark_ne_iff hnew, Loops.heads_mark, if_neg hv]
  split
  · next hc => exact iff_of_false (fun h => nomatch h) fun h => h.2.1 hc.1.symm
  · next hc =>
    rw [hiff]
    constructor
    · exact fun ⟨h2, hall⟩ => ⟨h2, fun hlv => hc ⟨hlv.symm, hiff.2 ⟨h2, hall⟩⟩, hall⟩
    · exact fun ⟨h2, _, hall⟩ => ⟨h2, hall⟩

/-- Marking a loop keeps it, when the head had no latch and no member heads a loop. -/
theorem mark (h : LatchesDecide g k roles) (hmem : latch ∈ g.previous head)
    (hback : k.isBackEdge latch head = true) (hnew : (roles.get head).latch = none)
    (hheads : ∀ v l, (roles.get v).latch = some l → v ∉ Loops.members g k head latch) :
    LatchesDecide g k (Loops.mark g k roles head latch) where
  isLoop_iff v := h.isLoop_mark_iff
  latch_mem v l hl := by
    rcases h.new_or_unchanged hheads hl with ⟨rfl, rfl⟩ | ⟨hl, -⟩
    · exact ⟨hmem, hback⟩
    · exact h.latch_mem v l hl
  head v l hl := by
    rcases h.new_or_unchanged hheads hl with ⟨rfl, rfl⟩ | ⟨hl, heq⟩
    · obtain ⟨shape, follow, hget⟩ := Loops.exists_get_mark g k roles v l
      rw [hget, if_pos rfl]
      exact ⟨rfl, shape, rfl⟩
    · rw [heq]
      exact h.head v l hl
  loopConditional_iff v l hl := by
    rcases h.new_or_unchanged hheads hl with ⟨rfl, rfl⟩ | ⟨hl, heq⟩
    · rw [Loops.heads_mark, if_pos rfl, ← NodeGraph.branching_eq_twoWay_iff]
      split
      · next hc => exact iff_of_true rfl ⟨hc.1, hc.2.symm⟩
      · next hc => exact iff_of_false (fun h => nomatch h) fun h => hc ⟨h.1, h.2.symm⟩
    · rw [heq]
      exact h.loopConditional_iff v l hl
  other v hl := by
    obtain ⟨hv, hl⟩ := Loops.latch_mark_eq_none_iff.1 hl
    obtain ⟨shape, follow, hget⟩ := Loops.exists_get_mark g k roles head latch
    rw [hget, if_neg hv]
    exact h.other v hl
  conditional_iff v hl := h.conditional_mark_iff hnew hl
  shape_iff v := by
    rw [Loops.shape_mark]
    exact h.shape_iff v
  loopHead_latched v x hx := by
    rw [Loops.loopHead_mark] at hx
    rw [Loops.latch_mark]
    by_cases hxh : head = x
    · exact ⟨latch, if_pos hxh⟩
    · rw [if_neg hxh]
      split at hx
      · exact absurd (Option.some.inj hx) hxh
      · exact h.loopHead_latched v x hx

end

/-- Marking a head below all heads marked before keeps it, since members lie below their
head. -/
theorem mark_below {G : NodeGraph} {roles : Roles G.size}
    (h : LatchesDecide G (Numbering.ofNodeGraph G) roles) {head latch : G.Node}
    (hmem : latch ∈ G.previous head)
    (hcan : Loops.canLatch G (Numbering.ofNodeGraph G) roles head latch = true)
    (habove : ∀ v l, (roles.get v).latch = some l →
      (Numbering.ofNodeGraph G).order.get head < (Numbering.ofNodeGraph G).order.get v) :
    LatchesDecide G (Numbering.ofNodeGraph G)
      (Loops.mark G (Numbering.ofNodeGraph G) roles head latch) := by
  refine h.mark hmem (Loops.isBackEdge_of_canLatch hcan) (Loops.latch_eq_none_of_above habove) ?_
  intro v l hl hv
  have hlt := (Numbering.mem_descending.1 (List.mem_filter.1 hv).1).2.2
  exact Nat.lt_asymm hlt (habove v l hl)

theorem loops (G : NodeGraph) {roles : Roles G.size}
    (h : LatchesDecide G (Numbering.ofNodeGraph G) roles)
    (hnone : ∀ v, (roles.get v).latch = none) :
    LatchesDecide G (Numbering.ofNodeGraph G)
      (Loops.classify G (Numbering.ofNodeGraph G) roles) :=
  Loops.classify_induction hnone h fun _ _ _ h hmem hcan habove => h.mark_below hmem hcan habove

theorem jumps (h : LatchesDecide g k roles) :
    LatchesDecide g k (Jumps.classify g k roles) := by
  have hheads (v : g.Node) : ((Jumps.classify g k roles).get v).heads = (roles.get v).heads :=
    Jumps.read_classify Role.heads (fun _ _ _ => rfl) v
  have hlatch (v : g.Node) : ((Jumps.classify g k roles).get v).latch = (roles.get v).latch :=
    Jumps.read_classify Role.latch (fun _ _ _ => rfl) v
  have hloopHead (v : g.Node) :
      ((Jumps.classify g k roles).get v).loopHead = (roles.get v).loopHead :=
    Jumps.read_classify Role.loopHead (fun _ _ _ => rfl) v
  have hloopShape (v : g.Node) :
      ((Jumps.classify g k roles).get v).loopShape = (roles.get v).loopShape :=
    Jumps.read_classify Role.loopShape (fun _ _ _ => rfl) v
  have hloopFollow (v : g.Node) :
      ((Jumps.classify g k roles).get v).loopFollow = (roles.get v).loopFollow :=
    Jumps.read_classify Role.loopFollow (fun _ _ _ => rfl) v
  constructor
  case isLoop_iff => simpa only [hheads, hlatch] using h.isLoop_iff
  case latch_mem => simpa only [hlatch] using h.latch_mem
  case head => simpa only [hlatch, hloopHead, hloopShape] using h.head
  case loopConditional_iff => simpa only [hheads, hlatch] using h.loopConditional_iff
  case other => simpa only [hlatch, hloopShape, hloopFollow] using h.other
  case conditional_iff => simpa only [hheads, hlatch] using h.conditional_iff
  case shape_iff =>
    intro v
    obtain ⟨jump, shape, hv, hshape⟩ := Jumps.exists_get_classify g k roles v
    rw [hv]
    rcases hshape with hshape | ⟨hchoice, hshape⟩
    · rw [← h.shape_iff v, ← hshape]
    · exact iff_of_true hshape (NodeGraph.isConditional_iff.1 hchoice)
  case loopHead_latched => simpa only [hlatch, hloopHead] using h.loopHead_latched

/-- The latches decide the parts that are found, before jumps are marked as well as after. -/
theorem marked {q : Graph} {G : NodeGraph} (D : NodeGraph.Depicts q G)
    (links : PostDominators G.size) :
    LatchesDecide G (Numbering.ofNodeGraph G)
      (Loops.classify G (Numbering.ofNodeGraph G)
        (Conditionals.classify G (Numbering.ofNodeGraph G) links)) :=
  loops G (conditionals links (Numbering.mem_ordering D)) (Conditionals.latch_classify _ links)

theorem find {q : Graph} {G : NodeGraph} (D : NodeGraph.Depicts q G)
    (links : PostDominators G.size) :
    LatchesDecide G (Numbering.ofNodeGraph G)
      (Roles.find G (Numbering.ofNodeGraph G) links) :=
  (marked D links).jumps

end LatchesDecide

namespace StructuredProcedure

/-- What the latches of a structured procedure say of one of its nodes. -/
structure DecidedByLatches (s : StructuredProcedure) (n : s.graph.Node) : Prop where
  /-- It heads a loop exactly when it has a latch. -/
  isLoop_iff : ((s.role n).heads = .loop ∨ (s.role n).heads = .loopConditional) ↔
    ∃ l, (s.role n).latch = some l
  /-- Its latch is a predecessor whose edge to it goes back. Then it is the head of
  the innermost loop around it, that loop has a shape, and it is a conditional too
  exactly when it has two successors and is not its own latch. -/
  head : ∀ l, (s.role n).latch = some l →
    l ∈ s.graph.previous n ∧ n ∈ s.graph.next l ∧ s.numbering.isBackEdge l n = true ∧
    (s.role n).loopHead = some n ∧ (∃ shape, (s.role n).loopShape = some shape) ∧
    ((s.role n).heads = .loopConditional ↔ (s.graph.next n).length = 2 ∧ l ≠ n)
  /-- Without a latch it has neither shape nor follow of a loop, and is a conditional
  exactly when it has a choice of successors and latches no loop. -/
  other : (s.role n).latch = none →
    (s.role n).loopShape = none ∧ (s.role n).loopFollow = none ∧
    (s.role n).heads =
      if 2 ≤ (s.graph.next n).length ∧ ∀ h, (s.role h).latch ≠ some n then .conditional
      else .nothing
  /-- It has the shape of a conditional exactly when it has a choice. -/
  shape_iff : (∃ shape, (s.role n).shape = some shape) ↔ 2 ≤ (s.graph.next n).length
  /-- Whatever heads the innermost loop around it has a latch. -/
  loopHead_latched : ∀ h, (s.role n).loopHead = some h → ∃ l, (s.role h).latch = some l

/-- **The latches decide the parts.** Whatever the graph and the walk limit, the
final part of every node is told by which nodes are latches and of what. -/
theorem decided_by_latches (q : Procedure) (settings : Settings) (hbuilt : q.graph.Built)
    (hentry : q.graph.hasBlock q.graph.entry = true) :
    ∃ s, ofProcedure q settings = .ok s ∧ ∀ n, s.DecidedByLatches n := by
  obtain ⟨p, hbuild, D, hnumbering, -⟩ :=
    NumberedProcedure.exists_build q settings.walkLimit hbuilt hentry
  have hdecide : LatchesDecide p.graph p.numbering p.classify.roles := by
    show LatchesDecide p.graph p.numbering
      (Roles.find p.graph p.numbering p.postDominators)
    rw [hnumbering]
    exact LatchesDecide.find D p.postDominators
  refine ⟨p.classify, ofProcedure_of_build hbuild, fun n => ?_⟩
  constructor
  case isLoop_iff => exact hdecide.isLoop_iff n
  case head =>
    intro l hl
    obtain ⟨hmem, hback⟩ := hdecide.latch_mem n l hl
    obtain ⟨hhead, hshape⟩ := hdecide.head n l hl
    exact ⟨hmem, D.mem_previous_iff.1 hmem, hback, hhead, hshape,
      hdecide.loopConditional_iff n l hl⟩
  case other =>
    intro hl
    obtain ⟨hshape, hfollow⟩ := hdecide.other n hl
    exact ⟨hshape, hfollow, hdecide.heads_eq hl⟩
  case shape_iff => exact hdecide.shape_iff n
  case loopHead_latched => exact hdecide.loopHead_latched n

/-- A loop whose head leaves it, around a choice that joins at the latch. -/
def searching : Procedure :=
  .ofGraph 0 "search" (.empty 4)
    ((((((((((Graph.empty 0 4).addBlock (.empty 0 "head")).addBlock (.empty 1 "less")).addBlock
      (.empty 2 "more")).addBlock (.empty 3 "next")).addBlock (.empty 4 "done")).addEdge 0 1
      |>.addEdge 0 4).addEdge 1 2).addEdge 1 3 |>.addEdge 2 3).addEdge 3 0)

theorem built_searching : searching.graph.Built :=
  .addEdge _ _ (.addEdge _ _ (.addEdge _ _ (.addEdge _ _ (.addEdge _ _ (.addEdge _ _
    (.addBlock _ (.addBlock _ (.addBlock _ (.addBlock _ (.addBlock _ (.empty 0 4)))))))))))

/-- Its head is latched by the block that leads back to it, so it heads a loop and a conditional,
and that block heads nothing. -/
theorem decided_by_latches_searching :
    searching.graph.Built ∧ searching.graph.hasBlock searching.graph.entry = true ∧
      ∃ s h l, ofProcedure searching .sequential = .ok s ∧ s.graph.blockOf h = 0 ∧
        s.graph.blockOf l = 3 ∧ (s.role h).latch = some l ∧ h ∈ s.graph.next l ∧
        (s.role h).loopHead = some h ∧ (s.role h).heads = .loopConditional ∧
        (s.role l).latch = none ∧ (s.role l).heads = .nothing ∧ ∀ n, s.DecidedByLatches n := by
  obtain ⟨s, hs, hdecided⟩ :=
    decided_by_latches searching .sequential built_searching (by decide)
  obtain ⟨h, l, hh, hl, hlatch, htwo, hne, hnone, hone⟩ := exists_loop hs 0 3
    (fun s h l => (s.graph.next h).length = 2 ∧ l ≠ h ∧ (s.role l).latch = none ∧
      (s.graph.next l).length < 2) (by decide +kernel)
  obtain ⟨-, hback, -, hhead, -, hconditional⟩ := (hdecided h).head l hlatch
  have hheads := ((hdecided l).other hnone).2.2
  rw [if_neg fun hc => Nat.not_le.2 hone hc.1] at hheads
  exact ⟨built_searching, by decide, s, h, l, hs, hh, hl, hlatch, hback, hhead,
    hconditional.2 ⟨htwo, hne⟩, hnone, hheads, hdecided⟩

end StructuredProcedure
end Recovery
