import Recovery.Proofs.ControlFlow.TreePath
import Recovery.Proofs.Structure.BackEdges
import Recovery.Proofs.Structure.Headers
/-
  Which blocks of a single loop are marked.

  When one edge goes back to a dominator of its source and nothing else closes
  a cycle, it is the only back edge that the stamps see
  (`Numbering.isBackEdge_iff`). Without switches nothing stands in the way of the
  source as a latch, so its target is the only head and marking is a single step
  (`Loops.classify_of_single`).

  Members are the nodes between head and latch in one of the two trees, which is
  to say on the path that takes the first successor in the loop each time, or on
  the one that takes the last (`Numbering.mem_members_iff`). These two paths need
  not cover the loop: in `braided` the first leaves at the head and the last
  inside, and the block between them is on neither (`loopHead_none_braided`).
-/

namespace Recovery
open Forest (SingleLoop LoopStep)
open Relation (ReflTransGen)

namespace Graph

/-- The loop that an edge from `l` to `h` closes: its head, and all that leads to `l`
without passing the head. -/
def InLoop (g : Graph) (h l b : BlockId) : Prop := b = h ∨ Bypasses (Along g.flow) h b l

/-- The two paths from the head of a loop to its latch that take, at every block, the
first successor in the loop, or at every block the last. -/
def OnLoopPath (g : Graph) (h l b : BlockId) : Prop :=
  ReflTransGen (LoopStep g.flow h l) h b ∨
    ReflTransGen (LoopStep (fun a => (g.flow a).reverse) h l) h b

theorem InLoop.of_onLoopPath {g : Graph} {h l b : BlockId} (hb : g.OnLoopPath h l b) :
    g.InLoop h l b := by
  rcases hb with hb | hb
  · exact Forest.bypasses_of_loopPath hb
  · have hin := Forest.bypasses_of_loopPath hb
    rwa [along_reverse] at hin

end Graph

theorem NodeGraph.Depicts.singleLoop {g : Graph} {G : NodeGraph} (D : NodeGraph.Depicts g G)
    {head latch : G.Node} (hdom : g.Dominates (G.blockOf head) (G.blockOf latch))
    (hacyclic : ∀ b c, g.Reached b →
      Sparing (Along g.flow) (G.blockOf latch) (G.blockOf head) b c →
      ¬ Reaches (Sparing (Along g.flow) (G.blockOf latch) (G.blockOf head)) c b) :
    SingleLoop G.next G.entry head latch := by
  have hsparing {u v : G.Node} (e : Sparing (Along G.next) latch head u v) :
      Sparing (Along g.flow) (G.blockOf latch) (G.blockOf head) (G.blockOf u) (G.blockOf v) :=
    ⟨D.mem_next_iff.1 e.1, fun hne => e.2 ⟨D.blockOf_injective hne.1, D.blockOf_injective hne.2⟩⟩
  refine ⟨D.reaches_entry latch, ?_, fun u v e ⟨vs, hw⟩ => ?_⟩
  · rw [D.guards_iff, D.blockOf_entry]
    exact hdom
  · exact hacyclic _ _ (D.reached_blockOf u) (hsparing e)
      ⟨_, hw.map G.blockOf fun _ _ => hsparing⟩

/-! ## Numbers around a single loop -/

namespace Numbering
variable {g : Graph} {G : NodeGraph} {u v w head latch : G.Node}

theorem exists_step_of_below (S : SingleLoop G.next G.entry head latch)
    (h : (forward G).Below u v ∨ (opposite G).Below u v) :
    ∃ w, Sparing (Along G.next) latch head u w ∧
      Reaches (Sparing (Along G.next) latch head) w v := by
  rcases h with hb | hb
  · obtain ⟨seen, hf⟩ := depthFirst_search G.next [G.entry]
    exact S.exists_step_of_below hf hb
  · obtain ⟨seen, hf⟩ := depthFirst_search (fun v => (G.next v).reverse) [G.entry]
    have hstep := S.reverse.exists_step_of_below hf hb
    rwa [along_reverse] at hstep

/-- The edge back is the only one that the stamps see. -/
theorem isBackEdge_iff (D : NodeGraph.Depicts g G) (S : SingleLoop G.next G.entry head latch)
    (hv : v ∈ G.next u) : (ofNodeGraph G).isBackEdge u v = true ↔ u = latch ∧ v = head := by
  constructor
  · intro hback
    by_contra hne
    have e : Sparing (Along G.next) latch head u v := ⟨hv, hne⟩
    rw [isBackEdge, Bool.or_eq_true, decide_eq_true_eq, isAncestor_iff D] at hback
    rcases hback with rfl | hb
    · exact S.acyclic u u e (.refl u)
    · obtain ⟨x, hx, hreach⟩ := exists_step_of_below S hb
      exact S.acyclic u v e (.step hx hreach)
  · rintro ⟨rfl, rfl⟩
    exact isBackEdge_of_guards (D.reaches_entry u) S.guards

theorem order_lt_of_sparing (D : NodeGraph.Depicts g G)
    (S : SingleLoop G.next G.entry head latch) (e : Sparing (Along G.next) latch head u v) :
    (ofNodeGraph G).order.get v < (ofNodeGraph G).order.get u :=
  order_lt_of_not_isBackEdge D e.1 fun hback => e.2 ((isBackEdge_iff D S e.1).1 hback)

theorem order_le_of_reaches (D : NodeGraph.Depicts g G)
    (S : SingleLoop G.next G.entry head latch)
    (h : Reaches (Sparing (Along G.next) latch head) u v) :
    (ofNodeGraph G).order.get v ≤ (ofNodeGraph G).order.get u := by
  obtain ⟨vs, hw⟩ := h
  induction hw with
  | stop v => exact Nat.le_refl _
  | step e _ ih => exact Nat.le_trans ih (Nat.le_of_lt (order_lt_of_sparing D S e))

theorem order_lt_of_below (D : NodeGraph.Depicts g G)
    (S : SingleLoop G.next G.entry head latch)
    (h : (forward G).Below u v ∨ (opposite G).Below u v) :
    (ofNodeGraph G).order.get v < (ofNodeGraph G).order.get u := by
  obtain ⟨w, e, hreach⟩ := exists_step_of_below S h
  exact Nat.lt_of_le_of_lt (order_le_of_reaches D S hreach) (order_lt_of_sparing D S e)

/-- The members of a single loop, other than its head, are the nodes on its two paths. -/
theorem mem_members_iff (D : NodeGraph.Depicts g G)
    (S : SingleLoop G.next G.entry head latch) (hv : v ≠ head) :
    v ∈ Loops.members G (ofNodeGraph G) head latch ↔
      ReflTransGen (LoopStep G.next head latch) head v ∨
        ReflTransGen (LoopStep (fun a => (G.next a).reverse) head latch) head v := by
  obtain ⟨seen, hf⟩ := depthFirst_search G.next [G.entry]
  obtain ⟨seen', hf'⟩ := depthFirst_search (fun v => (G.next v).reverse) [G.entry]
  rw [← S.below_iff_loopStep hf, ← S.reverse.below_iff_loopStep hf', or_iff_right hv,
    or_iff_right hv, Loops.members, List.mem_filter, mem_descending, Bool.or_eq_true,
    decide_eq_true_eq, isBetween_iff D, and_iff_right (mem_ordering D v)]
  -- what is on either path lies between the numbers of latch and head
  have hbetween {f : Forest G.Node}
      (hf : ∀ x y, f.Below x y → (ofNodeGraph G).order.get y < (ofNodeGraph G).order.get x)
      (hb : f.Below head v) (hbranch : v = latch ∨ f.Below v latch) :
      (ofNodeGraph G).order.get latch ≤ (ofNodeGraph G).order.get v ∧
        (ofNodeGraph G).order.get v < (ofNodeGraph G).order.get head := by
    refine ⟨?_, hf _ _ hb⟩
    rcases hbranch with rfl | hb'
    · exact Nat.le_refl _
    · exact Nat.le_of_lt (hf _ _ hb')
  constructor
  · rintro ⟨-, rfl | ⟨hb, hb'⟩ | ⟨hb, hb'⟩⟩
    · obtain ⟨hl, hhead⟩ := S.onBranch_head hf
      exact Or.inl ⟨hhead.resolve_left (Ne.symm hv), hl, Or.inl rfl⟩
    · exact Or.inl ⟨hb, hb'.mem_right, Or.inr hb'⟩
    · exact Or.inr ⟨hb, hb'.mem_right, Or.inr hb'⟩
  · rintro (⟨hb, -, hbranch⟩ | ⟨hb, -, hbranch⟩)
    · exact ⟨hbetween (fun _ _ h => order_lt_of_below D S (Or.inl h)) hb hbranch,
        hbranch.imp_right fun hb' => Or.inl ⟨hb, hb'⟩⟩
    · exact ⟨hbetween (fun _ _ h => order_lt_of_below D S (Or.inr h)) hb hbranch,
        hbranch.imp_right fun hb' => Or.inr ⟨hb, hb'⟩⟩

end Numbering

theorem Graph.eq_of_dominates {g : Graph} (hbuilt : g.Built)
    (hentry : g.hasBlock g.entry = true) {h l b c : BlockId} (hl : g.Reached l)
    (hback : h ∈ g.flow l) (hdom : g.Dominates h l)
    (hacyclic : ∀ b c, g.Reached b → Sparing (Along g.flow) l h b c →
      ¬ Reaches (Sparing (Along g.flow) l h) c b)
    (hb : g.Reached b) (hc : c ∈ g.flow b) (hcb : g.Dominates c b) : b = l ∧ c = h := by
  obtain ⟨G, -, D⟩ := NodeGraph.exists_depicts hbuilt hentry
  obtain ⟨latch, rfl⟩ := D.exists_node hl
  obtain ⟨head, rfl⟩ := D.exists_node (hl.snoc hback)
  obtain ⟨u, rfl⟩ := D.exists_node hb
  obtain ⟨v, rfl⟩ := D.exists_node (hb.snoc hc)
  have hguards : Guards (Along G.next) G.entry v u := by
    rw [D.guards_iff, D.blockOf_entry]
    exact hcb
  have hedge := (Numbering.isBackEdge_iff D (D.singleLoop hdom hacyclic) (D.mem_next_iff.2 hc)).1
    (Numbering.isBackEdge_of_guards (D.reaches_entry u) hguards)
  exact ⟨congrArg G.blockOf hedge.1, congrArg G.blockOf hedge.2⟩

/-! ## Marking a single loop -/

namespace Conditionals
variable {g : NodeGraph} {k : Numbering g.size} {links : PostDominators g.size}

theorem shapeOf_ne_switch {v : g.Node} (hv : (g.next v).length ≤ 2) (follow : Option g.Node) :
    shapeOf g v follow ≠ .switch := by
  have hbranching : g.branching v ≠ .nWay := by
    rw [NodeGraph.branching]
    rcases hlength : (g.next v).length with _ | _ | _ | n
    · decide
    · decide
    · decide
    · omega
  rw [shapeOf, if_neg hbranching]
  split
  · decide
  · split
    · decide
    · split
      · decide
      · decide

theorem caseHead_classify (links : PostDominators g.size) (htwo : ∀ v, (g.next v).length ≤ 2)
    (w : g.Node) :
    ((classify g k links).get w).caseHead = none := by
  refine List.foldlRecOn
    (motive := fun (state : Roles g.size × List g.Node) => (state.1.get w).caseHead = none)
    _ _ ?_ fun state h v _ => ?_
  · rw [get_replicate]
    rfl
  · have hswitch := shapeOf_ne_switch (htwo v)
    unfold classifyOne
    dsimp only
    split
    · rw [Roles.get_edit]
      split
      · next hvw => exact hvw ▸ h
      · exact h
    · rw [if_neg (hswitch _), Roles.get_edit]
      split
      · next hvw => exact hvw ▸ h
      · exact h

end Conditionals

namespace Loops
variable {g : NodeGraph} {k : Numbering g.size} {roles : Roles g.size} {head latch : g.Node}

theorem exists_latch? {p : g.Node} (hp : p ∈ g.previous head)
    (hcan : canLatch g k roles head p = true) : ∃ l, latch? g k roles head = some l := by
  have hmem := List.mem_filter.2 ⟨hp, hcan⟩
  rw [latch?]
  generalize (g.previous head).filter (canLatch g k roles head) = candidates at hmem
  -- the best so far stays one, and a candidate makes one
  have hbest : p ∈ candidates ∨ ∃ l, (none : Option g.Node) = some l := Or.inl hmem
  clear hmem
  generalize (none : Option g.Node) = best at hbest ⊢
  induction candidates generalizing best with
  | nil => exact hbest.resolve_left List.not_mem_nil
  | cons q candidates ih =>
    apply ih
    right
    dsimp only
    split
    · split
      · exact ⟨_, rfl⟩
      · exact ⟨_, rfl⟩
    · exact ⟨_, rfl⟩

theorem foldl_markAt_of_none {heads : List g.Node}
    (h : ∀ v ∈ heads, ∀ roles, latch? g k roles v = none) (roles : Roles g.size) :
    heads.foldl (markAt g k) roles = roles := by
  refine List.foldlRecOn (motive := fun r => r = roles) _ _ rfl fun r hr v hv => ?_
  rw [markAt, h v hv r]
  exact hr

/-- When only one node can ever have a latch, marking all loops marks its loop. -/
theorem classify_of_single (hnodup : k.ordering.Nodup) (hhead : head ∈ k.ordering)
    (hother : ∀ v, v ≠ head → ∀ roles, latch? g k roles v = none)
    (hlatch : latch? g k roles head = some latch) :
    classify g k roles = mark g k roles head latch := by
  obtain ⟨above, below, hsplit⟩ := List.append_of_mem (List.mem_reverse.2 hhead)
  have hnodup' := List.nodup_reverse.2 hnodup
  rw [hsplit, List.nodup_append, List.nodup_cons] at hnodup'
  obtain ⟨-, ⟨hbelow, -⟩, habove⟩ := hnodup'
  rw [classify, hsplit, List.foldl_append, List.foldl_cons,
    foldl_markAt_of_none fun v hv => hother v (habove v hv head List.mem_cons_self), markAt, hlatch]
  exact foldl_markAt_of_none (fun v hv => hother v fun h => hbelow (h ▸ hv)) _

end Loops

section
variable {g : Graph} {G : NodeGraph} {head latch v : G.Node} {roles : Roles G.size}

theorem Loops.latch?_eq_none_of_single (D : NodeGraph.Depicts g G)
    (S : SingleLoop G.next G.entry head latch) (hv : v ≠ head) (roles : Roles G.size) :
    latch? G (Numbering.ofNodeGraph G) roles v = none := by
  cases hl : latch? G (Numbering.ofNodeGraph G) roles v with
  | none => rfl
  | some l =>
    obtain ⟨hmem, hcan⟩ := latch?_eq_some hl
    have hlv := (Numbering.isBackEdge_iff D S (D.mem_previous_iff.1 hmem)).1
      (isBackEdge_of_canLatch hcan)
    exact absurd hlv.2 hv

theorem Loops.latch?_of_single (D : NodeGraph.Depicts g G)
    (S : SingleLoop G.next G.entry head latch) (hback : head ∈ G.next latch)
    (hcase : ∀ v, (roles.get v).caseHead = none) (hloop : ∀ v, (roles.get v).loopHead = none) :
    latch? G (Numbering.ofNodeGraph G) roles head = some latch := by
  have hcan : canLatch G (Numbering.ofNodeGraph G) roles head latch = true := by
    rw [canLatch, hcase, hcase, hloop, hloop, (Numbering.isBackEdge_iff D S hback).2 ⟨rfl, rfl⟩]
    rfl
  obtain ⟨l, hl⟩ := exists_latch? (D.mem_previous_iff.2 hback) hcan
  obtain ⟨hmem, hcan'⟩ := latch?_eq_some hl
  have hlatch := (Numbering.isBackEdge_iff D S (D.mem_previous_iff.1 hmem)).1
    (isBackEdge_of_canLatch hcan')
  rw [hl, hlatch.1]

/-- Around a single loop without switches, finding the parts is classifying conditionals,
marking the loop, and judging jumps. -/
theorem Roles.exists_get_find_of_single (D : NodeGraph.Depicts g G)
    (htwo : ∀ v, (G.next v).length ≤ 2) (S : SingleLoop G.next G.entry head latch)
    (hback : head ∈ G.next latch) (links : PostDominators G.size) (v : G.Node) :
    ∃ jump shape, (find G (Numbering.ofNodeGraph G) links).get v =
      { (Loops.mark G (Numbering.ofNodeGraph G)
          (Conditionals.classify G (Numbering.ofNodeGraph G) links) head latch).get v with
        jump := jump, shape := shape } := by
  have hlatch := Loops.latch?_of_single D S hback
    (Conditionals.caseHead_classify links htwo)
    (Conditionals.loopHead_classify (Numbering.ofNodeGraph G) links)
  have hclassify := Loops.classify_of_single (Numbering.nodup_ordering G)
    (Numbering.mem_ordering D head)
    (fun v hv => Loops.latch?_eq_none_of_single D S hv) hlatch
  obtain ⟨jump, shape, hv, -⟩ := Jumps.exists_get_classify G (Numbering.ofNodeGraph G)
    (Loops.mark G (Numbering.ofNodeGraph G)
      (Conditionals.classify G (Numbering.ofNodeGraph G) links) head latch) v
  exact ⟨jump, shape, by rw [find, hclassify, hv]⟩

theorem Roles.find_of_single (D : NodeGraph.Depicts g G) (htwo : ∀ v, (G.next v).length ≤ 2)
    (S : SingleLoop G.next G.entry head latch) (hback : head ∈ G.next latch)
    (links : PostDominators G.size) :
    (((find G (Numbering.ofNodeGraph G) links).get head).heads = .loop ∨
        ((find G (Numbering.ofNodeGraph G) links).get head).heads = .loopConditional) ∧
      ((find G (Numbering.ofNodeGraph G) links).get head).latch = some latch ∧
      ∀ v, ((find G (Numbering.ofNodeGraph G) links).get v).loopHead =
        if v = head ∨ v ∈ Loops.members G (Numbering.ofNodeGraph G) head latch then some head
        else none := by
  have hfind := exists_get_find_of_single D htwo S hback links
  obtain ⟨shape, follow, hmark⟩ := Loops.exists_get_mark G (Numbering.ofNodeGraph G)
    (Conditionals.classify G (Numbering.ofNodeGraph G) links) head latch
  obtain ⟨jump, shape', hhead⟩ := hfind head
  rw [hmark, if_pos rfl] at hhead
  refine ⟨?_, by rw [hhead], fun v => ?_⟩
  · rw [hhead]
    dsimp only
    split
    · exact Or.inr rfl
    · exact Or.inl rfl
  · obtain ⟨jump, shape', hv⟩ := hfind v
    rw [hv, hmark]
    by_cases hvh : v = head
    · rw [if_pos hvh, if_pos (Or.inl hvh)]
    · rw [if_neg hvh]
      simp only [hvh, false_or]
      rw [Conditionals.loopHead_classify]

end

namespace StructuredProcedure

/-- **A single loop.** When one edge goes back to a dominator of its source, nothing
else closes a cycle and no block has more than two successors, its target heads a loop
that its source latches. Exactly the blocks on the two paths of the loop lie in it, they
belong to the loop of the edge, and no other block lies in any. -/
theorem loopHead_iff_onLoopPath (q : Procedure) (settings : Settings)
    (hbuilt : q.graph.Built) (hentry : q.graph.hasBlock q.graph.entry = true)
    (htwo : ∀ b, q.graph.Reached b → (q.graph.flow b).length ≤ 2) {h l : BlockId}
    (hl : q.graph.Reached l) (hback : h ∈ q.graph.flow l) (hdom : q.graph.Dominates h l)
    (hacyclic : ∀ b c, q.graph.Reached b → Sparing (Along q.graph.flow) l h b c →
      ¬ Reaches (Sparing (Along q.graph.flow) l h) c b) :
    ∃ s head latch, ofProcedure q settings = .ok s ∧
      s.graph.blockOf head = h ∧ s.graph.blockOf latch = l ∧
      ((s.role head).heads = .loop ∨ (s.role head).heads = .loopConditional) ∧
      (s.role head).latch = some latch ∧
      ∀ v, (q.graph.OnLoopPath h l (s.graph.blockOf v) →
          q.graph.InLoop h l (s.graph.blockOf v) ∧ (s.role v).loopHead = some head) ∧
        (¬ q.graph.OnLoopPath h l (s.graph.blockOf v) → (s.role v).loopHead = none) := by
  obtain ⟨p, hbuild, D, hnumbering, -⟩ :=
    NumberedProcedure.exists_build q settings.walkLimit hbuilt hentry
  obtain ⟨latch, rfl⟩ := D.exists_node hl
  obtain ⟨head, rfl⟩ := D.exists_node (hl.snoc hback)
  have S := D.singleLoop hdom hacyclic
  have htwo' (v : p.graph.Node) : (p.graph.next v).length ≤ 2 := by
    rw [← List.length_map (f := p.graph.blockOf), D.map_next]
    exact htwo _ (D.reached_blockOf v)
  have hpath (v : p.graph.Node) :
      q.graph.OnLoopPath (p.graph.blockOf head) (p.graph.blockOf latch) (p.graph.blockOf v) ↔
        ReflTransGen (LoopStep p.graph.next head latch) head v ∨
          ReflTransGen (LoopStep (fun a => (p.graph.next a).reverse) head latch) head v := by
    refine or_congr ?_ ?_
    · exact Forest.loopPath_image_iff (fun _ _ => D.blockOf_injective) fun a => (D.map_next a).symm
    · refine Forest.loopPath_image_iff (fun _ _ => D.blockOf_injective) fun a => ?_
      rw [List.map_reverse, D.map_next]
  obtain ⟨hheads, hlatch, hloopHead⟩ :=
    Roles.find_of_single D htwo' S (D.mem_next_iff.2 hback) p.postDominators
  have hmember (v : p.graph.Node) :
      v = head ∨ v ∈ Loops.members p.graph (Numbering.ofNodeGraph p.graph) head latch ↔
        q.graph.OnLoopPath (p.graph.blockOf head) (p.graph.blockOf latch) (p.graph.blockOf v) := by
    rw [hpath]
    by_cases hv : v = head
    · exact iff_of_true (Or.inl hv) (Or.inl (hv ▸ .refl))
    · rw [or_iff_right hv, Numbering.mem_members_iff D S hv]
  rw [← hnumbering] at hheads hlatch hloopHead hmember
  refine ⟨p.classify, head, latch, ofProcedure_of_build hbuild, rfl, rfl, hheads, hlatch,
    fun v => ⟨fun hv => ⟨.of_onLoopPath hv, ?_⟩, fun hv => ?_⟩⟩
  · exact (hloopHead v).trans (if_pos ((hmember v).2 hv))
  · exact (hloopHead v).trans (if_neg (mt (hmember v).1 hv))

/-- A loop of four blocks. From its head the first way leads straight to the latch, and
from the block the last way leads to, the last way does. -/
def braided : Procedure :=
  .ofGraph 0 "braid" (.empty 4)
    ((Graph.empty 0 3).addBlock (.empty 0 "b0") |>.addBlock (.empty 1 "b1")
      |>.addBlock (.empty 2 "b2") |>.addBlock (.empty 3 "b3") |>.addEdge 0 3 |>.addEdge 0 1
      |>.addEdge 1 2 |>.addEdge 1 3 |>.addEdge 2 3 |>.addEdge 3 0)

theorem built_braided : braided.graph.Built :=
  .addEdge _ _ (.addEdge _ _ (.addEdge _ _ (.addEdge _ _ (.addEdge _ _ (.addEdge _ _
    (.addBlock _ (.addBlock _ (.addBlock _ (.addBlock _ (.empty 0 3))))))))))

theorem flow_le_two_braided (b : BlockId) (hb : braided.graph.Reached b) :
    (braided.graph.flow b).length ≤ 2 :=
  (by decide : ∀ b ∈ braided.graph.blockIds, (braided.graph.flow b).length ≤ 2) b
    (Graph.mem_blockIds_of_reaches hb (by decide))

theorem reached_braided : braided.graph.Reached 3 :=
  ⟨[0, 3], .step (by decide : 3 ∈ braided.graph.flow 0) (.stop 3)⟩

theorem dominates_braided : braided.graph.Dominates 0 3 := fun _ hw => hw.start_mem

theorem acyclic_braided : Acyclic (Sparing (Along braided.graph.flow) 3 0) :=
  .of_rank id fun u v e =>
    ((by decide : ∀ e ∈ braided.graph.edges, e.1 < e.2 ∨ e.1 = 3 ∧ e.2 = 0) (u, v)
      (Graph.mem_successors.1 (Graph.mem_flow.1 e.1).1)).resolve_right e.2

/-- It has a single loop, so its blocks lie in it as they lie on the two paths. -/
theorem loopHead_iff_onLoopPath_braided :
    braided.graph.Built ∧ braided.graph.hasBlock braided.graph.entry = true ∧
      (∀ b, braided.graph.Reached b → (braided.graph.flow b).length ≤ 2) ∧
      braided.graph.Reached 3 ∧ 0 ∈ braided.graph.flow 3 ∧ braided.graph.Dominates 0 3 ∧
      Acyclic (Sparing (Along braided.graph.flow) 3 0) ∧
      ∃ s head latch, ofProcedure braided .sequential = .ok s ∧
        s.graph.blockOf head = 0 ∧ s.graph.blockOf latch = 3 ∧
        ((s.role head).heads = .loop ∨ (s.role head).heads = .loopConditional) ∧
        (s.role head).latch = some latch ∧
        ∀ v, (braided.graph.OnLoopPath 0 3 (s.graph.blockOf v) →
            braided.graph.InLoop 0 3 (s.graph.blockOf v) ∧ (s.role v).loopHead = some head) ∧
          (¬ braided.graph.OnLoopPath 0 3 (s.graph.blockOf v) → (s.role v).loopHead = none) :=
  ⟨built_braided, by decide, flow_le_two_braided, reached_braided, by decide, dominates_braided,
    acyclic_braided, loopHead_iff_onLoopPath braided .sequential built_braided (by decide)
      flow_le_two_braided reached_braided (by decide) dominates_braided
      fun b c _ => acyclic_braided b c⟩

/-- In it, `b2` leads to the latch without passing the head, and lies in no loop. -/
theorem loopHead_none_braided :
    braided.graph.Built ∧ braided.graph.hasBlock braided.graph.entry = true ∧
      (∀ b, braided.graph.Reached b → (braided.graph.flow b).length ≤ 2) ∧
      braided.graph.Reached 3 ∧ (braided.graph.flow 3).count 0 = 1 ∧
      braided.graph.Dominates 0 3 ∧
      (∀ b c, braided.graph.Reached b → c ∈ braided.graph.flow b →
        braided.graph.Dominates c b → b = 3 ∧ c = 0) ∧
      Acyclic (Sparing (Along braided.graph.flow) 3 0) ∧ braided.graph.InLoop 0 3 2 ∧
      ∃ s v, ofProcedure braided .sequential = .ok s ∧ s.graph.blockOf v = 2 ∧
        (s.role v).loopHead = none := by
  have hinLoop : braided.graph.InLoop 0 3 2 :=
    Or.inr ⟨[2, 3], .step (by decide : 3 ∈ braided.graph.flow 2) (.stop 3), by decide⟩
  refine ⟨built_braided, by decide, flow_le_two_braided, reached_braided, by decide,
    dominates_braided, ?_, acyclic_braided, hinLoop, ?_⟩
  · intro b c hb hc
    exact Graph.eq_of_dominates built_braided (by decide) reached_braided (by decide)
      dominates_braided (fun b c _ => acyclic_braided b c) hb hc
  · obtain ⟨s, hs, -⟩ := exists_ofProcedure braided .sequential built_braided (by decide)
    obtain ⟨v, hv, hnone⟩ := exists_node hs 2 (fun s v => some (s.role v).loopHead.isNone) true
      (by decide +kernel)
    exact ⟨s, v, hs, NodeGraph.blockOf_of_nodeOf? hv,
      Option.isNone_iff_eq_none.1 (Option.some.inj hnone)⟩

end StructuredProcedure

end Recovery
