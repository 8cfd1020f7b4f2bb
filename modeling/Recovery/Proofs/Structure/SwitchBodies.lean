import Recovery.Proofs.Runs
import Recovery.Proofs.Structure.Indexed.Conditionals
import Recovery.Proofs.Structure.PostDominators
/-
  Which nodes lie in a switch.

  All switches mark what they find in one list, and the search for the body of a switch marks
  its own head there as well. Without cycles the switches inside another one are classified
  before it, so their heads are marked when its own search comes by, and it ends there:
  the way on from where they follow, which `bodyNext` has for them, is never taken.

    1. The search finds the body of a switch (`mem_body_iff`): what a walk from the switch leads
       to along nodes that are `Open` to it, which no switch is. Once every conditional is
       classified, a node is told the switch around it exactly when it lies in
       the body of that switch (`caseHead_classify_iff`, `caseHead_iff_inBody`).
    2. So a node is told of some switch when a walk leads to it from a switch past no
       other one and no place where one of lower `order` follows (`exists_caseHead_of_walk`).
    3. The head of a switch inside another one is told of none, and neither is what comes
       after it within the outer one (`caseHead_none_nesting`).
-/

namespace Recovery

theorem NodeGraph.choice_of_nWay {g : NodeGraph} {v : g.Node} (h : g.branching v = .nWay) :
    2 ≤ (g.next v).length :=
  Nat.le_of_succ_le (branching_eq_nWay_iff.1 h)

/-- Whether along every edge `order` falls, and none goes back. -/
structure Numbering.Falls (g : NodeGraph) (k : Numbering g.size) : Prop where
  order : ∀ u s, s ∈ g.next u → k.order.get s < k.order.get u
  ahead : ∀ u s, s ∈ g.next u → k.isBackEdge u s = false

theorem Numbering.falls {q : Graph} {G : NodeGraph} (D : NodeGraph.Depicts q G)
    (hacyclic : Acyclic (Along G.next)) : Falls G (ofNodeGraph G) where
  order u s hs := order_lt_of_not_reaches D hs (hacyclic u s hs)
  ahead _ _ hs := isBackEdge_eq_false D hacyclic hs

namespace Conditionals
variable {g : NodeGraph} {k : Numbering g.size} {links : PostDominators g.size}
  {roles roles' : Roles g.size} {follow : Option g.Node} {found : List g.Node}
  {d h v w : g.Node}

/-- Whether a switch may take a node into its body: it does not follow there, the node is no
switch itself, and no switch of lower `order` has it. -/
structure Open (g : NodeGraph) (k : Numbering g.size) (roles : Roles g.size)
    (follow : Option g.Node) (h w : g.Node) : Prop where
  follow : follow ≠ some w
  branching : g.branching w ≠ .nWay
  caseHead : ∀ h', (roles.get w).caseHead = some h' → k.order.get h ≤ k.order.get h'

/-- `InBody g k roles follow h d`: a walk from the switch `h` leads to `d`, along nodes that the
switch may take into its body. -/
inductive InBody (g : NodeGraph) (k : Numbering g.size) (roles : Roles g.size)
    (follow : Option g.Node) (h : g.Node) : g.Node → Prop
  | first {c : g.Node} : c ∈ g.next h → Open g k roles follow h c → InBody g k roles follow h c
  | next {v s : g.Node} : InBody g k roles follow h v → s ∈ g.next v →
      Open g k roles follow h s → InBody g k roles follow h s

theorem InBody.mono (hopen : ∀ w, Open g k roles follow h w → Open g k roles' follow h w)
    (hd : InBody g k roles follow h d) : InBody g k roles' follow h d := by
  induction hd with
  | first hc hc' => exact .first hc (hopen _ hc')
  | next _ hs hs' ih => exact .next ih hs (hopen _ hs')

theorem inBody_congr (hopen : ∀ w, Open g k roles follow h w ↔ Open g k roles' follow h w) :
    InBody g k roles follow h d ↔ InBody g k roles' follow h d :=
  ⟨.mono fun w => (hopen w).1, .mono fun w => (hopen w).2⟩

theorem inBody_congr_caseHead
    (hsame : ∀ w, (roles.get w).caseHead = (roles'.get w).caseHead) :
    InBody g k roles follow h d ↔ InBody g k roles' follow h d :=
  inBody_congr fun w =>
    ⟨fun hw => ⟨hw.follow, hw.branching, hsame w ▸ hw.caseHead⟩,
      fun hw => ⟨hw.follow, hw.branching, hsame w ▸ hw.caseHead⟩⟩

/-- What a switch takes that was in none closes nothing to itself or to one of lower `order`. -/
theorem inBody_taking {taken : List g.Node}
    (hget : ∀ w, (roles'.get w).caseHead = if w ∈ taken then some v else (roles.get w).caseHead)
    (hnone : ∀ w ∈ taken, (roles.get w).caseHead = none) (hle : k.order.get h ≤ k.order.get v) :
    InBody g k roles' follow h d ↔ InBody g k roles follow h d := by
  refine inBody_congr fun w => ⟨fun hw => ⟨hw.follow, hw.branching, fun h' hh' => ?_⟩,
    fun hw => ⟨hw.follow, hw.branching, fun h' hh' => ?_⟩⟩
  · refine hw.caseHead h' ?_
    rw [hget, if_neg fun hin => ?_, hh']
    cases (hnone w hin).symm.trans hh'
  · rw [hget] at hh'
    split at hh'
    · exact Option.some.inj hh' ▸ hle
    · exact hw.caseHead h' hh'

theorem InBody.isOpen (hd : InBody g k roles follow h d) : Open g k roles follow h d := by
  cases hd with
  | first _ h => exact h
  | next _ _ h => exact h

theorem InBody.order_lt (F : Numbering.Falls g k) (hd : InBody g k roles follow h d) :
    k.order.get d < k.order.get h := by
  induction hd with
  | first hc _ => exact F.order _ _ hc
  | next _ hs _ ih => exact Nat.lt_trans (F.order _ _ hs) ih

/-! ## One switch -/

/-- When the switches of lower `order` and what they have is found, the search for the body of
a switch finds its body. -/
theorem mem_body_iff (F : Numbering.Falls g k)
    (hfound : ∀ w, w ∈ found ↔ (g.branching w = .nWay ∧ k.order.get w < k.order.get h) ∨
      ∃ h', (roles.get w).caseHead = some h')
    (hheads : ∀ w h', (roles.get w).caseHead = some h' → k.order.get h' < k.order.get h) :
    d ∈ (body g k roles' h follow found).1 ↔ InBody g k roles follow h d := by
  obtain ⟨f, hf, hbody⟩ := Indexed.depthFirst_body k roles' h follow found
  rw [hf]
  -- below the switch, what is not found and not where it follows is open to it
  have hopen (w : g.Node) (hlt : k.order.get w < k.order.get h) (hfollow : follow ≠ some w) :
      w ∈ h :: found ∨ Open g k roles follow h w := by
    by_cases hw : w ∈ found
    · exact Or.inl (List.mem_cons_of_mem h hw)
    · rw [hfound, not_or] at hw
      exact Or.inr ⟨hfollow, fun hn => hw.1 ⟨hn, hlt⟩, fun h' hh' => absurd ⟨h', hh'⟩ hw.2⟩
  have hfresh (w : g.Node) (hw : InBody g k roles follow h w) : w ∉ h :: found := by
    have hlt := hw.order_lt F
    rw [List.mem_cons, hfound]
    rintro (rfl | ⟨hn, -⟩ | ⟨h', hh'⟩)
    · exact Nat.lt_irrefl _ hlt
    · exact hw.isOpen.branching hn
    · exact absurd (hheads _ h' hh') (Nat.not_lt.2 (hw.isOpen.caseHead h' hh'))
  constructor
  · intro hd
    refine hbody.holds_of_closed (C := InBody g k roles follow h) (fun c hc => ?_)
      (fun v hv s hs => ?_) d hd
    · rw [Indexed.firsts, List.mem_filter, Bool.and_eq_true, decide_eq_true_eq] at hc
      exact (hopen c (F.order _ _ hc.1) hc.2.2).imp_right (.first hc.1)
    · rw [bodyNext, if_neg hv.isOpen.branching, List.mem_filter, List.mem_filter,
        decide_eq_true_eq] at hs
      have hlt := Nat.lt_trans (F.order _ _ hs.1.1) (hv.order_lt F)
      exact (hopen s hlt hs.2).imp_right (.next hv hs.1.1)
  · intro hd
    induction hd with
    | @first c hc hc' =>
      have hfirst : c ∈ Indexed.firsts g k h follow := by
        rw [Indexed.firsts, List.mem_filter, F.ahead _ _ hc]
        exact ⟨hc, decide_eq_true hc'.follow⟩
      exact ((hbody.mem_seen c).1 (hbody.seen_of_pending hfirst)).resolve_right
        (hfresh c (.first hc hc'))
    | @next v s hv hs hs' ih =>
      have hnext : s ∈ bodyNext g k roles' follow v := by
        rw [bodyNext, if_neg hv.isOpen.branching, List.mem_filter, List.mem_filter,
          F.ahead _ _ hs]
        exact ⟨⟨hs, rfl⟩, decide_eq_true hs'.follow⟩
      exact ((hbody.mem_seen s).1 (hbody.seen_of_next ih hnext)).resolve_right
        (hfresh s (.next hv hs hs'))

theorem shapeOf_eq_switch_iff : shapeOf g v follow = .switch ↔ g.branching v = .nWay := by
  rw [shapeOf]
  split
  · next hn => simp [hn]
  · next hn =>
    refine iff_of_false ?_ hn
    split
    · decide
    · split
      · decide
      · split
        · decide
        · decide

theorem classifyOne_of_not_nWay (k : Numbering g.size) (links : PostDominators g.size)
    (hn : g.branching v ≠ .nWay) (state : Roles g.size × List g.Node) :
    (classifyOne g k links state v).2 = state.2 ∧
      ∀ w, ((classifyOne g k links state v).1.get w).caseHead = (state.1.get w).caseHead := by
  have hkeep (change : Role g.size → Role g.size)
      (hchange : ∀ r, (change r).caseHead = r.caseHead) (w : g.Node) :
      ((state.1.edit v change).get w).caseHead = (state.1.get w).caseHead := by
    rw [Roles.get_edit]
    split
    · next hvw => rw [hchange, hvw]
    · rfl
  unfold classifyOne
  dsimp only
  split
  · exact ⟨rfl, hkeep _ fun _ => rfl⟩
  · rw [if_neg (mt shapeOf_eq_switch_iff.1 hn)]
    exact ⟨rfl, hkeep _ fun _ => rfl⟩

theorem exists_classifyOne_of_nWay (k : Numbering g.size) (links : PostDominators g.size)
    (hn : g.branching v = .nWay) (state : Roles g.size × List g.Node) :
    ∃ roles', (classifyOne g k links state v).2 = (body g k roles' v (links.get v) state.2).2 ∧
      ∀ w, ((classifyOne g k links state v).1.get w).caseHead =
        if w ∈ (body g k roles' v (links.get v) state.2).1 then some v
        else (state.1.get w).caseHead := by
  unfold classifyOne
  dsimp only
  rw [if_neg (by simp [hn]), if_pos (shapeOf_eq_switch_iff.2 hn)]
  refine ⟨_, rfl, fun w => ?_⟩
  rw [Roles.get_editAll _ _ _ _, Roles.get_edit]
  · split
    · rfl
    · split
      · next hvw => rw [hvw]
      · rfl
  · exact fun _ => rfl

/-! ## Every switch -/

/-- `Told g k links done state`: the switches that are done have their bodies, and found is
what they are and have. -/
structure Told (g : NodeGraph) (k : Numbering g.size) (links : PostDominators g.size)
    (done : List g.Node) (state : Roles g.size × List g.Node) : Prop where
  found : ∀ w, w ∈ state.2 ↔
    (w ∈ done ∧ g.branching w = .nWay) ∨ ∃ h, (state.1.get w).caseHead = some h
  inBody : ∀ w h, (state.1.get w).caseHead = some h ↔
    (h ∈ done ∧ g.branching h = .nWay) ∧ InBody g k state.1 (links.get h) h w

namespace Told
variable {done : List g.Node} {state : Roles g.size × List g.Node}

theorem start (g : NodeGraph) (k : Numbering g.size) (links : PostDominators g.size) :
    Told g k links [] (.replicate g.size (.plain g.size), []) := by
  have hnone (w : g.Node) :
      ((Vector.replicate g.size (Role.plain g.size)).get w).caseHead = none := by
    rw [get_replicate]
    rfl
  refine ⟨fun w => ?_, fun w h => ?_⟩
  · simp only [hnone, List.not_mem_nil, false_and, reduceCtorEq, exists_false, or_false]
  · simp only [hnone, List.not_mem_nil, false_and, reduceCtorEq]

/-- The search of the switch that comes next finds its body. -/
theorem mem_body_iff (T : Told g k links done state) (F : Numbering.Falls g k)
    (hdone : ∀ w, 2 ≤ (g.next w).length → (w ∈ done ↔ k.order.get w < k.order.get v)) :
    w ∈ (body g k roles' v (links.get v) state.2).1 ↔ InBody g k state.1 (links.get v) v w := by
  refine Conditionals.mem_body_iff F (fun w => ?_) fun w h hw => ?_
  · rw [T.found]
    refine or_congr_left ⟨fun hw => ⟨hw.2, ?_⟩, fun hw => ⟨?_, hw.1⟩⟩
    · exact (hdone w (NodeGraph.choice_of_nWay hw.2)).1 hw.1
    · exact (hdone w (NodeGraph.choice_of_nWay hw.1)).2 hw.2
  · obtain ⟨hh, -⟩ := (T.inBody w h).1 hw
    exact (hdone h (NodeGraph.choice_of_nWay hh.2)).1 hh.1

theorem classifyOne_of_nWay (T : Told g k links done state) (F : Numbering.Falls g k)
    (hdone : ∀ w, 2 ≤ (g.next w).length → (w ∈ done ↔ k.order.get w < k.order.get v))
    (hn : g.branching v = .nWay) : Told g k links (done ++ [v]) (classifyOne g k links state v) := by
  obtain ⟨roles', hfound, hget⟩ := exists_classifyOne_of_nWay k links hn state
  obtain ⟨f, hf, hbody⟩ := Indexed.depthFirst_body k roles' v (links.get v) state.2
  -- what the switch takes no other has
  have hnone (w : g.Node) (hw : w ∈ (body g k roles' v (links.get v) state.2).1) :
      (state.1.get w).caseHead = none := by
    rw [hf] at hw
    refine Option.eq_none_iff_forall_ne_some.2 fun h hh => hbody.fresh hw ?_
    exact List.mem_cons_of_mem v ((T.found w).2 (Or.inr ⟨h, hh⟩))
  have hkept (w h : g.Node) (hh : h ∈ done ++ [v] ∧ g.branching h = .nWay) :
      InBody g k (classifyOne g k links state v).1 (links.get h) h w ↔
        InBody g k state.1 (links.get h) h w := by
    refine inBody_taking hget hnone ?_
    rcases List.mem_append.1 hh.1 with hin | hin
    · exact Nat.le_of_lt ((hdone h (NodeGraph.choice_of_nWay hh.2)).1 hin)
    · exact Nat.le_of_eq (List.mem_singleton.1 hin ▸ rfl)
  refine ⟨fun w => ?_, fun w h => ?_⟩
  · rw [hfound, hbody.mem_seen, ← hf, List.mem_cons, T.found, hget]
    by_cases hw : w ∈ (body g k roles' v (links.get v) state.2).1
    · simp [hw]
    · by_cases hwv : w = v
      · simp [hwv, hn]
      · simp [hw, hwv]
  · rw [hget, and_congr_right (hkept w h), List.mem_append, List.mem_singleton, or_and_right,
      or_and_right, ← T.inBody]
    by_cases hw : w ∈ (body g k roles' v (links.get v) state.2).1
    · rw [if_pos hw, Option.some.injEq, hnone w hw]
      have hv := (T.mem_body_iff F hdone).1 hw
      refine ⟨fun hvh => Or.inr (hvh ▸ ⟨⟨rfl, hn⟩, hv⟩), fun hh => ?_⟩
      exact (hh.resolve_left nofun).1.1.symm
    · rw [if_neg hw]
      refine (or_iff_left fun hh => hw ((T.mem_body_iff F hdone).2 ?_)).symm
      exact hh.1.1 ▸ hh.2

theorem classifyOne_of_not_nWay (T : Told g k links done state) (hn : g.branching v ≠ .nWay) :
    Told g k links (done ++ [v]) (classifyOne g k links state v) := by
  obtain ⟨hfound, hget⟩ := Conditionals.classifyOne_of_not_nWay k links hn state
  have hmem (w : g.Node) : (w ∈ done ++ [v] ∧ g.branching w = .nWay) ↔
      w ∈ done ∧ g.branching w = .nWay := by
    rw [List.mem_append, List.mem_singleton, or_and_right]
    exact or_iff_left fun hw => hn (hw.1 ▸ hw.2)
  refine ⟨fun w => ?_, fun w h => ?_⟩
  · rw [hfound, hget, hmem, T.found]
  · rw [hget, hmem, T.inBody, inBody_congr_caseHead hget]

end Told

theorem caseHead_classify_iff {q : Graph} {G : NodeGraph} (D : NodeGraph.Depicts q G)
    (hacyclic : Acyclic (Along G.next)) (links : PostDominators G.size) (w h : G.Node) :
    ((classify G (Numbering.ofNodeGraph G) links).get w).caseHead = some h ↔
      G.branching h = .nWay ∧ InBody G (Numbering.ofNodeGraph G)
        (classify G (Numbering.ofNodeGraph G) links) (links.get h) h w := by
  let l := (Numbering.ofNodeGraph G).ordering.filter G.isConditional
  have hmem (u : G.Node) (hu : 2 ≤ (G.next u).length) : u ∈ l :=
    List.mem_filter.2 ⟨Numbering.mem_ordering D u, NodeGraph.isConditional_iff.2 hu⟩
  have hsorted : l.Pairwise fun u v =>
      (Numbering.ofNodeGraph G).order.get u < (Numbering.ofNodeGraph G).order.get v :=
    (Numbering.pairwise_ordering G).filter G.isConditional
  have T := foldl_along (motive := Told G (Numbering.ofNodeGraph G) links) l
    (f := classifyOne G (Numbering.ofNodeGraph G) links)
    (fun done v rest hl state T => ?_) _ (.start G _ links)
  · rw [classify, T.inBody]
    exact and_congr_left fun _ => and_iff_right_of_imp fun hn => hmem h (NodeGraph.choice_of_nWay hn)
  · -- conditionals are taken by `order`
    have hdone (u : G.Node) (hu : 2 ≤ (G.next u).length) : u ∈ done ↔
        (Numbering.ofNodeGraph G).order.get u < (Numbering.ofNodeGraph G).order.get v := by
      have hu := hmem u hu
      rw [← hl] at hsorted hu
      obtain ⟨-, hrest, hbefore⟩ := List.pairwise_append.1 hsorted
      refine ⟨fun h => hbefore u h v List.mem_cons_self, fun hlt => ?_⟩
      rcases List.mem_append.1 hu with h | h
      · exact h
      · rcases List.mem_cons.1 h with rfl | h
        · exact absurd hlt (Nat.lt_irrefl _)
        · exact absurd hlt (Nat.lt_asymm ((List.pairwise_cons.1 hrest).1 u h))
    by_cases hn : G.branching v = .nWay
    · exact T.classifyOne_of_nWay (Numbering.falls D hacyclic) hdone hn
    · exact T.classifyOne_of_not_nWay hn

/-- Where every switch has its body, a walk from a switch that passes no switch and no place
where one of lower or equal `order` follows stays within switches of no higher `order`. -/
theorem exists_caseHead_of_walk {follows : g.Node → Option g.Node}
    (hbody : ∀ w h, (roles.get w).caseHead = some h ↔
      g.branching h = .nWay ∧ InBody g k roles (follows h) h w)
    (hn : g.branching h = .nWay) {c : g.Node} {vs : List g.Node} (hc : c ∈ g.next h)
    (hw : Walk (Along g.next) c d vs)
    (hpast : ∀ w ∈ vs, g.branching w ≠ .nWay ∧
      ∀ h', g.branching h' = .nWay → k.order.get h' ≤ k.order.get h → follows h' ≠ some w) :
    ∃ h', (roles.get d).caseHead = some h' ∧ k.order.get h' ≤ k.order.get h := by
  -- a node on the walk that no such switch has is open to all of them
  have htaken {u w : g.Node} (hu : g.branching u = .nWay) (hle : k.order.get u ≤ k.order.get h)
      (hw : w ∈ vs) (hin : Open g k roles (follows u) u w → InBody g k roles (follows u) u w) :
      ∃ h', (roles.get w).caseHead = some h' ∧ k.order.get h' ≤ k.order.get h := by
    by_contra hnone
    have hopen : Open g k roles (follows u) u w := by
      refine ⟨(hpast w hw).2 u hu hle, (hpast w hw).1, fun h' hh' => ?_⟩
      by_contra hlt
      exact hnone ⟨h', hh', by omega⟩
    exact hnone ⟨u, (hbody w u).2 ⟨hu, hin hopen⟩, hle⟩
  have hfirst := htaken hn (Nat.le_refl _) hw.start_mem (.first hc)
  clear hc
  induction hw with
  | stop c => exact hfirst
  | @step c s d vs e hw ih =>
    obtain ⟨u, hu, hle⟩ := hfirst
    obtain ⟨hun, hbodyc⟩ := (hbody c u).1 hu
    refine ih (fun w hw => hpast w (List.mem_cons_of_mem c hw))
      (fun hu hle hw => htaken hu hle (List.mem_cons_of_mem c hw)) ?_
    exact htaken hun hle (List.mem_cons_of_mem c hw.start_mem) (.next hbodyc e)

end Conditionals

namespace Roles

theorem caseHead_find (G : NodeGraph) (k : Numbering G.size) (links : PostDominators G.size)
    (v : G.Node) :
    ((find G k links).get v).caseHead = ((Conditionals.classify G k links).get v).caseHead := by
  obtain ⟨_, _, _, _, _, _, _, hv⟩ := exists_get_find G k links v
  rw [hv]

theorem inBody_find {q : Graph} {G : NodeGraph} (D : NodeGraph.Depicts q G)
    (hacyclic : Acyclic (Along G.next)) (links : PostDominators G.size) (w h : G.Node) :
    ((find G (Numbering.ofNodeGraph G) links).get w).caseHead = some h ↔
      G.branching h = .nWay ∧ Conditionals.InBody G (Numbering.ofNodeGraph G)
        (find G (Numbering.ofNodeGraph G) links)
        ((find G (Numbering.ofNodeGraph G) links).get h).follow h w := by
  rw [caseHead_find, Conditionals.caseHead_classify_iff D hacyclic links]
  refine and_congr_right fun hn => ?_
  rw [follow_find, Conditionals.follow_classify (Numbering.mem_ordering D h)
    (NodeGraph.choice_of_nWay hn) (Numbering.hasBackEdge_eq_false D hacyclic)]
  exact Conditionals.inBody_congr_caseHead fun v => (caseHead_find G _ links v).symm

end Roles

namespace StructuredProcedure
open Conditionals (InBody)

/-- **Bodies of switches.** When the entry reaches no cycle, a node is told the switch around
it exactly when it lies in the body of that switch, and of a switch of no higher `order`
when a walk leads to it from a switch past no other one and no place where one of them follows. -/
theorem caseHead_iff_inBody (q : Procedure) (settings : Settings) (hbuilt : q.graph.Built)
    (hentry : q.graph.hasBlock q.graph.entry = true)
    (hacyclic : ∀ b c, q.graph.Reached b → c ∈ q.graph.flow b →
      ¬ Reaches (Along q.graph.flow) c b) :
    ∃ s, ofProcedure q settings = .ok s ∧
      (∀ d h, (s.role d).caseHead = some h ↔ s.graph.branching h = .nWay ∧
        InBody s.graph s.numbering s.roles (s.role h).follow h d) ∧
      (∀ h c d vs, s.graph.branching h = .nWay → c ∈ s.graph.next h →
        Walk (Along s.graph.next) c d vs →
        (∀ w ∈ vs, s.graph.branching w ≠ .nWay ∧ ∀ h', s.graph.branching h' = .nWay →
          s.numbering.order.get h' ≤ s.numbering.order.get h → (s.role h').follow ≠ some w) →
        ∃ h', (s.role d).caseHead = some h' ∧
          s.numbering.order.get h' ≤ s.numbering.order.get h) := by
  obtain ⟨s, hs, D, hnumbering, hroles⟩ := exists_ofProcedure q settings hbuilt hentry
  have hbody (d h : s.graph.Node) : (s.role d).caseHead = some h ↔
      s.graph.branching h = .nWay ∧
        InBody s.graph s.numbering s.roles (s.role h).follow h d := by
    rw [hnumbering]
    show (s.roles.get d).caseHead = some h ↔ s.graph.branching h = .nWay ∧
      InBody s.graph (Numbering.ofNodeGraph s.graph) s.roles (s.roles.get h).follow h d
    rw [hroles]
    exact Roles.inBody_find D (D.acyclic hacyclic) s.postDominators d h
  exact ⟨s, hs, hbody, fun h c d vs hn hc hw hpast =>
    Conditionals.exists_caseHead_of_walk hbody hn hc hw hpast⟩

/-- A switch with another one in its first branch, joined again before it follows. -/
def nesting : Procedure :=
  .ofGraph 0 "nest" (.empty 4)
    ((Graph.empty 0 6).addBlock (.empty 0 "outer") |>.addBlock (.empty 1 "inner")
      |>.addBlock (.empty 2 "left") |>.addBlock (.empty 3 "right") |>.addBlock (.empty 4 "joined")
      |>.addBlock (.empty 5 "other") |>.addBlock (.empty 6 "done") |>.addEdge 0 1 |>.addEdge 0 5
      |>.addEdge 0 6 |>.addEdge 1 2 |>.addEdge 1 3 |>.addEdge 1 4 |>.addEdge 2 4 |>.addEdge 3 4
      |>.addEdge 4 6 |>.addEdge 5 6)

theorem built_nesting : nesting.graph.Built :=
  .addEdge _ _ (.addEdge _ _ (.addEdge _ _ (.addEdge _ _ (.addEdge _ _ (.addEdge _ _ (.addEdge _ _
    (.addEdge _ _ (.addEdge _ _ (.addEdge _ _ (.addBlock _ (.addBlock _ (.addBlock _ (.addBlock _
      (.addBlock _ (.addBlock _ (.addBlock _ (.empty 0 6)))))))))))))))))

theorem acyclic_nesting : Acyclic (Along nesting.graph.flow) :=
  .of_rank id fun u v h =>
    (by decide : ∀ e ∈ nesting.graph.edges, e.1 < e.2) (u, v)
      (Graph.mem_successors.1 (Graph.mem_flow.1 h).1)

/-- Its other branch lies in the outer switch. -/
theorem caseHead_iff_inBody_nesting :
    nesting.graph.Built ∧ nesting.graph.hasBlock nesting.graph.entry = true ∧
      (∀ b c, nesting.graph.Reached b → c ∈ nesting.graph.flow b →
        ¬ Reaches (Along nesting.graph.flow) c b) ∧
      ∃ s h d, ofProcedure nesting (Settings.sequential.withWalkLimit 14) = .ok s ∧
        s.graph.blockOf d = 5 ∧ (s.role d).caseHead = some h ∧
        InBody s.graph s.numbering s.roles (s.role h).follow h d := by
  obtain ⟨s, hs, hbody, hwalk⟩ := caseHead_iff_inBody nesting
    (Settings.sequential.withWalkLimit 14) built_nesting (by decide)
    fun b c _ => acyclic_nesting b c
  obtain ⟨h, -, hfacts⟩ := exists_node hs 0
    (fun s h => (s.graph.nodeOf? 5).map fun d =>
      decide (s.graph.branching h = .nWay ∧ d ∈ s.graph.next h ∧
        s.graph.branching d ≠ .nWay ∧ ∀ h', s.graph.branching h' = .nWay →
          s.numbering.order.get h' ≤ s.numbering.order.get h →
            (s.role h').follow ≠ some d)) true (by decide +kernel)
  obtain ⟨d, hd, hfacts⟩ := Option.map_eq_some_iff.1 hfacts
  obtain ⟨hn, hnext, hpast⟩ := of_decide_eq_true hfacts
  obtain ⟨h', hh', -⟩ := hwalk h d d [d] hn hnext (.stop d) fun w hw =>
    List.mem_singleton.1 hw ▸ hpast
  exact ⟨built_nesting, by decide, fun b c _ => acyclic_nesting b c, s, h', d, hs,
    NodeGraph.blockOf_of_nodeOf? hd, hh', ((hbody d h').1 hh').2⟩

/-- Its inner switch and what comes after it are told of none, though walks lead to both from the
outer one that stop short of where it follows. -/
theorem caseHead_none_nesting :
    nesting.graph.Built ∧ nesting.graph.hasBlock nesting.graph.entry = true ∧
      (∀ b c, nesting.graph.Reached b → c ∈ nesting.graph.flow b →
        ¬ Reaches (Along nesting.graph.flow) c b) ∧
      (∀ b, nesting.graph.Reached b → Reaches (Along nesting.graph.flow) b nesting.graph.exit) ∧
      ∃ s h inner joined,
        ofProcedure nesting (Settings.sequential.withWalkLimit 14) = .ok s ∧
        2 * s.graph.size ≤ 14 ∧ s.graph.branching h = .nWay ∧ inner ≠ h ∧ joined ≠ h ∧
        s.graph.branching inner = .nWay ∧
        (∃ vs, Walk (Along s.graph.next) h inner vs ∧ ∀ w ∈ vs, (s.role h).follow ≠ some w) ∧
        (∃ vs, Walk (Along s.graph.next) h joined vs ∧ ∀ w ∈ vs, (s.role h).follow ≠ some w) ∧
        (s.role inner).caseHead = none ∧ (s.role joined).caseHead = none := by
  have hexit (b : BlockId) (hb : nesting.graph.Reached b) :
      Reaches (Along nesting.graph.flow) b nesting.graph.exit :=
    Graph.reaches_exit_of_rank (6 - ·) (by decide)
      (Graph.mem_blockIds_of_reaches hb (by decide))
  obtain ⟨s, hs, D, -⟩ := exists_ofProcedure nesting (Settings.sequential.withWalkLimit 14)
    built_nesting (by decide)
  obtain ⟨h, -, hfacts⟩ := exists_node hs 0
    (fun s h => (s.graph.nodeOf? 1).bind fun inner => (s.graph.nodeOf? 4).map fun joined =>
      decide (s.graph.branching h = .nWay ∧ inner ≠ h ∧ joined ≠ h ∧
        s.graph.branching inner = .nWay ∧ inner ∈ s.graph.next h ∧
        joined ∈ s.graph.next inner ∧
        (∀ w ∈ [h, inner, joined], (s.role h).follow ≠ some w) ∧
        (s.role inner).caseHead = none ∧ (s.role joined).caseHead = none)) true
    (by decide +kernel)
  obtain ⟨inner, -, hfacts⟩ := Option.bind_eq_some_iff.1 hfacts
  obtain ⟨joined, -, hfacts⟩ := Option.map_eq_some_iff.1 hfacts
  obtain ⟨hn, hinner, hjoined, hninner, hstep, hstep', hpast, hnone⟩ := of_decide_eq_true hfacts
  have hw : Walk (Along s.graph.next) h inner [h, inner] := .step hstep (.stop inner)
  have hw' : Walk (Along s.graph.next) h joined [h, inner, joined] :=
    .step hstep (.step hstep' (.stop joined))
  exact ⟨built_nesting, by decide, fun b c _ => acyclic_nesting b c, hexit, s, h, inner, joined, hs,
    Nat.mul_le_mul_left 2 D.size_le, hn, hinner, hjoined, hninner,
    ⟨_, hw, fun w hw => hpast w (List.mem_of_mem_take (i := 2) hw)⟩, ⟨_, hw', hpast⟩, hnone⟩

end StructuredProcedure
end Recovery
