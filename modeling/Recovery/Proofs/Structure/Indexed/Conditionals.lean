import Recovery.Proofs.Structure.Indexed.Numbering
import Recovery.Proofs.Structure.Indexed.PostDominators
import Recovery.Proofs.Structure.Phases
/-
  Conditionals, found by index.

  Only nodes with at least two successors are classified, so the first and the
  second are there to be read (`conditionalShape_eq`).

  The body of a switch is tagged from a stack. A node is marked when it is put
  there, so the unmarked nodes and those on the stack together become fewer with
  every turn. What is tagged and what waits lies in the body that a search finds,
  and what is tagged leads only to nodes that were found or wait (`Tagging`); when
  none waits it is the whole body (`tag_eq`).
-/

namespace Recovery.Indexed
variable {g : NodeGraph} {k : Numbering g.size}

/-! ## Shapes -/

theorem conditionalShape_eq {v : g.Node} (h : 2 ≤ (g.next v).length) (follow : Option g.Node) :
    conditionalShape g v follow = some (Conditionals.shapeOf g v follow) := by
  obtain ⟨taken, fallen, hbranches, htaken, hfallen⟩ := NodeGraph.exists_branches h
  rw [conditionalShape, Conditionals.shapeOf, hbranches, htaken, hfallen]
  split
  · rfl
  · simp only [Option.bind_eq_bind, Option.bind_some]
    split
    · rfl
    · split
      · rfl
      · rfl

theorem shape_eq {v : g.Node} (h : 2 ≤ (g.next v).length) (roles : Roles g.size) :
    shape g roles v = some (roles.edit v fun r =>
      { r with heads := .conditional, shape := some (Conditionals.shapeOf g v r.follow) }) := by
  rw [shape, conditionalShape_eq h]
  rfl

/-! ## The body of a switch -/

def unmarked {n : Nat} (marked : Marks n) : Nat :=
  (List.finRange n).countP fun v => !marked.get v

theorem unmarked_on {n : Nat} (seen : List (Fin n)) :
    unmarked (.on seen) = Forest.unseen (List.finRange n) seen := by
  simp only [unmarked, Marks.get_on, Forest.unseen, decide_not]

/-- `Pushed follow targets seen new`: putting targets on a stack puts `new` there. -/
structure Pushed {n : Nat} (follow : Option (Fin n)) (targets seen new : List (Fin n)) : Prop where
  listed : ∀ x ∈ new, x ∈ targets ∧ follow ≠ some x
  fresh : ∀ x ∈ new, x ∉ seen
  marked : ∀ x ∈ targets, follow ≠ some x → x ∈ new ∨ x ∈ seen
  fewer : unmarked (.on (new ++ seen)) + new.length ≤ unmarked (.on seen)

theorem push_on {n : Nat} (follow : Option (Fin n)) (stack seen : List (Fin n)) (s : Fin n) :
    push follow (stack, .on seen) s =
      if s ∈ seen ∨ follow = some s then (stack, .on seen) else (s :: stack, .on (s :: seen)) := by
  rw [push, Marks.get_on, Marks.add_on]
  simp only [Bool.or_eq_true, decide_eq_true_eq]

namespace Pushed
variable {n : Nat} {follow : Option (Fin n)} {targets seen new : List (Fin n)} {s : Fin n}

theorem skip (h : Pushed follow targets seen new) (hs : s ∈ seen ∨ follow = some s) :
    Pushed follow (s :: targets) seen new where
  listed x hx := (h.listed x hx).imp_left (List.mem_cons_of_mem s)
  fresh := h.fresh
  marked x hx hf := by
    rcases List.mem_cons.1 hx with rfl | hx
    · exact Or.inr (hs.resolve_right hf)
    · exact h.marked x hx hf
  fewer := h.fewer

theorem take (h : Pushed follow targets (s :: seen) new) (hs : s ∉ seen) (hf : follow ≠ some s) :
    Pushed follow (s :: targets) seen (new ++ [s]) where
  listed x hx := by
    rcases List.mem_append.1 hx with hx | hx
    · exact (h.listed x hx).imp_left (List.mem_cons_of_mem s)
    · obtain rfl := List.mem_singleton.1 hx
      exact ⟨List.mem_cons_self, hf⟩
  fresh x hx := by
    rcases List.mem_append.1 hx with hx | hx
    · exact fun hseen => h.fresh x hx (List.mem_cons_of_mem s hseen)
    · exact List.mem_singleton.1 hx ▸ hs
  marked x hx hfx := by
    rw [List.mem_append, or_assoc, List.mem_singleton, ← List.mem_cons]
    rcases List.mem_cons.1 hx with rfl | hx
    · exact Or.inr List.mem_cons_self
    · exact h.marked x hx hfx
  fewer := by
    have hone := Forest.unseen_cons_lt (List.mem_finRange s) hs
    have hrest := h.fewer
    rw [unmarked_on, unmarked_on] at hrest ⊢
    rw [List.append_assoc, List.singleton_append, List.length_append, List.length_singleton]
    omega

end Pushed

theorem exists_pushed {n : Nat} (follow : Option (Fin n)) (targets : List (Fin n)) :
    ∀ stack seen : List (Fin n), ∃ new, Pushed follow targets seen new ∧
      targets.foldl (push follow) (stack, .on seen) = (new ++ stack, .on (new ++ seen)) := by
  induction targets with
  | nil =>
    refine fun stack seen => ⟨[], ?_, rfl⟩
    constructor
    case listed => exact fun x hx => nomatch hx
    case fresh => exact fun x hx => nomatch hx
    case marked => exact fun x hx => nomatch hx
    case fewer => exact Nat.le_refl _
  | cons s targets ih =>
    intro stack seen
    rw [List.foldl_cons, push_on]
    by_cases hs : s ∈ seen ∨ follow = some s
    · obtain ⟨new, hnew, hfold⟩ := ih stack seen
      rw [if_pos hs, hfold]
      exact ⟨new, hnew.skip hs, rfl⟩
    · obtain ⟨new, hnew, hfold⟩ := ih (s :: stack) (s :: seen)
      have hmem (x : Fin n) : x ∈ new ++ s :: seen ↔ x ∈ (new ++ [s]) ++ seen := by simp
      rw [if_neg hs, hfold, Marks.on_congr hmem, List.append_cons]
      rw [not_or] at hs
      exact ⟨new ++ [s], hnew.take hs.1 hs.2, rfl⟩

/-- The nodes a turn offers to the stack. -/
def offered (g : NodeGraph) (k : Numbering g.size) (roles : Roles g.size) (head v : g.Node) :
    List g.Node :=
  if g.branching v = .nWay ∧ v ≠ head then (roles.get v).follow.toList
  else (g.next v).reverse.filter fun s => !k.isBackEdge v s

theorem tagTurn_cons (head : g.Node) (follow : Option g.Node) (v : g.Node) (stack : List g.Node)
    (marked : Marks g.size) (roles : Roles g.size) :
    tagTurn g k head follow (v :: stack, marked, roles) =
      let roles := tagNode head v roles
      let pushed := (offered g k roles head v).foldl (push follow) (stack, marked)
      some (.again (pushed.1, pushed.2, roles)) := by
  unfold tagTurn offered
  dsimp only
  split
  · rfl
  · have hpush (state : List g.Node × Marks g.size) (s : g.Node) :
        (if k.isBackEdge v s then state else push follow state s) =
          if (!k.isBackEdge v s) = true then push follow state s else state := by
      cases k.isBackEdge v s with
      | true => rfl
      | false => rfl
    rw [eachAt_range_reverse, foldlM_some, List.foldl_filter]
    simp only [hpush]
    rfl

section
variable {roles : Roles g.size} {head : g.Node} {follow : Option g.Node} {found : List g.Node}

/-- Where the body of a switch starts: at the successors of its head that no back edge leads
to and that it does not follow at. -/
def firsts (g : NodeGraph) (k : Numbering g.size) (head : g.Node) (follow : Option g.Node) :
    List g.Node :=
  (g.next head).filter fun s => !k.isBackEdge head s && decide (follow ≠ some s)

/-- The body of a switch is what a depth-first search finds, from where it starts. -/
theorem depthFirst_body (k : Numbering g.size) (roles : Roles g.size) (head : g.Node)
    (follow : Option g.Node) (found : List g.Node) :
    ∃ f, (Conditionals.body g k roles head follow found).1 = f.preorder ∧
      Forest.DepthFirst (Conditionals.bodyNext g k roles follow) (firsts g k head follow)
        (head :: found) f (Conditionals.body g k roles head follow found).2 := by
  have hclosed : ∀ v ∈ List.finRange g.size,
      ∀ w ∈ Conditionals.bodyNext g k roles follow v, w ∈ List.finRange g.size :=
    fun _ _ w _ => List.mem_finRange w
  have hdepth : Forest.unseen (List.finRange g.size) (head :: found) ≤ g.size :=
    Nat.le_trans (Forest.unseen_le_length _) (Nat.le_of_eq List.length_finRange)
  exact ⟨_, rfl, Forest.depthFirst_grow hclosed g.size _ _ (fun v _ => List.mem_finRange v) hdepth⟩

theorem mem_offered_iff {v s : g.Node} (hv : v ≠ head) :
    (s ∈ offered g k roles head v ∧ follow ≠ some s) ↔
      s ∈ Conditionals.bodyNext g k roles follow v := by
  rw [offered, Conditionals.bodyNext, List.mem_filter, decide_eq_true_eq]
  by_cases hn : g.branching v = .nWay
  · rw [if_pos ⟨hn, hv⟩, if_pos hn]
  · rw [if_neg fun h => hn h.1, if_neg hn, List.mem_filter, List.mem_filter, List.mem_reverse]

theorem mem_offered_head_iff {s : g.Node} :
    (s ∈ offered g k roles head head ∧ follow ≠ some s) ↔ s ∈ firsts g k head follow := by
  rw [offered, if_neg fun h => h.2 rfl, firsts, List.mem_filter, List.mem_filter,
    List.mem_reverse, Bool.and_eq_true, decide_eq_true_eq, and_assoc]

/-- `Tagging g k roles head follow found stack tagged`: between two turns, what is tagged or
waits lies in the body, and what the head or a tagged node leads to was found or waits. -/
structure Tagging (g : NodeGraph) (k : Numbering g.size) (roles : Roles g.size) (head : g.Node)
    (follow : Option g.Node) (found stack tagged : List g.Node) : Prop where
  inside : ∀ v, v ∈ tagged ∨ v ∈ stack → v ∈ (Conditionals.body g k roles head follow found).1
  firsts : ∀ v ∈ firsts g k head follow, v ∈ head :: found ∨ v ∈ tagged ∨ v ∈ stack
  closed : ∀ v ∈ tagged, ∀ s ∈ Conditionals.bodyNext g k roles follow v,
    s ∈ head :: found ∨ s ∈ tagged ∨ s ∈ stack

theorem tagging_firsts {new : List g.Node}
    (h : Pushed follow (offered g k roles head head) (head :: found) new) :
    Tagging g k roles head follow found new [] where
  inside v hv := by
    have hnew := hv.resolve_left List.not_mem_nil
    obtain ⟨f, hf, hbody⟩ := depthFirst_body k roles head follow found
    have hseen := hbody.seen_of_pending (mem_offered_head_iff.1 (h.listed v hnew))
    rw [hf]
    exact ((hbody.mem_seen v).1 hseen).resolve_right (h.fresh v hnew)
  firsts v hv := by
    obtain ⟨hoffered, hfollow⟩ := mem_offered_head_iff.2 hv
    rcases h.marked v hoffered hfollow with hnew | hseen
    · exact Or.inr (Or.inr hnew)
    · exact Or.inl hseen
  closed v hv := nomatch hv

/-- Every turn but the first tags a node and puts on the stack what the node leads to. -/
theorem Tagging.turn {v : g.Node} {stack tagged new : List g.Node}
    (h : Tagging g k roles head follow found (v :: stack) tagged)
    (hnew : Pushed follow (offered g k roles head v) (tagged ++ v :: stack ++ head :: found) new) :
    Tagging g k roles head follow found (new ++ stack) (tagged ++ [v]) := by
  obtain ⟨f, hf, hbody⟩ := depthFirst_body k roles head follow found
  have hv : v ∈ f.preorder := hf ▸ h.inside v (Or.inr List.mem_cons_self)
  have hne : v ≠ head := fun heq => hbody.fresh hv (heq ▸ List.mem_cons_self)
  -- what was found or waited is found or waits still
  have hkept (s : g.Node) (hs : s ∈ head :: found ∨ s ∈ tagged ∨ s ∈ v :: stack) :
      s ∈ head :: found ∨ s ∈ tagged ++ [v] ∨ s ∈ new ++ stack := by
    simp only [List.mem_append, List.mem_cons, List.not_mem_nil] at hs ⊢
    tauto
  refine ⟨fun s hs => ?_, fun s hs => hkept s (h.firsts s hs), fun u hu s hs => ?_⟩
  · by_cases hs' : s ∈ new
    · have hnext := (mem_offered_iff hne).1 (hnew.listed s hs')
      have hfresh := hnew.fresh s hs'
      rw [hf]
      refine ((hbody.mem_seen s).1 (hbody.seen_of_next hv hnext)).resolve_right fun hold => ?_
      exact hfresh (List.mem_append_right _ hold)
    · apply h.inside s
      simp only [List.mem_append, List.mem_cons, List.not_mem_nil] at hs ⊢
      tauto
  · rcases List.mem_append.1 hu with hu | hu
    · exact hkept s (h.closed u hu s hs)
    · obtain rfl := List.mem_singleton.1 hu
      obtain ⟨hoffered, hfollow⟩ := (mem_offered_iff hne).2 hs
      rcases hnew.marked s hoffered hfollow with hs' | hs'
      · exact Or.inr (Or.inr (List.mem_append_left _ hs'))
      · apply hkept s
        simp only [List.mem_append] at hs'
        tauto

/-- When no node waits, the whole body is tagged. -/
theorem Tagging.mem_iff {tagged : List g.Node}
    (h : Tagging g k roles head follow found [] tagged) (v : g.Node) :
    v ∈ tagged ↔ v ∈ (Conditionals.body g k roles head follow found).1 := by
  obtain ⟨f, hf, hbody⟩ := depthFirst_body k roles head follow found
  refine ⟨fun hv => h.inside v (Or.inl hv), fun hv => ?_⟩
  rw [hf] at hv
  refine hbody.holds_of_closed (C := (· ∈ tagged)) (fun s hs => ?_) (fun u hu s hs => ?_) v hv
  · exact (h.firsts s hs).imp_right (Or.resolve_right · List.not_mem_nil)
  · exact (h.closed u hu s hs).imp_right (Or.resolve_right · List.not_mem_nil)

def inCase {n : Nat} (head : Fin n) (r : Role n) : Role n := { r with caseHead := some head }

theorem get_editAll_inCase (roles : Roles g.size) (head : g.Node) (tagged : List g.Node)
    (v : g.Node) : (roles.editAll tagged (inCase head)).get v =
      if v ∈ tagged then inCase head (roles.get v) else roles.get v := by
  have hagain (r : Role g.size) : inCase head (inCase head r) = inCase head r := rfl
  exact Roles.get_editAll hagain tagged v roles

theorem offered_editAll (tagged : List g.Node) (v : g.Node) :
    offered g k (roles.editAll tagged (inCase head)) head v = offered g k roles head v := by
  have hfollow : ((roles.editAll tagged (inCase head)).get v).follow = (roles.get v).follow := by
    rw [get_editAll_inCase]
    split
    · rfl
    · rfl
  rw [offered, offered, hfollow]

theorem exists_tagTurn (k : Numbering g.size) (roles : Roles g.size) (follow : Option g.Node)
    {v : g.Node} (hv : v ≠ head) (stack tagged seen : List g.Node) :
    ∃ new, Pushed follow (offered g k roles head v) seen new ∧
      tagTurn g k head follow (v :: stack, .on seen, roles.editAll tagged (inCase head)) =
        some (.again
          (new ++ stack, .on (new ++ seen), roles.editAll (tagged ++ [v]) (inCase head))) := by
  obtain ⟨new, hnew, hfold⟩ := exists_pushed follow (offered g k roles head v) stack seen
  have htag : tagNode head v (roles.editAll tagged (inCase head)) =
      roles.editAll (tagged ++ [v]) (inCase head) := by
    rw [tagNode, if_pos hv, Roles.editAll, Roles.editAll, List.foldl_append]
    rfl
  refine ⟨new, hnew, ?_⟩
  rw [tagTurn_cons, htag]
  dsimp only
  rw [offered_editAll, hfold]

/-- The body of a switch is tagged, and its nodes are marked with its head. -/
theorem tag_eq (roles : Roles g.size) (head : g.Node) (follow : Option g.Node)
    (found : List g.Node) :
    tag g k head follow roles (.on found) =
      some (roles.editAll (Conditionals.body g k roles head follow found).1 (inCase head),
        .on (Conditionals.body g k roles head follow found).2) := by
  obtain ⟨new, hnew, hfold⟩ := exists_pushed follow (offered g k roles head head) []
    (head :: found)
  rw [List.append_nil] at hfold
  have hfirst : tagTurn g k head follow ([head], .on (head :: found), roles) =
      some (.again (new, .on (new ++ head :: found), roles)) := by
    have hhead : tagNode head head roles = roles := if_neg fun h => h rfl
    rw [tagTurn_cons, hhead]
    dsimp only
    rw [hfold]
  rw [tag, Marks.add_on, untilDone_again hfirst]
  suffices hends : ∀ s : List g.Node × Marks g.size × Roles g.size,
      (∃ tagged, Tagging g k roles head follow found s.1 tagged ∧
        s.2 = (.on (tagged ++ s.1 ++ head :: found), roles.editAll tagged (inCase head))) →
      ∃ answer, untilDone (tagTurn g k head follow) s = some answer ∧
        answer = (roles.editAll (Conditionals.body g k roles head follow found).1 (inCase head),
          .on (Conditionals.body g k roles head follow found).2) by
    obtain ⟨_, hdone, rfl⟩ :=
      hends (new, .on (new ++ head :: found), roles) ⟨[], tagging_firsts hnew, rfl⟩
    exact hdone
  -- nodes are marked when they are put on the stack, so a turn takes one off for good
  refine exists_untilDone Nat.lt_wfRel.wf (fun s => unmarked s.2.1 + s.1.length) ?_
  rintro ⟨stack, _, _⟩ ⟨tagged, h, hs⟩
  dsimp only at h hs
  obtain ⟨rfl, rfl⟩ := Prod.mk.inj hs
  obtain ⟨f, hf, hbody⟩ := depthFirst_body k roles head follow found
  cases stack with
  | nil =>
    refine Or.inl ⟨_, rfl, Prod.ext ?_ (Marks.on_congr fun v => ?_)⟩
    · refine ext_get fun v => ?_
      simp only [get_editAll_inCase, h.mem_iff]
    · rw [hbody.mem_seen, List.append_nil, List.mem_append, h.mem_iff, hf]
  | cons v stack =>
    have hne : v ≠ head := fun heq =>
      hbody.fresh (hf ▸ h.inside v (Or.inr List.mem_cons_self)) (heq ▸ List.mem_cons_self)
    obtain ⟨new, hnew, hturn⟩ :=
      exists_tagTurn k roles follow hne stack tagged (tagged ++ v :: stack ++ head :: found)
    refine Or.inr ⟨_, hturn, ⟨_, h.turn hnew, ?_⟩, ?_⟩
    · refine Prod.ext (Marks.on_congr fun s => ?_) rfl
      simp only [List.mem_append, List.mem_cons, List.not_mem_nil]
      tauto
    · have hfewer := hnew.fewer
      show unmarked (.on (new ++ (tagged ++ v :: stack ++ head :: found))) + (new ++ stack).length <
        unmarked (.on (tagged ++ v :: stack ++ head :: found)) + (v :: stack).length
      rw [List.length_append, List.length_cons]
      omega

end

/-! ## Every conditional -/

/-- A node with a choice is classified, and marks stay on the nodes that were found. -/
theorem classifyConditional_eq {links : PostDominators g.size} {v : g.Node}
    (hv : 2 ≤ (g.next v).length) (roles : Roles g.size) (found : List g.Node) :
    classifyConditional g k links (roles, .on found) v =
      some ((Conditionals.classifyOne g k links (roles, found) v).1,
        .on (Conditionals.classifyOne g k links (roles, found) v).2) := by
  have hchoice : ¬ (g.next v).length ≤ 1 := by omega
  rw [classifyConditional, if_neg hchoice, Conditionals.classifyOne]
  split
  · rw [shape_eq hv]
    rfl
  · dsimp only
    rw [shape_eq hv, Roles.edit_edit]
    simp only [Option.bind_eq_bind, Option.bind_some, Roles.get_edit, if_true,
      Option.some.injEq]
    split
    · rw [tag_eq]
      rfl
    · rfl

theorem conditionals_eq (links : PostDominators g.size) :
    conditionals g k links = some (Conditionals.classify g k links) := by
  let view (state : Roles g.size × List g.Node) : Roles g.size × Marks g.size :=
    (state.1, .on state.2)
  have hstep (state : Roles g.size × List g.Node) (v : g.Node) :
      classifyConditional g k links (view state) v = some (view
        (if g.isConditional v = true then Conditionals.classifyOne g k links state v
        else state)) := by
    by_cases hv : 2 ≤ (g.next v).length
    · rw [if_pos (NodeGraph.isConditional_iff.2 hv)]
      exact classifyConditional_eq hv state.1 state.2
    · rw [if_neg (mt NodeGraph.isConditional_iff.1 hv)]
      exact if_pos (by omega)
  have hrun := (eachOrdered_eq k view (fun _ => True)
    (fun state v _ => ⟨hstep state v, trivial⟩)
    (.replicate g.size (.plain g.size), []) trivial).1
  rw [conditionals, Marks.clear_eq_on, Conditionals.classify, List.foldl_filter]
  exact congrArg (Option.bind · fun state => some state.1) hrun

end Recovery.Indexed
