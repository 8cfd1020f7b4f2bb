import Recovery.Proofs.Runs
import Recovery.Proofs.Structure.PostDominators
/-
  Every step of the passes over the links.

  The three passes are one run of intakes (`compute_eq_foldl`): a node takes in one
  successor after the other, first those above it, then all of them, then all of
  them once more through back edges. This module follows the run from intake to intake
  where every node leads to the exit and the exit leads nowhere.

    1. Before the first pass comes to a node it has been to every node above, so
       these have links (`Running.ready`); from the second pass on all nodes but the
       exit have one. Chains that start high enough end at the exit for that reason.
    2. An intake with two such chains settles where they meet, in no more steps than
       twice the number of nodes, and leaves a link that rises (`exists_take`).
    3. So links rise at every moment and the exit never gets one (`Running`), and no limit
       from there on makes a difference (`linksAfter_eq`).

  `StructuredProcedure.chains_reach_exit` puts it together for a procedure.
-/

namespace Recovery.PostDominators

/-! ## The run of intakes -/

/-- A node that takes in one of its successors; in the last pass it looks through back edges. -/
structure Intake (n : Nat) where
  node : Fin n
  successor : Fin n
  through : Bool

namespace Intake
variable {n : Nat}

/-- The places an intake walks up from: the link of its node, and its successor or, where a
back edge is looked through, the link of its successor. -/
def sides (k : Numbering n) (links : PostDominators n) (t : Intake n) :
    Option (Fin n) × Option (Fin n) :=
  match links.get t.successor, links.get t.node with
  | some sp, some np =>
    if t.through && (k.isBackEdge t.node t.successor && decide (k.order.get sp < k.order.get np))
    then (some sp, some np) else (some np, some t.successor)
  | _, own => (own, some t.successor)

/-- The links after an intake. -/
def take (k : Numbering n) (limit : Nat) (links : PostDominators n) (t : Intake n) :
    PostDominators n :=
  links.set t.node (meet k limit links (t.sides k links).1 (t.sides k links).2) t.node.isLt

/-- Whether the walk of an intake ends at a node before its steps run out, if it has a walk
to take. -/
def Settles (k : Numbering n) (limit : Nat) (links : PostDominators n) (t : Intake n) : Prop :=
  ∀ a b, t.sides k links = (some a, some b) →
    ∃ c, walk k links limit (some a) (some b) = .settled (some c)

theorem sides_cases (k : Numbering n) (links : PostDominators n) (t : Intake n) :
    t.sides k links = (links.get t.node, some t.successor) ∨
      ∃ sp np, links.get t.successor = some sp ∧ links.get t.node = some np ∧
        t.sides k links = (some sp, some np) := by
  rw [sides]
  cases hsp : links.get t.successor with
  | none => exact Or.inl rfl
  | some sp =>
    cases hnp : links.get t.node with
    | none => exact Or.inl rfl
    | some np =>
      dsimp only
      split
      · exact Or.inr ⟨sp, np, rfl, rfl, rfl⟩
      · exact Or.inl rfl

theorem take_eq_join (k : Numbering n) (limit : Nat) (links : PostDominators n) (v s : Fin n) :
    take k limit links ⟨v, s, false⟩ = join k limit v links s := by
  have hsides : sides k links ⟨v, s, false⟩ = (links.get v, some s) := by
    simp only [sides, Bool.false_and, Bool.false_eq_true, if_false]
    split <;> simp [*]
  rw [take, hsides, join]

theorem take_eq_joinThrough (k : Numbering n) (limit : Nat) (links : PostDominators n)
    (v s : Fin n) : take k limit links ⟨v, s, true⟩ = joinThrough k limit v links s := by
  rw [take, sides, joinThrough]
  cases links.get s with
  | none => rfl
  | some sp =>
    cases links.get v with
    | none => rfl
    | some np =>
      simp only [Bool.true_and]
      by_cases hback : (k.isBackEdge v s && decide (k.order.get sp < k.order.get np)) = true
      · simp only [if_pos hback]
      · simp only [if_neg hback]

end Intake

/-- The intakes of the first pass: each node takes in its successors above it, the highest
node first. -/
def ascents (g : NodeGraph) (k : Numbering g.size) : List (Intake g.size) :=
  k.revOrdering.reverse.flatMap fun v =>
    ((g.next v).filter fun s => k.revOrder.get v < k.revOrder.get s).map (⟨v, ·, false⟩)

/-- The intakes of a later pass: each conditional takes in all its successors. -/
def choices (g : NodeGraph) (k : Numbering g.size) (through : Bool) : List (Intake g.size) :=
  (k.ordering.filter g.isConditional).flatMap fun v => (g.next v).map (⟨v, ·, through⟩)

def intakes (g : NodeGraph) (k : Numbering g.size) : List (Intake g.size) :=
  ascents g k ++ (choices g k false ++ choices g k true)

/-- The links after some intakes. -/
def linksAfter {n : Nat} (k : Numbering n) (limit : Nat) (ts : List (Intake n)) :
    PostDominators n :=
  ts.foldl (Intake.take k limit) (unknown n)

section
variable {g : NodeGraph} {k : Numbering g.size} {limit : Nat} {links : PostDominators g.size}
  {x : g.Node} {t : Intake g.size} {done rest : List (Intake g.size)}

theorem compute_eq_foldl (g : NodeGraph) (k : Numbering g.size) (limit : Nat) :
    compute g k limit = linksAfter k limit (intakes g k) := by
  simp only [compute, branchThrough, branch, ascend, linksAfter, intakes, ascents, choices,
    List.foldl_append, List.foldl_flatMap, List.foldl_map, Intake.take_eq_join,
    Intake.take_eq_joinThrough]

theorem mem_next_of_mem_intakes (ht : t ∈ intakes g k) : t.successor ∈ g.next t.node := by
  simp only [intakes, ascents, choices, List.mem_append, List.mem_flatMap, List.mem_map,
    List.mem_filter] at ht
  rcases ht with ⟨v, -, s, ⟨hs, -⟩, rfl⟩ | ⟨v, -, s, hs, rfl⟩ | ⟨v, -, s, hs, rfl⟩
  · exact hs
  · exact hs
  · exact hs

/-! ## What each intake finds -/

theorem pairwise_ascents
    (hup : k.revOrdering.Pairwise fun u v => k.revOrder.get u < k.revOrder.get v) :
    (ascents g k).Pairwise fun t t' => k.revOrder.get t'.node ≤ k.revOrder.get t.node := by
  refine List.pairwise_flatMap.2 ⟨fun v _ => ?_, (List.pairwise_reverse.2 hup).imp ?_⟩
  · rw [List.pairwise_map]
    exact List.pairwise_of_forall fun _ _ => Nat.le_refl _
  · intro u v huv t ht t' ht'
    simp only [List.mem_map, List.mem_filter] at ht ht'
    obtain ⟨s, -, rfl⟩ := ht
    obtain ⟨s', -, rfl⟩ := ht'
    exact Nat.le_of_lt huv

theorem lt_of_mem_ascents (ht : t ∈ ascents g k) :
    k.revOrder.get t.node < k.revOrder.get t.successor := by
  simp only [ascents, List.mem_flatMap, List.mem_map, List.mem_filter, decide_eq_true_eq] at ht
  obtain ⟨v, -, s, ⟨-, hrise⟩, rfl⟩ := ht
  exact hrise

theorem exists_ascent (S : Summit g k x) (hall : ∀ v, v ∈ k.revOrdering) {u : g.Node}
    (hu : u ≠ x) : ∃ t ∈ ascents g k, t.node = u := by
  obtain ⟨s, hs, hrise⟩ := S.rise u hu
  refine ⟨⟨u, s, false⟩, ?_, rfl⟩
  simp only [ascents, List.mem_flatMap, List.mem_reverse, List.mem_map, List.mem_filter,
    decide_eq_true_eq]
  exact ⟨u, hall u, s, ⟨hs, hrise⟩, rfl⟩

/-- What an intake may rely on: the nodes from some number up have links, and both chains it
walks up start there; and a node that has no link yet takes in a successor above it. -/
structure Ready (k : Numbering g.size) (x : g.Node) (links : PostDominators g.size)
    (t : Intake g.size) : Prop where
  linked : ∃ m, (∀ u, m ≤ k.revOrder.get u → u ≠ x → ∃ w, links.get u = some w) ∧
    m ≤ k.revOrder.get t.successor ∧ m ≤ k.revOrder.get t.node + 1
  first : links.get t.node = none → k.revOrder.get t.node < k.revOrder.get t.successor

theorem exists_walk (S : Summit g k x) (hr : Rising k links) (hlimit : 2 * g.size ≤ limit)
    {m : Nat} (hlinked : ∀ u, m ≤ k.revOrder.get u → u ≠ x → ∃ w, links.get u = some w)
    {a b : g.Node} (ha : m ≤ k.revOrder.get a) (hb : m ≤ k.revOrder.get b) :
    ∃ c, walk k links limit (some a) (some b) = .settled (some c) ∧ Meets links a b c :=
  exists_walk_settled S.bound S.injective hr limit a b (climbs_summit S hr hlinked ha)
    (climbs_summit S hr hlinked hb) (by omega)

/-- An intake settles, and leaves its node a link that rises. -/
theorem exists_take (S : Summit g k x) (hr : Rising k links) (hlimit : 2 * g.size ≤ limit)
    (R : Ready k x links t) :
    t.Settles k limit links ∧
      ∃ c, Intake.take k limit links t = links.set t.node (some c) t.node.isLt ∧
        k.revOrder.get t.node < k.revOrder.get c := by
  obtain ⟨m, hlinked, hs, hv⟩ := R.linked
  simp only [Intake.Settles, Intake.take]
  rcases t.sides_cases k links with hsides | ⟨sp, np, hsp, hnp, hsides⟩
  · simp only [hsides]
    cases hown : links.get t.node with
    | none =>
      refine ⟨fun _ _ h => ?_, t.successor, rfl, R.first hown⟩
      cases h
    | some a =>
      have hva := hr _ a hown
      obtain ⟨c, hwalk, hmeet⟩ := exists_walk S hr hlimit hlinked (Nat.le_trans hv hva) hs
      refine ⟨fun _ _ h => ?_, c, by rw [meet, hwalk], ?_⟩
      · cases h
        exact ⟨c, hwalk⟩
      · exact Nat.lt_of_lt_of_le hva (hmeet.left.le hr)
  · -- both chains start above what the intake may rely on
    have hvn := hr _ np hnp
    have hsn := hr _ sp hsp
    obtain ⟨c, hwalk, hmeet⟩ := exists_walk S hr hlimit hlinked (a := sp) (b := np)
      (by omega) (by omega)
    simp only [hsides]
    refine ⟨fun _ _ h => ?_, c, by rw [meet, hwalk], ?_⟩
    · cases h
      exact ⟨c, hwalk⟩
    · exact Nat.lt_of_lt_of_le hvn (hmeet.right.le hr)

/-! ## The run -/

/-- What holds of the links when some intakes are done: they rise, the exit has none, and
every node that has had a turn has one. -/
structure Running (k : Numbering g.size) (x : g.Node) (done : List (Intake g.size))
    (links : PostDominators g.size) : Prop where
  rising : Rising k links
  exit : links.get x = none
  linked : ∀ t ∈ done, ∃ w, links.get t.node = some w

theorem ascents_split (hsplit : done ++ t :: rest = intakes g k) :
    (∃ later, ascents g k = done ++ t :: later) ∨ ∃ part, done = ascents g k ++ part := by
  rcases List.append_eq_append_iff.1 hsplit with ⟨later, hlater, hrest⟩ | ⟨part, hpart, -⟩
  · cases later with
    | nil => exact Or.inr ⟨[], by simp [hlater]⟩
    | cons t' later =>
      obtain ⟨rfl, -⟩ := List.cons.inj hrest
      exact Or.inl ⟨later, hlater⟩
  · exact Or.inr ⟨part, hpart⟩

namespace Running

/-- In the first pass all nodes above have had their turn, later all nodes but the exit. -/
theorem ready (S : Summit g k x) (hall : ∀ v, v ∈ k.revOrdering)
    (hup : k.revOrdering.Pairwise fun u v => k.revOrder.get u < k.revOrder.get v)
    (hsplit : done ++ t :: rest = intakes g k) (R : Running k x done links) :
    Ready k x links t := by
  rcases ascents_split hsplit with ⟨later, hascents⟩ | ⟨part, rfl⟩
  · have hrise : k.revOrder.get t.node < k.revOrder.get t.successor :=
      lt_of_mem_ascents (mem_of_split hascents.symm)
    have hdown := pairwise_ascents (g := g) hup
    rw [hascents, List.pairwise_append, List.pairwise_cons] at hdown
    refine ⟨⟨k.revOrder.get t.node + 1, fun u hu hux => ?_, hrise, Nat.le_refl _⟩, fun _ => hrise⟩
    obtain ⟨t', ht', rfl⟩ := exists_ascent S hall hux
    rw [hascents, List.mem_append, List.mem_cons] at ht'
    rcases ht' with ht' | rfl | ht'
    · exact R.linked t' ht'
    · omega
    · have := hdown.2.1.1 t' ht'
      omega
  · have hlinked (u : g.Node) (hu : u ≠ x) : ∃ w, links.get u = some w := by
      obtain ⟨t', ht', rfl⟩ := exists_ascent S hall hu
      exact R.linked t' (List.mem_append_left _ ht')
    refine ⟨⟨0, fun u _ => hlinked u, Nat.zero_le _, Nat.zero_le _⟩, fun hnone => ?_⟩
    obtain ⟨w, hw⟩ := hlinked t.node fun h => by
      have hs := mem_next_of_mem_intakes (mem_of_split hsplit)
      rw [h, S.next_nil] at hs
      cases hs
    rw [hw] at hnone
    cases hnone

theorem step (S : Summit g k x) (R : Running k x done links) {c : g.Node}
    (ht : t.successor ∈ g.next t.node) (hc : k.revOrder.get t.node < k.revOrder.get c) :
    Running k x (done ++ [t]) (links.set t.node (some c) t.node.isLt) := by
  have hx : t.node ≠ x := by
    intro h
    rw [h, S.next_nil] at ht
    cases ht
  refine ⟨fun u w hu => ?_, ?_, fun t' ht' => ?_⟩
  · rw [get_set] at hu
    split at hu
    · next hut =>
      cases hu
      exact hut ▸ hc
    · exact R.rising u w hu
  · rw [get_set, if_neg hx]
    exact R.exit
  · rw [get_set]
    split
    · exact ⟨c, rfl⟩
    · next hne =>
      rcases List.mem_append.1 ht' with ht' | ht'
      · exact R.linked t' ht'
      · simp_all

theorem foldl (S : Summit g k x) (hall : ∀ v, v ∈ k.revOrdering)
    (hup : k.revOrdering.Pairwise fun u v => k.revOrder.get u < k.revOrder.get v)
    (hlimit : 2 * g.size ≤ limit) (hsplit : done ++ rest = intakes g k) :
    Running k x done (linksAfter k limit done) := by
  refine foldl_along (motive := Running k x) done (fun before t after hdone links R => ?_) _ ?_
  · rw [← hdone, List.append_assoc, List.cons_append] at hsplit
    obtain ⟨-, c, htake, hc⟩ := exists_take S R.rising hlimit (R.ready S hall hup hsplit)
    rw [htake]
    exact R.step S (mem_next_of_mem_intakes (mem_of_split hsplit)) hc
  · have hnone (v : g.Node) : (unknown g.size).get v = none := get_replicate _ _
    refine ⟨fun v w h => ?_, hnone x, fun _ h => nomatch h⟩
    rw [hnone] at h
    cases h

end Running

/-- A walk that settles does so with every higher limit. -/
theorem walk_mono {n : Nat} {k : Numbering n} {links : PostDominators n} {place : Option (Fin n)}
    {steps : Nat} : ∀ {steps' : Nat} {a b : Option (Fin n)}, steps ≤ steps' →
    walk k links steps a b = .settled place → walk k links steps' a b = .settled place := by
  induction steps with
  | zero => exact fun _ h => nomatch h
  | succ steps ih =>
    intro steps' a b hle h
    obtain ⟨more, rfl⟩ : ∃ more, steps' = more + 1 := ⟨steps' - 1, by omega⟩
    have hle' : steps ≤ more := Nat.le_of_succ_le_succ hle
    rcases a with _ | a
    · exact h
    rcases b with _ | b
    · exact h
    rw [walk] at h ⊢
    split
    · next hab => rwa [if_pos hab] at h
    · next hab =>
      rw [if_neg hab] at h
      split
      · next hlt => exact ih hle' (by rwa [if_pos hlt] at h)
      · next hlt => exact ih hle' (by rwa [if_neg hlt] at h)

theorem Intake.Settles.take_eq {steps : Nat} (h : t.Settles k steps links) (hle : steps ≤ limit) :
    Intake.take k limit links t = Intake.take k steps links t := by
  rw [Intake.take, Intake.take]
  congr 1
  rcases hsides : t.sides k links with ⟨_ | a, b⟩
  · rfl
  · cases b with
    | none => rfl
    | some b =>
      obtain ⟨c, hc⟩ := h a b hsides
      rw [meet, meet, hc, walk_mono hle hc]

/-- No limit from twice the number of nodes on makes a difference to the links. -/
theorem linksAfter_eq (S : Summit g k x) (hall : ∀ v, v ∈ k.revOrdering)
    (hup : k.revOrdering.Pairwise fun u v => k.revOrder.get u < k.revOrder.get v)
    (hlimit : 2 * g.size ≤ limit) (hsplit : done ++ rest = intakes g k) :
    linksAfter k limit done = linksAfter k (2 * g.size) done := by
  -- from the last intake back, since what an intake finds is said of those before it
  induction done using List.reverseRecOn generalizing rest with
  | nil => rfl
  | append_singleton done t ih =>
    rw [List.append_assoc] at hsplit
    have R := Running.foldl S hall hup (Nat.le_refl _) hsplit
    have hsettles := (exists_take S R.rising (Nat.le_refl _) (R.ready S hall hup hsplit)).1
    simp only [linksAfter, List.foldl_append, List.foldl_cons, List.foldl_nil] at ih ⊢
    rw [ih hsplit]
    exact hsettles.take_eq hlimit

theorem compute_eq_compute (S : Summit g k x) (hall : ∀ v, v ∈ k.revOrdering)
    (hup : k.revOrdering.Pairwise fun u v => k.revOrder.get u < k.revOrder.get v)
    {limit limit' : Nat} (hlimit : 2 * g.size ≤ limit) (hlimit' : 2 * g.size ≤ limit') :
    compute g k limit = compute g k limit' := by
  have hsplit : intakes g k ++ [] = intakes g k := List.append_nil _
  rw [compute_eq_foldl, compute_eq_foldl, linksAfter_eq S hall hup hlimit hsplit,
    linksAfter_eq S hall hup hlimit' hsplit]

end
end PostDominators

/-! ## Procedures -/

namespace NumberedProcedure

/-- The links of a procedure lead to its exit: while they are found they rise, no walk gives
up, and in the end every node but the exit has one and its chain ends there. -/
structure LinksLeadToExit (p : NumberedProcedure) (limit : Nat) (last : BlockId) : Prop where
  found : p.postDominators =
    PostDominators.linksAfter p.numbering limit (PostDominators.intakes p.graph p.numbering)
  rising : ∀ done rest, done ++ rest = PostDominators.intakes p.graph p.numbering →
    PostDominators.Rising p.numbering (PostDominators.linksAfter p.numbering limit done)
  settles : ∀ done t rest, done ++ t :: rest = PostDominators.intakes p.graph p.numbering →
    t.Settles p.numbering limit (PostDominators.linksAfter p.numbering limit done)
  exit : ∀ n, p.graph.blockOf n = last → p.postDominators.get n = none
  linked : ∀ n, p.graph.blockOf n ≠ last → ∃ m, p.postDominators.get n = some m
  climbs : ∀ n, ∃ x, p.graph.blockOf x = last ∧ PostDominators.Climbs p.postDominators n x

end NumberedProcedure

namespace StructuredProcedure
open NumberedProcedure (tangled built_tangled)

/-- **Post-dominator chains lead to the exit.** When every block the entry reaches leads
to the exit, which leads nowhere, then with every limit from twice the number of nodes on
the links lead to the exit, and the structure is the same with each of these limits. -/
theorem chains_reach_exit (q : Procedure) (hbuilt : q.graph.Built)
    (hexit : ∀ b, q.graph.Reached b → Reaches (Along q.graph.flow) b q.graph.exit)
    (hstop : q.graph.flow q.graph.exit = []) (settings : Settings) :
    (q.graph.hasBlock q.graph.entry = true →
      ∃ p, NumberedProcedure.build q settings.walkLimit = .ok p) ∧
    ∀ p, NumberedProcedure.build q settings.walkLimit = .ok p →
      2 * p.graph.size ≤ settings.walkLimit →
      p.LinksLeadToExit settings.walkLimit q.graph.exit ∧
      ofProcedure q settings = .ok p.classify ∧
      ∀ settings' : Settings, 2 * p.graph.size ≤ settings'.walkLimit →
        ofProcedure q settings' = .ok p.classify := by
  refine ⟨fun hentry => ?_, fun p hbuild hlimit => ?_⟩
  · obtain ⟨p, hbuild, -⟩ := NumberedProcedure.exists_build q settings.walkLimit hbuilt hentry
    exact ⟨p, hbuild⟩
  obtain ⟨G, hG, D, rfl⟩ := NumberedProcedure.exists_of_build hbuilt hbuild
  obtain ⟨x, hx, hsome, hreach⟩ := D.exists_exit hexit
  have hnil : G.next x = [] := by
    rw [← List.map_eq_nil_iff (f := G.blockOf), D.map_next, hx, hstop]
  have S := PostDominators.summit D hsome hreach hnil
  have hall := Numbering.mem_revOrdering D
  have hup := Numbering.pairwise_revOrdering G
  have hrun {done rest : List (PostDominators.Intake G.size)}
      (hsplit : done ++ rest = PostDominators.intakes G (Numbering.ofNodeGraph G)) :=
    PostDominators.Running.foldl S hall hup hlimit hsplit
  have hend := hrun (List.append_nil _)
  rw [← PostDominators.compute_eq_foldl] at hend
  have hlinked (n : G.Node) (hn : n ≠ x) : ∃ m, (PostDominators.compute G
      (Numbering.ofNodeGraph G) settings.walkLimit).get n = some m := by
    obtain ⟨t, ht, rfl⟩ := PostDominators.exists_ascent S hall hn
    exact hend.linked t (List.mem_append_left _ ht)
  refine ⟨?_, ofProcedure_of_build hbuild, fun settings' hlimit' => ofProcedure_of_build ?_⟩
  · constructor
    case found => exact PostDominators.compute_eq_foldl _ _ _
    case rising => exact fun done rest hsplit => (hrun hsplit).rising
    case settles =>
      intro done t rest hsplit
      have R := hrun hsplit
      exact (PostDominators.exists_take S R.rising hlimit (R.ready S hall hup hsplit)).1
    case exit =>
      intro n hn
      rw [D.blockOf_injective (hn.trans hx.symm)]
      exact hend.exit
    case linked =>
      intro n hn
      refine hlinked n ?_
      rintro rfl
      exact hn hx
    case climbs =>
      exact fun n => ⟨x, hx,
        PostDominators.climbs_summit S hend.rising (fun u _ => hlinked u) (Nat.zero_le _)⟩
  · rw [NumberedProcedure.build, hG,
      PostDominators.compute_eq_compute S hall hup hlimit hlimit']

/-- The chains of two loops that share a block lead to its exit, and a limit of a hundred
gives the structure that a limit of twelve gives. -/
theorem chains_reach_exit_tangled :
    tangled.graph.Built ∧
      (∀ b, tangled.graph.Reached b → Reaches (Along tangled.graph.flow) b tangled.graph.exit) ∧
      tangled.graph.flow tangled.graph.exit = [] ∧
      ∃ p, NumberedProcedure.build tangled 12 = .ok p ∧ 2 * p.graph.size ≤ 12 ∧
        p.LinksLeadToExit 12 5 ∧
        ofProcedure tangled (Settings.sequential.withWalkLimit 12) = .ok p.classify ∧
        ofProcedure tangled (Settings.sequential.withWalkLimit 100) = .ok p.classify := by
  have hexit (b : BlockId) (hb : tangled.graph.Reached b) :
      Reaches (Along tangled.graph.flow) b tangled.graph.exit :=
    Graph.reaches_exit_of_rank ([2, 1, 3, 2, 1, 0].getD · 0) (by decide)
      (Graph.mem_blockIds_of_reaches hb (by decide))
  refine ⟨built_tangled, hexit, by decide, ?_⟩
  obtain ⟨p, hbuild, D, -⟩ := NumberedProcedure.exists_build tangled 12 built_tangled (by decide)
  have hsize : 2 * p.graph.size ≤ 12 := Nat.mul_le_mul_left 2 D.size_le
  obtain ⟨hlinks, hproc, hsame⟩ := (chains_reach_exit tangled built_tangled hexit (by decide)
    (Settings.sequential.withWalkLimit 12)).2 p hbuild hsize
  exact ⟨p, hbuild, hsize, hlinks, hproc, hsame (Settings.sequential.withWalkLimit 100)
    (Nat.le_trans hsize (by decide))⟩

end StructuredProcedure
end Recovery
