import Mathlib.Logic.Function.Iterate
import Recovery.ControlFlow.DominatorLoop
import Recovery.Proofs.ControlFlow.Dominance
import Recovery.Proofs.Loop
/-
  The loops that compute dominators end.

  Three loops have no bound in their text, and each is answered by another fact
  about the table of links.

    1. A climb ends where its two places meet, never stranded, if both are linked
       in a tree (`climb_eq`): the later of two places is not the root.
    2. The passes end (`exists_settledLinks`). Whatever state they come by, the
       table is the half-done one of some pass over sound links (`InPass`), so it
       is a tree, and a place that gets another link gets an earlier one. What
       falls from turn to turn is the weight of the table, then whether a change
       has been seen, then the number of places ahead.
    3. A list of dominators goes up a chain of the tree (`untilDone_listTurn`).

  The passes end where `DominatorLinks.compute` does: both are reached from the
  first table by whole passes, and neither is changed by another one.
-/

namespace Recovery.DominatorLoop
open DominatorLinks
variable {n : Nat} {links : DominatorLinks n} {preds : Fin n → List (Fin n)} {root : Fin n}

/-! ## Climbing -/

/-- Two linked places of a tree climb to where they meet. -/
theorem climb_eq (t : links.IsTree root) (a b : Fin n) (ha : links.Linked a)
    (hb : links.Linked b) : climb links a b = some (.met (links.meet a b)) := by
  fun_induction meet links a b with
  | case1 a =>
    refine untilDone_done ?_
    rw [climbTurn, if_pos rfl]
  | case2 a b hab hba d hl hd ih =>
    have hturn : climbTurn links (a, b) = some (.again (d, b)) := by
      simp only [climbTurn, hab, hba, hl, Fin.ne_of_lt hd, if_true, if_false]
    exact (untilDone_again hturn).trans (ih (t.link_linked hl) hb)
  | case3 a b hab hba d hl hd => exact absurd (t.link_lt_of_lt hb hba hl) hd
  | case4 a b hab hba hl =>
    obtain ⟨d, hl'⟩ := ha
    simp [hl] at hl'
  | case5 a b hab hba d hl hd ih =>
    have hturn : climbTurn links (a, b) = some (.again (a, d)) := by
      simp only [climbTurn, hab, hba, hl, Fin.ne_of_lt hd, if_false]
    exact (untilDone_again hturn).trans (ih ha (t.link_linked hl))
  | case6 a b hab hba d hl hd => exact absurd (t.link_lt_of_lt ha (by omega) hl) hd
  | case7 a b hab hba hl =>
    obtain ⟨d, hl'⟩ := hb
    simp [hl] at hl'

theorem exists_foldlM_climbNext (t : links.IsTree root) (rest : List (Fin n)) :
    ∀ first ends, links.Linked first → (∀ p ∈ rest, links.Linked p) →
      ∃ more, rest.foldlM (climbNext links) (first, ends) =
          some (rest.foldl links.meet first, ends ++ more) ∧
        more.length = rest.length ∧ ∀ c ∈ more, ∃ p, c = .met p := by
  induction rest with
  | nil => exact fun first ends _ _ => ⟨[], by simp⟩
  | cons p rest ih =>
    intro first ends hf hr
    have hp := hr p List.mem_cons_self
    have hm := (t.mem_chain_meet first p hf hp).1
    obtain ⟨more, hrun, hlength, hmet⟩ := ih (links.meet first p)
      (ends ++ [.met (links.meet first p)]) hm fun q hq => hr q (List.mem_cons_of_mem _ hq)
    have hstep : climbNext links (first, ends) p =
        some (links.meet first p, ends ++ [.met (links.meet first p)]) := by
      rw [climbNext, climb_eq t first p hf hp]
      rfl
    refine ⟨.met (links.meet first p) :: more, ?_, by rw [List.length_cons, hlength,
      List.length_cons], List.forall_mem_cons.2 ⟨⟨_, rfl⟩, hmet⟩⟩
    rw [List.foldlM_cons, hstep, List.foldl_cons]
    exact hrun.trans (by rw [List.append_assoc, List.singleton_append])

theorem linked_of_mem_linkedPreds {i p : Fin n} (h : p ∈ linkedPreds preds links i) :
    links.Linked p :=
  isSome_iff_linked.1 (List.mem_filter.1 h).2

theorem exists_climbAll (t : links.IsTree root) {i first : Fin n} {rest : List (Fin n)}
    (h : linkedPreds preds links i = first :: rest) :
    ∃ ends, climbAll links first rest = some (rest.foldl links.meet first, ends) ∧
      ends.length = rest.length ∧ ∀ c ∈ ends, ∃ p, c = .met p := by
  have hall : ∀ p ∈ first :: rest, links.Linked p :=
    fun p hp => linked_of_mem_linkedPreds (h ▸ hp)
  exact exists_foldlM_climbNext t rest first [] (hall first List.mem_cons_self)
    fun p hp => hall p (List.mem_cons_of_mem _ hp)

/-! ## Turns -/

theorem exists_newLink (preds : Fin n → List (Fin n)) (t : links.IsTree root) (i : Fin n) :
    (newLink preds root links i = some none ∧ relink preds root links i = links) ∨
    ∃ m, newLink preds root links i = some (some m) ∧
      relink preds root links i = links.set i (some m) i.isLt := by
  unfold newLink relink
  by_cases hi : i = root
  · exact Or.inl ⟨if_pos hi, if_pos hi⟩
  · rw [if_neg hi, if_neg hi]
    rcases hp : linkedPreds preds links i with _ | ⟨first, rest⟩
    · rw [linkedPreds] at hp
      exact Or.inl ⟨rfl, by rw [hp]⟩
    · obtain ⟨ends, hclimb, -, -⟩ := exists_climbAll t hp
      rw [linkedPreds] at hp
      refine Or.inr ⟨rest.foldl links.meet first, ?_, by rw [hp]⟩
      simp only [hclimb, Option.map_some]

/-- A turn at a place relinks it, and takes note if that makes a difference. -/
theorem passTurn_eq {s : Passing n} (t : s.links.IsTree root) {i : Fin n} (hi : s.place = i) :
    passTurn preds root s = some (.again ⟨relink preds root s.links i, s.place + 1,
      s.changed || decide (relink preds root s.links i ≠ s.links)⟩) := by
  obtain ⟨links, place, changed⟩ := s
  obtain rfl : place = i := hi
  rw [passTurn, dif_pos i.isLt]
  rcases exists_newLink preds t i with ⟨hnew, hre⟩ | ⟨m, hnew, hre⟩
  · simp [hnew, hre, Passing.next]
  · by_cases hm : links.get i = some m
    · have hsame : links.set i (some m) i.isLt = links := ext_get fun j => by
        rw [get_set]
        split
        · next hj => rw [← hj, hm]
        · rfl
      simp [hnew, hre, hsame, hm, Passing.next]
    · have hother : links.set i (some m) i.isLt ≠ links := fun h => hm (by
        rw [← h, get_set, if_pos rfl])
      simp [hnew, hre, hm, hother]

/-! ## Passes -/

section
variable {old : DominatorLinks n} {parent : Fin n → Fin n} {k : Nat} {s : Passing n}

theorem sound_iterate (A : Ascending preds root parent) (k : Nat) :
    Sound preds root parent ((pass preds root)^[k] (.start root)) := by
  induction k with
  | zero => exact sound_start
  | succ k ih =>
    rw [Function.iterate_succ_apply']
    exact ih.pass A

theorem exists_iterate_settle (preds : Fin n → List (Fin n)) (root : Fin n) (passes : Nat) :
    ∀ links, ∃ k, settle preds root passes links = (pass preds root)^[k] links := by
  induction passes with
  | zero => exact fun _ => ⟨0, rfl⟩
  | succ passes ih =>
    intro links
    rw [settle]
    split
    · exact ⟨0, rfl⟩
    · obtain ⟨k, hk⟩ := ih (pass preds root links)
      exact ⟨k + 1, by rw [Function.iterate_succ_apply, hk]⟩

theorem iterate_eq_of_fixed {α : Type} {f : α → α} {x : α} {k m : Nat} (hk : f (f^[k] x) = f^[k] x)
    (hm : f (f^[m] x) = f^[m] x) : f^[k] x = f^[m] x := by
  rcases Nat.le_total k m with h | h
  · rw [← Nat.sub_add_cancel h, Function.iterate_add_apply, Function.iterate_fixed hk]
  · rw [← Nat.sub_add_cancel h, Function.iterate_add_apply, Function.iterate_fixed hm]

theorem iterate_eq_compute (A : Ascending preds root parent)
    (h : pass preds root ((pass preds root)^[k] (.start root)) =
      (pass preds root)^[k] (.start root)) :
    (pass preds root)^[k] (.start root) = compute preds root := by
  obtain ⟨m, hm⟩ := exists_iterate_settle preds root (n * (n + 1) + 1) (.start root)
  have hfixed := (compute_sound A).2
  rw [compute, hm] at hfixed ⊢
  exact iterate_eq_of_fixed h hfixed

theorem depth_relink_le (A : Ascending preds root parent) (S : Sound preds root parent old)
    (i j : Fin n) :
    (relink preds root (mixed (pass preds root old) old i) i).depth j ≤
      (mixed (pass preds root old) old i).depth j := by
  by_cases hji : j = i
  · subst hji
    have h := depth_pass_le A S j
    unfold depth at h ⊢
    rwa [← get_pass, get_mixed, if_neg (Fin.lt_irrefl j)]
  · unfold depth
    rw [get_relink_of_ne hji]

/-- Where the passes are: so many are done, and this one has gone as far as its place. -/
structure InPass (preds : Fin n → List (Fin n)) (root : Fin n) (k : Nat) (s : Passing n) :
    Prop where
  place_le : s.place ≤ n
  links_eq : s.links = ((List.finRange n).take s.place).foldl (relink preds root)
    ((pass preds root)^[k] (.start root))
  unchanged : s.changed = false → s.links = (pass preds root)^[k] (.start root)

namespace InPass

theorem start : InPass preds root 0 (.start root) :=
  ⟨Nat.zero_le n, rfl, fun _ => rfl⟩

theorem links_mixed (h : InPass preds root k s) {i : Fin n} (hi : s.place = i) :
    s.links = mixed (pass preds root ((pass preds root)^[k] (.start root)))
      ((pass preds root)^[k] (.start root)) i := by
  rw [h.links_eq, hi, foldl_relink_take]

theorem links_pass (h : InPass preds root k s) (hn : s.place = n) :
    s.links = pass preds root ((pass preds root)^[k] (.start root)) := by
  rw [h.links_eq, hn, List.take_of_length_le (by simp), DominatorLinks.pass]

theorem isTree (A : Ascending preds root parent) (h : InPass preds root k s) :
    s.links.IsTree root ∧ ∀ i, s.links.Linked i → Reaches (Edge preds) root i := by
  have S := sound_iterate A k
  rcases Nat.lt_or_eq_of_le h.place_le with hlt | hn
  · rw [h.links_mixed (i := ⟨s.place, hlt⟩) rfl]
    refine ⟨isTree_mixed A S (get_pass_root S) fun j _ => renewed A S j, fun i hi => ?_⟩
    rw [linked_mixed_iff fun j _ => renewed A S j] at hi
    split at hi
    · exact hi
    · exact S.reached hi
  · rw [h.links_pass hn]
    exact ⟨(S.pass A).isTree A, fun i hi => (S.pass A).reached hi⟩

end InPass

/-- What falls from turn to turn. -/
def rank (s : Passing n) : Nat × Nat × Nat :=
  (s.links.weight, if s.changed then 1 else 0, n - s.place)

theorem InPass.again (A : Ascending preds root parent) (h : InPass preds root k s)
    (hlt : s.place < n) :
    ∃ t, passTurn preds root s = some (.again t) ∧ InPass preds root k t ∧
      Prod.Lex (· < ·) (Prod.Lex (· < ·) (· < ·)) (rank t) (rank s) := by
  have hi : s.place = (⟨s.place, hlt⟩ : Fin n) := rfl
  refine ⟨_, passTurn_eq (h.isTree A).1 hi, ⟨hlt, ?_, fun hc => ?_⟩, ?_⟩
  · have htake : (List.finRange n).take (s.place + 1) =
        (List.finRange n).take s.place ++ [⟨s.place, hlt⟩] := by
      rw [List.take_add_one, List.getElem?_eq_getElem (by simpa using hlt), List.getElem_finRange]
      rfl
    simp only [htake, List.foldl_append, ← h.links_eq, List.foldl_cons, List.foldl_nil]
  · simp only [Bool.or_eq_false_iff, decide_eq_false_iff_not, not_not] at hc
    exact hc.2.trans (h.unchanged hc.1)
  · by_cases hsame : relink preds root s.links ⟨s.place, hlt⟩ = s.links
    · simp only [rank, hsame, ne_eq, not_true_eq_false, decide_false, Bool.or_false]
      exact .right _ (.right _ (by omega))
    · refine .left _ _ (weight_lt_of_depth_le (fun j => ?_) hsame)
      rw [h.links_mixed hi]
      exact depth_relink_le A (sound_iterate A k) _ j

theorem InPass.turn_end (A : Ascending preds root parent) (h : InPass preds root k s)
    (hn : s.place = n) :
    (s.changed = false ∧ s.links = compute preds root ∧
      passTurn preds root s = some (.done s.links)) ∨
    ∃ t, passTurn preds root s = some (.again t) ∧ InPass preds root (k + 1) t ∧
      Prod.Lex (· < ·) (Prod.Lex (· < ·) (· < ·)) (rank t) (rank s) := by
  have hno : ¬ s.place < n := by omega
  cases hc : s.changed with
  | false =>
    have hold := h.unchanged hc
    refine Or.inl ⟨rfl, ?_, by simp [passTurn, hno, hc]⟩
    rw [hold]
    exact iterate_eq_compute A ((h.links_pass hn).symm.trans hold)
  | true =>
    refine Or.inr ⟨⟨s.links, 0, false⟩, by simp [passTurn, hno, hc],
      ⟨Nat.zero_le n, ?_, fun _ => ?_⟩, ?_⟩
    · rw [List.take_zero, List.foldl_nil, Function.iterate_succ_apply']
      exact h.links_pass hn
    · rw [Function.iterate_succ_apply']
      exact h.links_pass hn
    · simp only [rank, hc, Bool.false_eq_true, if_true, if_false]
      exact .right _ (.left _ _ Nat.zero_lt_one)

/-- Whatever state the passes come by is some way into a pass. -/
theorem exists_inPass (A : Ascending preds root parent)
    (h : Visits (passTurn preds root) (.start root) s) : ∃ k, InPass preds root k s := by
  induction h with
  | start => exact ⟨0, .start⟩
  | @next t u _ hturn ih =>
    obtain ⟨k, hk⟩ := ih
    rcases Nat.lt_or_eq_of_le hk.place_le with hlt | hn
    · obtain ⟨v, hv, hkv, -⟩ := hk.again A hlt
      obtain rfl : v = u := by simpa [hturn] using hv.symm
      exact ⟨k, hkv⟩
    · rcases hk.turn_end A hn with ⟨-, -, hdone⟩ | ⟨v, hv, hkv, -⟩
      · simp [hturn] at hdone
      · obtain rfl : v = u := by simpa [hturn] using hv.symm
        exact ⟨k + 1, hkv⟩

/-- The passes come to one that has changed nothing, and leave the settled links. -/
theorem exists_settledLinks (A : Ascending preds root parent) :
    settledLinks preds root = some (compute preds root) ∧
      ∃ s, Visits (passTurn preds root) (.start root) s ∧ s.place = n ∧ s.changed = false := by
  suffices hends : ∀ s, Visits (passTurn preds root) (.start root) s →
      ∃ links, untilDone (passTurn preds root) s = some links ∧ links = compute preds root ∧
        ∃ s, Visits (passTurn preds root) (.start root) s ∧ s.place = n ∧ s.changed = false by
    obtain ⟨links, hlinks, rfl, hlast⟩ := hends (.start root) .start
    exact ⟨hlinks, hlast⟩
  refine exists_untilDone (Prod.lex Nat.lt_wfRel (Prod.lex Nat.lt_wfRel Nat.lt_wfRel)).wf rank
    fun s hs => ?_
  obtain ⟨k, hk⟩ := exists_inPass A hs
  rcases Nat.lt_or_eq_of_le hk.place_le with hlt | hn
  · obtain ⟨t, ht, -, hrank⟩ := hk.again A hlt
    exact Or.inr ⟨t, ht, hs.next ht, hrank⟩
  · rcases hk.turn_end A hn with ⟨hc, hsettled, hdone⟩ | ⟨t, ht, -, hrank⟩
    · exact Or.inl ⟨_, hdone, hsettled, s, hs, hn, hc⟩
    · exact Or.inr ⟨t, ht, hs.next ht, hrank⟩

end

/-! ## The tree of a graph -/

section
variable {g : Graph} {root : g.Place}

theorem link?_blockAt {links : DominatorLinks g.reversePostOrder.length} (i : g.Place) :
    link? ⟨g.reversePostOrder, links⟩ (g.blockAt i) = (links.get i).map g.blockAt := by
  have hplace : g.reversePostOrder.finIdxOf? (g.blockAt i) = some i := Graph.place_eq_some_iff.2 rfl
  rw [link?]
  simp only [hplace, Option.bind_some]
  rfl

theorem untilDone_listTurn {links : DominatorLinks g.reversePostOrder.length}
    (t : links.IsTree root) (i : g.Place) :
    ∀ listed, untilDone (listTurn ⟨g.reversePostOrder, links⟩)
        (g.blockAt i, listed ++ [g.blockAt i]) =
      some (listed ++ (links.chain i).map g.blockAt) := by
  induction i using upwards with
  | step i ih =>
    intro listed
    have stops (h : (links.get i).map g.blockAt = none ∨ links.get i = some i) :
        listTurn ⟨g.reversePostOrder, links⟩ (g.blockAt i, listed ++ [g.blockAt i]) =
          some (.done (listed ++ [g.blockAt i])) := by
      rw [listTurn, link?_blockAt]
      rcases h with h | h <;> simp [h, Option.filter]
    rw [chain]
    cases hl : links.get i with
    | none => exact untilDone_done (stops (Or.inl (by rw [hl]; rfl)))
    | some d =>
      by_cases hd : d < i
      · have hne : g.blockAt d ≠ g.blockAt i := fun h =>
          Fin.ne_of_lt hd (Graph.blockAt_injective h)
        have hturn : listTurn ⟨g.reversePostOrder, links⟩ (g.blockAt i, listed ++ [g.blockAt i]) =
            some (.again (g.blockAt d, listed ++ [g.blockAt i] ++ [g.blockAt d])) := by
          rw [listTurn, link?_blockAt, hl]
          simp [hne, Option.filter]
        rw [untilDone_again hturn, ih d hd]
        simp [hd]
      · -- only the root does not link up, and it links to itself
        obtain rfl : i = root := by
          by_contra hr
          exact hd (t.link_lt hl hr)
        rw [untilDone_done (stops (Or.inr t.root_link))]
        simp [hd]

theorem tree_eq (hroot : g.blockAt root = g.entry) :
    tree g = (settledLinks g.entries root).map fun links => ⟨g.reversePostOrder, links⟩ := by
  rw [tree]
  simp only [Graph.place_eq_some_iff.2 hroot, Option.map_eq_bind]
  rfl

theorem ascending_of_root (hroot : g.blockAt root = g.entry) :
    ∃ parent, Ascending g.entries root parent :=
  Graph.ascending_entries (Graph.hasBlock_iff.2 (hroot ▸ Graph.blockAt_mem root)) hroot

theorem dominators_ofGraph (g : Graph) (b : BlockId) :
    dominators (.ofGraph g) b = some ((DominatorTree.ofGraph g).dominators b) := by
  by_cases hentry : g.entry ∈ g.blockIds
  · obtain ⟨root, hroot⟩ := Graph.exists_place hentry
    by_cases hb : b ∈ g.blockIds
    · obtain ⟨i, rfl⟩ := Graph.exists_place hb
      rw [DominatorTree.dominators_blockAt hroot, DominatorTree.ofGraph_eq hroot]
      exact untilDone_listTurn
        (DominatorTree.isTree_compute (Graph.hasBlock_iff.2 hentry) hroot) i []
    · have hnone : g.reversePostOrder.finIdxOf? b = none := by
        rw [List.finIdxOf?_eq_none_iff, Graph.mem_reversePostOrder]
        exact hb
      rw [DominatorTree.ofGraph_eq hroot, DominatorTree.dominators, dominators]
      simp only [hnone]
      exact untilDone_done (by simp [listTurn, link?, hnone])
  · have hnone : g.reversePostOrder.finIdxOf? g.entry = none := by
      rw [List.finIdxOf?_eq_none_iff, Graph.mem_reversePostOrder]
      exact hentry
    have hempty : DominatorTree.ofGraph g = .empty := by
      rw [DominatorTree.ofGraph]
      simp only [hnone]
    rw [hempty]
    exact untilDone_done rfl

theorem tree_eq_ofGraph (g : Graph) : tree g = some (.ofGraph g) := by
  cases hplace : g.reversePostOrder.finIdxOf? g.entry with
  | none =>
    rw [tree, DominatorTree.ofGraph]
    simp only [hplace]
  | some root =>
    have hroot : g.blockAt root = g.entry := Graph.place_eq_some_iff.1 hplace
    obtain ⟨parent, A⟩ := ascending_of_root hroot
    rw [tree_eq hroot, (exists_settledLinks A).1, DominatorTree.ofGraph_eq hroot]
    rfl

end

/-- **Termination.** The dominators of any graph are computed, whatever its edges are: the
passes come to one that has changed nothing, and the list of dominators of every block ends.
Whatever state the passes come by, a link leads from a block the entry reaches, for any but the
entry to an earlier place that is not before the entry's, and climbs from the linked
predecessors of a place all meet. -/
theorem tree_settles (g : Graph) :
    tree g = some (.ofGraph g) ∧
    (∀ b, dominators (.ofGraph g) b = some ((DominatorTree.ofGraph g).dominators b)) ∧
    ∀ root : g.Place, g.blockAt root = g.entry →
      (∃ s, Visits (passTurn g.entries root) (.start root) s ∧
        s.place = g.reversePostOrder.length ∧ s.changed = false) ∧
      ∀ s, Visits (passTurn g.entries root) (.start root) s →
        (∀ i d, s.links.get i = some d →
          g.Reached (g.blockAt i) ∧ (i ≠ root → root ≤ d ∧ d < i)) ∧
        ∀ i first rest, linkedPreds g.entries s.links i = first :: rest →
          ∃ m ends, climbAll s.links first rest = some (m, ends) ∧
            ends.length = rest.length ∧ ∀ c ∈ ends, ∃ p, c = .met p := by
  refine ⟨tree_eq_ofGraph g, dominators_ofGraph g, fun root hroot => ?_⟩
  obtain ⟨parent, A⟩ := ascending_of_root hroot
  refine ⟨(exists_settledLinks A).2, fun s hs => ?_⟩
  obtain ⟨k, hk⟩ := exists_inPass A hs
  obtain ⟨t, hreached⟩ := hk.isTree A
  refine ⟨fun i d hl => ⟨?_, fun hi => ⟨t.root_le (t.link_linked hl), t.link_lt hl hi⟩⟩,
    fun i first rest hp => ?_⟩
  · rw [Graph.Reached, ← hroot]
    exact Graph.reaches_place.1 (hreached i ⟨d, hl⟩)
  · obtain ⟨ends, hclimb, hends⟩ := exists_climbAll t hp
    exact ⟨_, ends, hclimb, hends⟩

/-- A cycle that the entry enters on either side, one of them by way of a step, with an edge
back into the entry, an edge from a block the entry does not reach, and an edge to a block that
was never added. -/
def lateCycle : Graph :=
  ((((((Graph.empty 0 9).addBlock (.empty 0 "entry")).addBlock (.empty 1 "step")).addBlock
    (.empty 2 "left")).addBlock (.empty 3 "right")).addBlock (.empty 4 "apart")).addEdge 0 1
    |>.addEdge 1 2 |>.addEdge 2 3 |>.addEdge 0 3 |>.addEdge 3 2 |>.addEdge 3 0 |>.addEdge 4 2
    |>.addEdge 2 9

/-- The entry has the second place there, after the block it does not reach. The first pass
links the left side to the step, which only the second one finds not to dominate it. -/
theorem tree_settles_lateCycle :
    lateCycle.reversePostOrder = [4, 0, 1, 2, 3] ∧
    tree lateCycle = some (.ofGraph lateCycle) ∧
    dominators (.ofGraph lateCycle) 2 = some [2, 0] ∧
    dominators (.ofGraph lateCycle) 4 = some [4] ∧
    ∃ root : lateCycle.Place, lateCycle.blockAt root = lateCycle.entry ∧
      ((pass lateCycle.entries root (.start root)).map (·.map Fin.val)).toList =
        [none, some 1, some 1, some 2, some 1] ∧
      ∃ s, Visits (passTurn lateCycle.entries root) (.start root) s ∧
        s.place = lateCycle.reversePostOrder.length ∧ s.changed = false := by
  obtain ⟨htree, hlist, hpasses⟩ := tree_settles lateCycle
  have hroot : lateCycle.blockAt ⟨1, by decide +kernel⟩ = lateCycle.entry := by decide +kernel
  refine ⟨by decide +kernel, htree, ?_, ?_, _, hroot, by decide +kernel, (hpasses _ hroot).1⟩
  · rw [hlist]
    decide +kernel
  · rw [hlist]
    decide +kernel

end Recovery.DominatorLoop
