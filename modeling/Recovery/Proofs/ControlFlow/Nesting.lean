import Mathlib.Data.List.Nodup
import Recovery.Proofs.ControlFlow.Ancestry
/-
  How the stamps of a depth-first forest lie.

  Stamps count the steps of the walk around a forest. The walk enters and leaves
  every vertex once (`perm_events`), so they are the numbers from one to twice the
  number of vertices, none left out and none given twice (`perm_stamps`). It
  enters vertices in entering order and leaves them in leaving order, so either
  order sorts its vertices by one of their stamps (`pairwise_enter`,
  `pairwise_leave`).

  Of two vertices either one hangs below the other, or one of them is left before
  the other is entered (`below_or_apart`). Two intervals of stamps are nested or
  disjoint for that reason, and never overlap.
-/

namespace Recovery.Forest
variable {α : Type} {f : Forest α} {v w : α}

/-! ## The steps of the walk -/

theorem perm_events (f : Forest α) :
    f.events.Perm (f.preorder.flatMap fun v => [.enter v, .leave v]) := by
  induction f with
  | nil => exact .nil
  | node r c s ihc ihs =>
    rw [events, preorder, List.flatMap_cons, List.flatMap_append]
    show (Visit.enter r :: (c.events ++ .leave r :: s.events)).Perm (.enter r :: .leave r :: _)
    apply List.Perm.cons
    exact List.perm_middle.trans (.cons _ (ihc.append ihs))

theorem length_events (f : Forest α) : f.events.length = 2 * f.preorder.length := by
  induction f with
  | nil => rfl
  | node r c s ihc ihs =>
    simp only [events, preorder, List.length_cons, List.length_append]
    omega

theorem sublist_enter (f : Forest α) : (f.preorder.map .enter).Sublist f.events := by
  induction f with
  | nil => exact .slnil
  | node r c s ihc ihs =>
    rw [preorder, events, List.map_cons, List.map_append]
    exact (ihc.append (.cons _ ihs)).cons_cons _

theorem sublist_leave (f : Forest α) : (f.postorder.map .leave).Sublist f.events := by
  induction f with
  | nil => exact .slnil
  | node r c s ihc ihs =>
    rw [postorder, events, List.map_append, List.map_cons]
    exact .cons _ (ihc.append (ihs.cons_cons _))

theorem enter_leave_sublist (hv : v ∈ f.preorder) : [.enter v, .leave v].Sublist f.events := by
  induction f with
  | nil => cases hv
  | node r c s ihc ihs =>
    simp only [preorder, List.mem_cons, List.mem_append] at hv
    rw [events]
    rcases hv with rfl | hv | hv
    · apply List.Sublist.cons_cons
      apply List.singleton_sublist.2
      simp
    · exact .cons _ ((ihc hv).trans (List.sublist_append_left _ _))
    · exact .cons _ (((ihs hv).trans (List.sublist_cons_self _ _)).trans
        (List.sublist_append_right _ _))

/-- Of two vertices one hangs below the other, or one is left before the other is
entered. -/
theorem below_or_apart (hv : v ∈ f.preorder) (hw : w ∈ f.preorder) :
    v = w ∨ f.Below v w ∨ f.Below w v ∨ [.leave v, .enter w].Sublist f.events ∨
      [.leave w, .enter v].Sublist f.events := by
  induction f with
  | nil => cases hv
  | node r c s ihc ihs =>
    simp only [preorder, List.mem_cons, List.mem_append] at hv hw
    -- the tree of `r` is done before the walk comes to its siblings
    have hafter (e : Visit α) (he : e = .leave r ∨ e ∈ c.events) {x : α} (hx : x ∈ s.preorder) :
        [e, .enter x].Sublist (node r c s).events := by
      have hx' : [.enter x].Sublist s.events := List.singleton_sublist.2 ((s.mem_events x).1.2 hx)
      rw [events]
      apply List.Sublist.cons
      rcases he with rfl | he
      · exact (hx'.cons_cons _).trans (List.sublist_append_right _ _)
      · exact (List.singleton_sublist.2 he).append (.cons _ hx')
    have hchildren {l : List (Visit α)} (hl : l.Sublist c.events) :
        l.Sublist (node r c s).events := .cons _ (hl.trans (List.sublist_append_left _ _))
    have hsiblings {l : List (Visit α)} (hl : l.Sublist s.events) :
        l.Sublist (node r c s).events :=
      .cons _ ((hl.trans (List.sublist_cons_self _ _)).trans (List.sublist_append_right _ _))
    rcases hv with rfl | hv | hv
    · rcases hw with rfl | hw | hw
      · exact Or.inl rfl
      · exact Or.inr (Or.inl (.root hw))
      · exact Or.inr (Or.inr (Or.inr (Or.inl (hafter _ (Or.inl rfl) hw))))
    · rcases hw with rfl | hw | hw
      · exact Or.inr (Or.inr (Or.inl (.root hv)))
      · rcases ihc hv hw with h | h | h | h | h
        · exact Or.inl h
        · exact Or.inr (Or.inl (.child h))
        · exact Or.inr (Or.inr (Or.inl (.child h)))
        · exact Or.inr (Or.inr (Or.inr (Or.inl (hchildren h))))
        · exact Or.inr (Or.inr (Or.inr (Or.inr (hchildren h))))
      · have hleave := (c.mem_events v).2.2 hv
        exact Or.inr (Or.inr (Or.inr (Or.inl (hafter _ (Or.inr hleave) hw))))
    · rcases hw with rfl | hw | hw
      · exact Or.inr (Or.inr (Or.inr (Or.inr (hafter _ (Or.inl rfl) hv))))
      · have hleave := (c.mem_events w).2.2 hw
        exact Or.inr (Or.inr (Or.inr (Or.inr (hafter _ (Or.inr hleave) hv))))
      · rcases ihs hv hw with h | h | h | h | h
        · exact Or.inl h
        · exact Or.inr (Or.inl (.sibling h))
        · exact Or.inr (Or.inr (Or.inl (.sibling h)))
        · exact Or.inr (Or.inr (Or.inr (Or.inl (hsiblings h))))
        · exact Or.inr (Or.inr (Or.inr (Or.inr (hsiblings h))))

/-! ## The stamps -/

section
variable [DecidableEq α]

theorem map_idxOf {β : Type} [DecidableEq β] {l : List β} (hl : l.Nodup) :
    l.map l.idxOf = List.range l.length := by
  apply List.ext_getElem
  · simp
  · intro i hi _
    simp [hl.idxOf_getElem]

/-- The stamps of the vertices are the numbers from one to twice how many there are. -/
theorem perm_stamps (hf : f.preorder.Nodup) :
    (f.preorder.flatMap fun v => [(stampsIn f.events v).1, (stampsIn f.events v).2]).Perm
      (List.range' 1 (2 * f.preorder.length)) := by
  have hcount : f.events.map (fun e => f.events.idxOf e + 1) =
      List.range' 1 (2 * f.preorder.length) := by
    calc f.events.map (fun e => f.events.idxOf e + 1)
        = (f.events.map f.events.idxOf).map (· + 1) := by
          rw [List.map_map]
          rfl
      _ = (List.range (2 * f.preorder.length)).map (· + 1) := by
          rw [map_idxOf (nodup_events hf), length_events]
      _ = List.range' 1 (2 * f.preorder.length) := by
          rw [List.range'_eq_map_range]
          simp only [Nat.add_comm]
  rw [← hcount]
  have hperm := (f.perm_events.map fun e => f.events.idxOf e + 1).symm
  rw [List.map_flatMap] at hperm
  exact hperm

theorem pairwise_enter (hf : f.preorder.Nodup) :
    f.preorder.Pairwise fun u v => (stampsIn f.events u).1 < (stampsIn f.events v).1 := by
  rw [List.pairwise_iff_forall_sublist]
  intro u v huv
  have hlt := idxOf_lt_of_sublist (nodup_events hf) ((huv.map .enter).trans f.sublist_enter)
  simp only [stampsIn]
  omega

theorem pairwise_leave (hf : f.preorder.Nodup) :
    f.postorder.Pairwise fun u v => (stampsIn f.events u).2 < (stampsIn f.events v).2 := by
  rw [List.pairwise_iff_forall_sublist]
  intro u v huv
  have hlt := idxOf_lt_of_sublist (nodup_events hf) ((huv.map .leave).trans f.sublist_leave)
  simp only [stampsIn]
  omega

theorem enter_lt_leave (hf : f.preorder.Nodup) (hv : v ∈ f.preorder) :
    (stampsIn f.events v).1 < (stampsIn f.events v).2 := by
  have hlt := idxOf_lt_of_sublist (nodup_events hf) (enter_leave_sublist hv)
  simp only [stampsIn]
  omega

theorem below_or_disjoint (hf : f.preorder.Nodup) (hv : v ∈ f.preorder) (hw : w ∈ f.preorder)
    (hne : v ≠ w) :
    f.Below v w ∨ f.Below w v ∨ (stampsIn f.events v).2 < (stampsIn f.events w).1 ∨
      (stampsIn f.events w).2 < (stampsIn f.events v).1 := by
  have hlt {u x : α} (h : [.leave u, .enter x].Sublist f.events) :
      (stampsIn f.events u).2 < (stampsIn f.events x).1 := by
    have hlt := idxOf_lt_of_sublist (nodup_events hf) h
    simp only [stampsIn]
    omega
  rcases below_or_apart hv hw with h | h | h | h | h
  · exact absurd h hne
  · exact Or.inl h
  · exact Or.inr (Or.inl h)
  · exact Or.inr (Or.inr (Or.inl (hlt h)))
  · exact Or.inr (Or.inr (Or.inr (hlt h)))

end
end Recovery.Forest
