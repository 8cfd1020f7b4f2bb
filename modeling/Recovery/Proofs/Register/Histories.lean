import Mathlib.Data.Finset.Card
import Recovery.Proofs.Register.Words
/-
  Register sets are finite sets of indices.

  Every set that a program can hold was made by a history of operations: an empty set
  with some room or a list of indices at first, and then insertions, removals and
  combinations with other sets, which have histories of their own. The same history
  can be followed three ways: on register sets, on rows of words, and on finite sets
  of numbers, where an index from the limit on is left out.

    1. By induction on the history, the register set has the members of the finite set
       (`contains_toSet`), and the row stands for the register set (`toSet_toRow`).
    2. Whatever can be asked of one set is a `SetView`. A row has the view of its set
       (`WordRow.view_eq`), and a set with the members of a finite set has a view that
       describes it (`RegisterSet.describes`).
    3. `refines_finsets` says this of any two histories at once, so of any two sets and
       whatever room each of them has.
-/

namespace Recovery

/-! ## What can be asked -/

/-- What can be asked of a set: its members and its room, what adding and removing an
index answer, and what an iterator answers when it is called for the time `n`. -/
structure SetView where
  contains : Nat → Bool
  insertNew : Nat → Bool
  eraseOld : Nat → Bool
  card : Nat
  isEmpty : Bool
  answer : Nat → Option Nat
  room : Nat

/-- A finite set with an index added, unless no set stores the index. -/
def withIndex (members : Finset Nat) (i : Nat) : Finset Nat :=
  if i < RegisterSet.indexLimit then insert i members else members

/-- The answers are those of a finite set: adding and removing say whether the set
becomes another one, and iterating reads the members in strictly ascending order and
answers nothing from then on. -/
structure SetView.Describes (v : SetView) (members : Finset Nat) : Prop where
  below : ∀ i ∈ members, i < RegisterSet.indexLimit
  contains : ∀ i, v.contains i = decide (i ∈ members)
  insertNew : ∀ i, v.insertNew i = decide (withIndex members i ≠ members)
  eraseOld : ∀ i, v.eraseOld i = decide (members.erase i ≠ members)
  card : v.card = members.card
  isEmpty : v.isEmpty = decide (members = ∅)
  ascending : ∃ list : List Nat, list.Pairwise (· < ·) ∧ (∀ i, i ∈ list ↔ i ∈ members) ∧
    ∀ n, v.answer n = list[n]?

def RegisterSet.view (s : RegisterSet) : SetView where
  contains := s.contains
  insertNew i := (s.insertNew i).1
  eraseOld i := (s.eraseOld i).1
  card := s.card
  isEmpty := s.isEmpty
  answer n := s.toList[n]?
  room := s.room

def WordRow.view (r : WordRow) : SetView where
  contains := r.contains
  insertNew i := (r.insert i).1
  eraseOld i := (r.erase i).1
  card := r.card
  isEmpty := r.isEmpty
  answer n := r.cursor.answer n
  room := r.room

theorem WordRow.view_eq (r : WordRow) : r.view = r.toSet.view := by
  simp only [view, RegisterSet.view, SetView.mk.injEq]
  exact ⟨funext fun i => (contains_toSet r i).symm, funext (fst_insert r), funext (fst_erase r),
    card_eq r, isEmpty_eq r, funext (answer_cursor r), rfl⟩

theorem mem_withIndex {members : Finset Nat} {i j : Nat} :
    j ∈ withIndex members i ↔ j ∈ members ∨ (i < RegisterSet.indexLimit ∧ i = j) := by
  unfold withIndex
  split
  · next hi => simp [hi, eq_comm, or_comm]
  · next hi => simp [hi]

theorem withIndex_ne_iff {members : Finset Nat} {i : Nat} :
    withIndex members i ≠ members ↔ i < RegisterSet.indexLimit ∧ i ∉ members := by
  unfold withIndex
  split
  · next hi => simp [hi, Finset.insert_eq_self]
  · next hi => simp [hi]

namespace RegisterSet
variable {s t : RegisterSet} {members others : Finset Nat}

theorem isEmpty_iff : s.isEmpty = true ↔ ∀ i, s.contains i = false := by
  rw [isEmpty, beq_iff_eq]
  constructor
  · intro h i
    rw [contains, h, Nat.zero_testBit]
  · intro h
    exact Nat.eq_of_testBit_eq fun i => (h i).trans (Nat.zero_testBit i).symm

theorem pairwise_toList (s : RegisterSet) : s.toList.Pairwise (· < ·) :=
  List.pairwise_lt_range.filter _

theorem isEmpty_eq_decide (h : ∀ i, s.contains i = decide (i ∈ members)) :
    s.isEmpty = decide (members = ∅) := by
  rw [Bool.eq_iff_iff, isEmpty_iff, decide_eq_true_eq, Finset.eq_empty_iff_forall_notMem]
  simp only [h, decide_eq_false_iff_not]

theorem equals_eq_decide (h : ∀ i, s.contains i = decide (i ∈ members))
    (h' : ∀ i, t.contains i = decide (i ∈ others)) :
    s.equals t = decide (members = others) := by
  rw [Bool.eq_iff_iff, equals_iff, decide_eq_true_eq, Finset.ext_iff]
  simp only [h, h', decide_eq_decide]

theorem subset_eq_decide (h : ∀ i, s.contains i = decide (i ∈ members))
    (h' : ∀ i, t.contains i = decide (i ∈ others)) :
    s.subset t = decide (members ⊆ others) := by
  rw [Bool.eq_iff_iff, subset, isEmpty_iff, decide_eq_true_eq, Finset.subset_iff]
  simp only [contains_diff, h, h', Bool.and_eq_false_imp, decide_eq_true_eq, Bool.not_eq_false']

/-- A set with the members of a finite set answers for that finite set. -/
theorem describes (hlimit : ∀ i ∈ members, i < indexLimit)
    (h : ∀ i, s.contains i = decide (i ∈ members)) : s.view.Describes members where
  below := hlimit
  contains := h
  insertNew i := by
    show (decide (i < indexLimit) && !s.contains i) = _
    rw [Bool.eq_iff_iff, decide_eq_true_eq, withIndex_ne_iff, h]
    simp
  eraseOld i := by
    show s.contains i = _
    rw [h, decide_eq_decide, ne_eq, Finset.erase_eq_self, not_not]
  card := by
    have hset : s.toList.toFinset = members := by
      ext i
      rw [List.mem_toFinset, mem_toList, h, decide_eq_true_eq]
    show s.toList.length = members.card
    rw [← hset, List.toFinset_card_of_nodup ((pairwise_toList s).imp Nat.ne_of_lt)]
  isEmpty := isEmpty_eq_decide h
  ascending := by
    refine ⟨s.toList, pairwise_toList s, fun i => ?_, fun n => rfl⟩
    rw [mem_toList, h, decide_eq_true_eq]

theorem room_le_insert (s : RegisterSet) (i : Nat) : s.room ≤ (s.insert i).room := by
  unfold insert
  split
  · exact Nat.mul_le_mul_left 64 (Nat.le_max_left ..)
  · exact Nat.le_refl _

theorem room_le_insertAll (s : RegisterSet) (is : List Nat) : s.room ≤ (s.insertAll is).room := by
  induction is generalizing s with
  | nil => exact Nat.le_refl _
  | cons i is ih => exact Nat.le_trans (room_le_insert s i) (ih (s.insert i))

theorem room_erase (s : RegisterSet) (i : Nat) : (s.erase i).room = s.room := by
  unfold erase
  split
  · rfl
  · rfl

theorem contains_insertAll (s : RegisterSet) (is : List Nat) (j : Nat) :
    (s.insertAll is).contains j =
      (s.contains j || (decide (j ∈ is) && decide (j < indexLimit))) := by
  induction is generalizing s with
  | nil => simp [insertAll]
  | cons i is ih =>
    have hstep : s.insertAll (i :: is) = (s.insert i).insertAll is := rfl
    rw [hstep, ih, contains_insert, Bool.or_assoc]
    congr 1
    by_cases hij : i = j
    · subst hij
      simp
    · have hji : j ≠ i := fun h => hij h.symm
      simp [hij, hji]

end RegisterSet

/-! ## Histories -/

/-- How a set was made. A set that took part in making another one is there with its
own history; an assignment of a combination replaces the history of its target. -/
inductive SetHistory where
  | withRoom (count : Nat)
  | ofList (is : List Nat)
  | insert (h : SetHistory) (i : Nat)
  | erase (h : SetHistory) (i : Nat)
  | clear (h : SetHistory)
  | insertAll (h : SetHistory) (is : List Nat)
  | union (h k : SetHistory)
  | inter (h k : SetHistory)
  | diff (h k : SetHistory)

namespace SetHistory

def toSet : SetHistory → RegisterSet
  | withRoom count => .withRoom count
  | ofList is => .ofList is
  | insert h i => (h.toSet.insertNew i).2
  | erase h i => (h.toSet.eraseOld i).2
  | clear h => h.toSet.clear
  | insertAll h is => h.toSet.insertAll is
  | union h k => h.toSet.union k.toSet
  | inter h k => h.toSet.inter k.toSet
  | diff h k => h.toSet.diff k.toSet

def toRow : SetHistory → WordRow
  | withRoom count => .withRoom count
  | ofList is => .ofList is
  | insert h i => (h.toRow.insert i).2
  | erase h i => (h.toRow.erase i).2
  | clear h => h.toRow.clear
  | insertAll h is => h.toRow.insertAll is
  | union h k => h.toRow.union k.toRow
  | inter h k => h.toRow.inter k.toRow
  | diff h k => h.toRow.diff k.toRow

/-- The finite set that a history makes, which never takes in an index from the limit
on. -/
def toFinset : SetHistory → Finset Nat
  | withRoom _ => ∅
  | ofList is => is.toFinset.filter (· < RegisterSet.indexLimit)
  | insert h i => withIndex h.toFinset i
  | erase h i => h.toFinset.erase i
  | clear _ => ∅
  | insertAll h is => h.toFinset ∪ is.toFinset.filter (· < RegisterSet.indexLimit)
  | union h k => h.toFinset ∪ k.toFinset
  | inter h k => h.toFinset ∩ k.toFinset
  | diff h k => h.toFinset \ k.toFinset

/-- What the operations do to the room: one set never has less of it afterwards, and two
sets together have the room of the larger one. -/
structure KeepsRoom (h k : SetHistory) : Prop where
  insert : ∀ i, h.toSet.room ≤ (h.insert i).toSet.room
  erase : ∀ i, h.toSet.room ≤ (h.erase i).toSet.room
  clear : h.toSet.room ≤ h.clear.toSet.room
  insertAll : ∀ is, h.toSet.room ≤ (h.insertAll is).toSet.room
  union : (h.union k).toSet.room = max h.toSet.room k.toSet.room
  inter : (h.inter k).toSet.room = max h.toSet.room k.toSet.room
  diff : (h.diff k).toSet.room = max h.toSet.room k.toSet.room

theorem lt_limit_of_mem (h : SetHistory) : ∀ i ∈ h.toFinset, i < RegisterSet.indexLimit := by
  induction h with
  | withRoom count => simp [toFinset]
  | ofList is => simp [toFinset]
  | insert h i ih =>
    intro j hj
    obtain hj | ⟨hi, rfl⟩ := mem_withIndex.1 hj
    · exact ih j hj
    · exact hi
  | erase h i ih => exact fun j hj => ih j (Finset.mem_of_mem_erase hj)
  | clear h ih => simp [toFinset]
  | insertAll h is ih =>
    intro j hj
    obtain hj | hj := Finset.mem_union.1 hj
    · exact ih j hj
    · exact (Finset.mem_filter.1 hj).2
  | union h k ihh ihk =>
    intro j hj
    obtain hj | hj := Finset.mem_union.1 hj
    · exact ihh j hj
    · exact ihk j hj
  | inter h k ihh ihk => exact fun j hj => ihh j (Finset.mem_inter.1 hj).1
  | diff h k ihh ihk => exact fun j hj => ihh j (Finset.mem_sdiff.1 hj).1

theorem contains_toSet (h : SetHistory) (j : Nat) :
    h.toSet.contains j = decide (j ∈ h.toFinset) := by
  induction h with
  | withRoom count => exact RegisterSet.contains_withRoom count j
  | ofList is =>
    rw [toSet, RegisterSet.ofList, RegisterSet.contains_insertAll, RegisterSet.empty,
      RegisterSet.contains_withRoom]
    simp [toFinset]
  | insert h i ih =>
    rw [toSet, RegisterSet.insertNew, RegisterSet.contains_insert, ih]
    simp only [toFinset, mem_withIndex, Bool.decide_or, Bool.decide_and]
  | erase h i ih =>
    rw [toSet, RegisterSet.eraseOld, RegisterSet.contains_erase, ih]
    simp only [toFinset, Finset.mem_erase, Bool.decide_and, ne_comm, Bool.and_comm]
  | clear h ih => exact RegisterSet.contains_clear h.toSet j
  | insertAll h is ih =>
    rw [toSet, RegisterSet.contains_insertAll, ih]
    simp only [toFinset, Finset.mem_union, Finset.mem_filter, List.mem_toFinset, Bool.decide_or,
      Bool.decide_and]
  | union h k ihh ihk =>
    rw [toSet, RegisterSet.contains_union, ihh, ihk]
    simp only [toFinset, Finset.mem_union, Bool.decide_or]
  | inter h k ihh ihk =>
    rw [toSet, RegisterSet.contains_inter, ihh, ihk]
    simp only [toFinset, Finset.mem_inter, Bool.decide_and]
  | diff h k ihh ihk =>
    rw [toSet, RegisterSet.contains_diff, ihh, ihk]
    simp only [toFinset, Finset.mem_sdiff, Bool.decide_and, decide_not]

theorem toSet_toRow (h : SetHistory) : h.toRow.toSet = h.toSet := by
  induction h with
  | withRoom count => exact WordRow.toSet_withRoom count
  | ofList is => exact WordRow.toSet_ofList is
  | insert h i ih => rw [toRow, WordRow.toSet_insert, ih, toSet, RegisterSet.insertNew]
  | erase h i ih => rw [toRow, WordRow.toSet_erase, ih, toSet, RegisterSet.eraseOld]
  | clear h ih => rw [toRow, WordRow.toSet_clear, ih, toSet]
  | insertAll h is ih => rw [toRow, WordRow.toSet_insertAll, ih, toSet]
  | union h k ihh ihk => rw [toRow, WordRow.toSet_union, ihh, ihk, toSet]
  | inter h k ihh ihk => rw [toRow, WordRow.toSet_inter, ihh, ihk, toSet]
  | diff h k ihh ihk => rw [toRow, WordRow.toSet_diff, ihh, ihk, toSet]

theorem keepsRoom (h k : SetHistory) : KeepsRoom h k where
  insert := RegisterSet.room_le_insert h.toSet
  erase i := Nat.le_of_eq (RegisterSet.room_erase h.toSet i).symm
  clear := Nat.le_refl _
  insertAll := RegisterSet.room_le_insertAll h.toSet
  union := (Nat.mul_max_mul_left 64 ..).symm
  inter := (Nat.mul_max_mul_left 64 ..).symm
  diff := (Nat.mul_max_mul_left 64 ..).symm

/-- Register sets are finite sets of indices below the limit: after any history the set
answers every question for the finite set that the same history makes, any two sets are
included in one another or equal when their finite sets are, and the rows of words give
the same answers. -/
theorem refines_finsets (h k : SetHistory) :
    h.toSet.view.Describes h.toFinset ∧
    h.toSet.subset k.toSet = decide (h.toFinset ⊆ k.toFinset) ∧
    h.toSet.equals k.toSet = decide (h.toFinset = k.toFinset) ∧
    KeepsRoom h k ∧
    h.toRow.view = h.toSet.view ∧
    h.toRow.subset k.toRow = h.toSet.subset k.toSet ∧
    h.toRow.equals k.toRow = h.toSet.equals k.toSet := by
  refine ⟨RegisterSet.describes (lt_limit_of_mem h) (contains_toSet h),
    RegisterSet.subset_eq_decide (contains_toSet h) (contains_toSet k),
    RegisterSet.equals_eq_decide (contains_toSet h) (contains_toSet k), keepsRoom h k, ?_, ?_, ?_⟩
  · rw [WordRow.view_eq, toSet_toRow]
  · rw [WordRow.subset_eq, toSet_toRow, toSet_toRow]
  · rw [WordRow.equals_eq, toSet_toRow, toSet_toRow]

end SetHistory
end Recovery
