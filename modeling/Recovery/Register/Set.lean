/-
  Sets of register indices.

  A set is one number whose set bits are the members, together with the number
  of 64-bit words kept for it. The words are the set's room: they grow when
  a member needs it, they never shrink, and they do not take part in equality.
  Indices from `indexLimit` on are never stored.

  The view of a set is `contains`; each operation below has one equation that
  says what it does to that view.
-/

namespace Recovery

/-- A set of register indices below `64 * words`. -/
structure RegisterSet where
  bits : Nat
  words : Nat
  bits_lt : bits < Nat.pow 2 (64 * words)

namespace RegisterSet

/-- The first index that no set stores. -/
def indexLimit : Nat := 4096

def withRoom (count : Nat) : RegisterSet :=
  ⟨0, (count + 63) / 64, Nat.two_pow_pos _⟩

def empty : RegisterSet := withRoom 0

instance : EmptyCollection RegisterSet := ⟨empty⟩
instance : Inhabited RegisterSet := ⟨empty⟩

/-- How many indices the set can hold without growing. -/
def room (s : RegisterSet) : Nat := 64 * s.words

def contains (s : RegisterSet) (i : Nat) : Bool := s.bits.testBit i

/-- The members in ascending order. -/
def toList (s : RegisterSet) : List Nat := (List.range s.room).filter s.contains

def card (s : RegisterSet) : Nat := s.toList.length

def isEmpty (s : RegisterSet) : Bool := s.bits == 0

/-- Two sets are equal when they have the same members, whatever their room. -/
def equals (s t : RegisterSet) : Bool := s.bits == t.bits

instance : BEq RegisterSet := ⟨equals⟩

private theorem lt_room {b m n : Nat} (h : b < Nat.pow 2 (64 * m)) (hmn : m ≤ n) :
    b < Nat.pow 2 (64 * n) :=
  Nat.lt_of_lt_of_le h (Nat.pow_le_pow_right (by decide) (Nat.mul_le_mul_left 64 hmn))

private theorem bit_lt_room (i : Nat) : 1 <<< i < Nat.pow 2 (64 * (i / 64 + 1)) := by
  rw [Nat.one_shiftLeft]
  exact Nat.pow_lt_pow_right (by decide) (by omega)

/-- Adds an index, growing the room for it; an index from the limit on is ignored. -/
def insert (s : RegisterSet) (i : Nat) : RegisterSet :=
  if i < indexLimit then
    { bits := s.bits ||| 1 <<< i
      words := max s.words (i / 64 + 1)
      bits_lt := Nat.or_lt_two_pow (lt_room s.bits_lt (Nat.le_max_left ..))
        (lt_room (bit_lt_room i) (Nat.le_max_right ..)) }
  else s

/-- Adds an index and says whether it was new to the set. -/
def insertNew (s : RegisterSet) (i : Nat) : Bool × RegisterSet :=
  (decide (i < indexLimit) && !s.contains i, s.insert i)

/-- Takes an index out, keeping the room. -/
def erase (s : RegisterSet) (i : Nat) : RegisterSet :=
  if h : s.contains i = true then
    { bits := s.bits ^^^ 1 <<< i
      words := s.words
      bits_lt := Nat.xor_lt_two_pow s.bits_lt (by
        rw [Nat.one_shiftLeft]
        exact Nat.lt_of_le_of_lt (Nat.ge_two_pow_of_testBit h) s.bits_lt) }
  else s

/-- Takes an index out and says whether it was a member. -/
def eraseOld (s : RegisterSet) (i : Nat) : Bool × RegisterSet := (s.contains i, s.erase i)

def clear (s : RegisterSet) : RegisterSet := ⟨0, s.words, Nat.two_pow_pos _⟩

def insertAll (s : RegisterSet) (is : List Nat) : RegisterSet := is.foldl insert s

def ofList (is : List Nat) : RegisterSet := empty.insertAll is

def union (s t : RegisterSet) : RegisterSet where
  bits := s.bits ||| t.bits
  words := max s.words t.words
  bits_lt := Nat.or_lt_two_pow (lt_room s.bits_lt (Nat.le_max_left ..))
    (lt_room t.bits_lt (Nat.le_max_right ..))

def inter (s t : RegisterSet) : RegisterSet where
  bits := s.bits &&& t.bits
  words := max s.words t.words
  bits_lt := Nat.lt_of_le_of_lt Nat.and_le_left (lt_room s.bits_lt (Nat.le_max_left ..))

def diff (s t : RegisterSet) : RegisterSet where
  bits := s.bits ^^^ (s.bits &&& t.bits)
  words := max s.words t.words
  bits_lt := lt_room
    (Nat.xor_lt_two_pow s.bits_lt (Nat.lt_of_le_of_lt Nat.and_le_left s.bits_lt))
    (Nat.le_max_left ..)

instance : Union RegisterSet := ⟨union⟩
instance : Inter RegisterSet := ⟨inter⟩
instance : SDiff RegisterSet := ⟨diff⟩

def subset (s t : RegisterSet) : Bool := (s.diff t).isEmpty

def display (s : RegisterSet) : String :=
  "\x7b" ++ String.intercalate ", " (s.toList.map toString) ++ "\x7d"

/-! What each operation does to membership. -/

@[simp] theorem contains_withRoom (n i : Nat) : (withRoom n).contains i = false := by
  simp [withRoom, contains]

theorem contains_insert (s : RegisterSet) (i j : Nat) :
    (s.insert i).contains j = (s.contains j || (decide (i < indexLimit) && decide (i = j))) := by
  unfold insert
  split
  · rename_i h
    simp [contains, h, Nat.testBit_or, Nat.one_shiftLeft, Nat.testBit_two_pow]
  · rename_i h
    simp [h]

theorem contains_erase (s : RegisterSet) (i j : Nat) :
    (s.erase i).contains j = (s.contains j && decide (i ≠ j)) := by
  unfold erase
  split
  · rename_i h
    by_cases hij : i = j
    · subst hij
      simp only [contains] at h
      simp [contains, Nat.testBit_xor, Nat.one_shiftLeft, h]
    · simp [contains, Nat.testBit_xor, Nat.one_shiftLeft, hij]
  · rename_i h
    by_cases hij : i = j
    · subst hij
      simp_all
    · simp [hij]

@[simp] theorem contains_clear (s : RegisterSet) (i : Nat) : s.clear.contains i = false := by
  simp [clear, contains]

@[simp] theorem contains_union (s t : RegisterSet) (i : Nat) :
    (s.union t).contains i = (s.contains i || t.contains i) := by
  simp [union, contains, Nat.testBit_or]

@[simp] theorem contains_inter (s t : RegisterSet) (i : Nat) :
    (s.inter t).contains i = (s.contains i && t.contains i) := by
  simp [inter, contains, Nat.testBit_and]

@[simp] theorem contains_diff (s t : RegisterSet) (i : Nat) :
    (s.diff t).contains i = (s.contains i && !t.contains i) := by
  simp only [diff, contains, Nat.testBit_xor, Nat.testBit_and]
  cases s.bits.testBit i <;> cases t.bits.testBit i <;> rfl

theorem inter_inter_self (s t : RegisterSet) : (s.inter t).inter t = s.inter t := by
  simp only [inter, mk.injEq, Nat.and_assoc, Nat.and_self, true_and]
  omega

theorem lt_room_of_contains {s : RegisterSet} {i : Nat} (h : s.contains i = true) :
    i < s.room := by
  have hle : 2 ^ i ≤ s.bits := Nat.ge_two_pow_of_testBit h
  exact (Nat.pow_lt_pow_iff_right (by decide)).1 (Nat.lt_of_le_of_lt hle s.bits_lt)

theorem mem_toList {s : RegisterSet} {i : Nat} : i ∈ s.toList ↔ s.contains i = true := by
  simp only [toList, List.mem_filter, List.mem_range]
  exact ⟨fun h => h.2, fun h => ⟨lt_room_of_contains h, h⟩⟩

end RegisterSet
end Recovery
