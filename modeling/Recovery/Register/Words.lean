import Recovery.Register.Set
/-
  Register sets in memory.

  In memory a register set is a row of 64-bit words: the index `i` is bit `i % 64`
  of word `i / 64`, and every word past the end of the row counts as zero. The row
  grows by zero words when an index needs a word that is not there. Two rows are
  combined word by word over the length of the longer one. The members are read
  by a cursor, which takes the lowest bit out of the word it stands at and goes on
  to the next word when no bit is left.

  `WordRow.toSet` reads a row as the one number that a `RegisterSet` is.
-/

namespace Recovery

/-- A row of words, the lowest indices first. -/
structure WordRow where
  words : List (BitVec 64)
  deriving DecidableEq, Repr

namespace WordRow

def withRoom (count : Nat) : WordRow := ⟨List.replicate ((count + 63) / 64) 0⟩

/-- How many indices the row can hold without growing. -/
def room (r : WordRow) : Nat := 64 * r.words.length

/-- A word of the row; past the end it is zero. -/
def word (r : WordRow) (place : Nat) : BitVec 64 := r.words[place]?.getD 0

/-- The word in which the bit of an index is the only one. -/
def mask (i : Nat) : BitVec 64 := 1#64 <<< (i % 64)

def contains (r : WordRow) (i : Nat) : Bool := r.word (i / 64) &&& mask i != 0

/-- The row with zero words appended until it has `count` words. -/
def grow (r : WordRow) (count : Nat) : WordRow :=
  ⟨r.words ++ List.replicate (count - r.words.length) 0⟩

/-- Adds an index, growing the row for it, and says whether it was new. An index
from the limit on is ignored. -/
def insert (r : WordRow) (i : Nat) : Bool × WordRow :=
  if RegisterSet.indexLimit ≤ i then (false, r)
  else
    let grown := r.grow (i / 64 + 1)
    (grown.word (i / 64) &&& mask i == 0, ⟨grown.words.modify (i / 64) (· ||| mask i)⟩)

/-- Takes an index out and says whether it was a member. -/
def erase (r : WordRow) (i : Nat) : Bool × WordRow :=
  if r.contains i then (true, ⟨r.words.modify (i / 64) (· &&& ~~~mask i)⟩) else (false, r)

def clear (r : WordRow) : WordRow := ⟨r.words.map fun _ => 0⟩

def insertAll (r : WordRow) (is : List Nat) : WordRow := is.foldl (fun r i => (r.insert i).2) r

def ofList (is : List Nat) : WordRow := (withRoom 0).insertAll is

/-- Combines two rows word by word, over the length of the longer one. -/
def zipWith (op : BitVec 64 → BitVec 64 → BitVec 64) (r s : WordRow) : WordRow :=
  ⟨(List.range (max r.words.length s.words.length)).map fun j => op (r.word j) (s.word j)⟩

def union (r s : WordRow) : WordRow := zipWith (· ||| ·) r s

def inter (r s : WordRow) : WordRow := zipWith (· &&& ·) r s

def diff (r s : WordRow) : WordRow := zipWith (fun a b => a &&& ~~~b) r s

def isEmpty (r : WordRow) : Bool := r.words.all (· == 0)

def card (r : WordRow) : Nat := r.words.foldr (fun w count => w.cpop.toNat + count) 0

def subset (r s : WordRow) : Bool := (r.diff s).isEmpty

/-- Whether two rows have the same words, the shorter one continued by zero words. -/
def equals (r s : WordRow) : Bool :=
  (List.range (max r.words.length s.words.length)).all fun j => r.word j == s.word j

/-- A cursor over the members: the row, the place of a word in it, and the bits of
that word that have not been taken. -/
structure Cursor where
  words : List (BitVec 64)
  place : Nat
  current : BitVec 64

/-- The cursor before the first member. -/
def cursor (r : WordRow) : Cursor := ⟨r.words, 0, r.words.headD 0⟩

/-- The next member, and the cursor behind it: the lowest bit left in the word at
hand, or else what the next word has. -/
def Cursor.next (c : Cursor) : Option Nat × Cursor :=
  if c.current = 0 then
    match _h : c.words[c.place + 1]? with
    | some w => Cursor.next { c with place := c.place + 1, current := w }
    | none => (none, { c with place := c.place + 1 })
  else
    (some (64 * c.place + c.current.ctz.toNat),
      { c with current := c.current &&& (c.current - 1) })
termination_by c.words.length - c.place
decreasing_by
  have hlt : c.place + 1 < c.words.length := (List.getElem?_eq_some_iff.1 _h).1
  show c.words.length - (c.place + 1) < c.words.length - c.place
  omega

/-- What a cursor answers when it is asked once more after `asked` times. -/
def Cursor.answer (c : Cursor) : (asked : Nat) → Option Nat
  | 0 => c.next.1
  | asked + 1 => c.next.2.answer asked

/-- The number that a list of words makes, the first word lowest. -/
def value : List (BitVec 64) → Nat
  | [] => 0
  | w :: ws => Nat.pow 2 64 * value ws + w.toNat

theorem value_lt (ws : List (BitVec 64)) : value ws < Nat.pow 2 (64 * ws.length) := by
  induction ws with
  | nil => exact Nat.one_pos
  | cons w ws ih =>
    have hw : w.toNat < 2 ^ 64 := w.isLt
    calc value (w :: ws) = 2 ^ 64 * value ws + w.toNat := rfl
      _ < 2 ^ 64 * value ws + 2 ^ 64 := Nat.add_lt_add_left hw _
      _ = 2 ^ 64 * (value ws + 1) := rfl
      _ ≤ 2 ^ 64 * 2 ^ (64 * ws.length) := Nat.mul_le_mul_left _ ih
      _ = 2 ^ (64 * (w :: ws).length) := by
        rw [← Nat.pow_add, List.length_cons, Nat.mul_succ, Nat.add_comm]

/-- The register set that a row stands for. -/
def toSet (r : WordRow) : RegisterSet := ⟨value r.words, r.words.length, value_lt r.words⟩

end WordRow
end Recovery
