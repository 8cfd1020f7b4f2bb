/-
  Types of recovered values.

  A primitive type is a reading of some bits (`Domain`) and their number. A
  pointer keeps its own width beside the type it points to.
-/

namespace Recovery

/-- How the bits of a primitive value are read. -/
inductive Domain where
  | word
  | signedInt
  | unsignedInt
  | real
  | boolean
  deriving DecidableEq, Repr

/-- A reading of bits and their number. -/
structure PrimitiveType where
  domain : Domain
  bitSize : Nat
  deriving DecidableEq, Repr

def PrimitiveType.name : PrimitiveType → String
  | ⟨.word, 8⟩ => "byte"
  | ⟨.word, n⟩ => "word" ++ toString n
  | ⟨.signedInt, n⟩ => "int" ++ toString n
  | ⟨.unsignedInt, n⟩ => "uint" ++ toString n
  | ⟨.real, n⟩ => "real" ++ toString n
  | ⟨.boolean, _⟩ => "bool"

/-- The type of an identifier. -/
inductive DataType where
  | primitive (type : PrimitiveType)
  | pointer (pointee : DataType) (bitSize : Nat)
  deriving DecidableEq, Repr

namespace DataType

/-- A word whose bits are not read yet. -/
def word (bitSize : Nat) : DataType := .primitive ⟨.word, bitSize⟩

/-- The type of a condition: a truth value in one byte. -/
def bool : DataType := .primitive ⟨.boolean, 8⟩

def bitSize : DataType → Nat
  | primitive p => p.bitSize
  | pointer _ n => n

/-- The least number of bytes that holds the width. -/
def byteSize (t : DataType) : Nat := (t.bitSize + 7) / 8

def primitive? : DataType → Option PrimitiveType
  | primitive p => some p
  | pointer .. => none

/-- How a name says the type of a stack variable: pointers and reals by kind,
other values by width. -/
def namePrefix : DataType → String
  | pointer .. => "ptr"
  | primitive ⟨.real, _⟩ => "r"
  | primitive ⟨_, 8⟩ => "b"
  | primitive ⟨_, 16⟩ => "w"
  | primitive ⟨_, 32⟩ => "dw"
  | primitive ⟨_, 64⟩ => "qw"
  | primitive _ => "n"

def display : DataType → String
  | primitive p => p.name
  | pointer t _ => "(" ++ t.display ++ " *)"

/-- A primitive type read from `observed` bits when those are fewer than its
own; every other type stays as it is. -/
def narrow (observed : Nat) : DataType → DataType
  | primitive p => if observed < p.bitSize then primitive ⟨p.domain, observed⟩ else primitive p
  | pointer t n => pointer t n

theorem bitSize_narrow_le (n : Nat) (t : DataType) : (t.narrow n).bitSize ≤ t.bitSize := by
  cases t with
  | primitive p =>
    simp only [narrow]
    split
    · simp only [bitSize]; omega
    · exact Nat.le_refl _
  | pointer t m => exact Nat.le_refl _

end DataType
end Recovery
