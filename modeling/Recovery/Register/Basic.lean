/-
  Registers as an architecture publishes them.

  Registers that share physical storage (`eax`, `ax`, `al`, `ah`) share a
  `domain`; the bit range of each inside that domain decides which of them is
  a part of which.
-/

namespace Recovery

/-- What a register is for. -/
inductive RegisterClass where
  | general
  | stackPointer
  | framePointer
  | segment
  | flags
  | other
  deriving DecidableEq, Repr

/-- A register: `bitSize` bits of the physical register `domain`, from bit
`bitOffset` upwards. -/
structure Register where
  index : Nat
  name : String
  role : RegisterClass
  domain : Nat
  bitOffset : Nat
  bitSize : Nat
  deriving DecidableEq, Repr

namespace Register

/-- Whether the first register is a strict part of the second: same physical
register, smaller, and its bit range inside the other's. -/
def isPartOf (r whole : Register) : Bool :=
  r.index != whole.index && r.domain == whole.domain && r.bitSize < whole.bitSize
    && whole.bitOffset ≤ r.bitOffset
    && r.bitOffset + r.bitSize ≤ whole.bitOffset + whole.bitSize

/-- The least number of bytes that holds the register. -/
def byteSize (r : Register) : Nat := (r.bitSize + 7) / 8

theorem isPartOf_iff {r whole : Register} :
    r.isPartOf whole = true ↔
      r.index ≠ whole.index ∧ r.domain = whole.domain ∧ r.bitSize < whole.bitSize ∧
        whole.bitOffset ≤ r.bitOffset ∧
        r.bitOffset + r.bitSize ≤ whole.bitOffset + whole.bitSize := by
  simp [isPartOf, and_assoc]

theorem isPartOf_irrefl (r : Register) : r.isPartOf r = false := by
  simp [isPartOf]

end Register
end Recovery
