import Recovery.Register.Set
import Recovery.Register.Basic
/-
  What the analyses ask of a processor and of the platform a program runs on:
  a register file, names for groups of condition flags, two sizes, and the
  registers every procedure receives without saying so.
-/

namespace Recovery

/-- A processor. Its register file, the test for parts and the names of flags are
functions, of which nothing is asked here; `registerCount` bounds the indices that are
searched for a name. Unless a processor says otherwise, which register is a part of
which is told by the bits they take. -/
structure Architecture where
  name : String
  registerCount : Nat
  register? : Nat → Option Register
  isPartOf : Register → Register → Bool := Register.isPartOf
  flagsRegister : Option Register
  flagGroupName : Nat → String
  returnAddressSize : Int32
  pointerBitSize : Nat

namespace Architecture

def registerNamed? (a : Architecture) (name : String) : Option Register :=
  ((List.range a.registerCount).filterMap a.register?).find? fun r => r.name == name

def emptySet (a : Architecture) : RegisterSet := RegisterSet.withRoom a.registerCount

/-- The letters of the bits of a mask, the lowest first. -/
def flagLetters (letters : List Char) (mask : Nat) : String :=
  String.ofList ((letters.zipIdx.filter fun p => mask.testBit p.2).map Prod.fst)

/-- Whether register index `i` is a part of a defined member of `among`. An index
without definition is part of nothing. -/
def isPartOfAny (a : Architecture) (i : Nat) (among : List Nat) : Bool :=
  match a.register? i with
  | none => false
  | some r => among.any fun j => (a.register? j).any (a.isPartOf r)

end Architecture

/-- A platform: the registers passed to every procedure as a matter of course,
which never become parameters or results. -/
structure Platform where
  name : String
  implicitRegisters : RegisterSet

end Recovery
