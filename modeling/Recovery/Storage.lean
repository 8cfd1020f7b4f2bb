import Recovery.DataType
import Recovery.Register.Basic
import Recovery.Text.Numeral
/-
  Where values live, and the identifiers that name them.

  A storage is a register, a stack slot, a slot of the floating point stack, a
  group of condition flags, or a parameter through which the value of another
  identifier is handed back. The last kind carries the identifier it stands
  for, so storages and identifiers are one recursive type; equality of storages
  is what ties an identifier to its place in a frame.

  Offsets and depths are 32-bit words with a sign, here and wherever they are added
  and subtracted; sums and differences that do not fit a word wrap around.
-/

namespace Recovery

/-- The place of a value. Stack offsets count from the stack pointer at the
procedure's entry. An out-argument carries name, type and storage of the
identifier whose value it hands back. -/
inductive Storage where
  | register (index bitSize : Nat)
  | stackArgument (offset : Int32) (bitSize : Nat)
  | stackLocal (offset : Int32) (bitSize : Nat)
  | fpuStackArgument (depth : Int32)
  | flagGroup (flagsRegister mask : Nat)
  | outArgument (name : String) (dataType : DataType) (referent : Storage)
  deriving DecidableEq, Repr

/-- A named, typed value in one storage. -/
structure Identifier where
  name : String
  dataType : DataType
  storage : Storage
  deriving DecidableEq, Repr

/-- The kinds of storage. -/
inductive StorageKind where
  | register
  | stackArgument
  | stackLocal
  | fpuStackArgument
  | flagGroup
  | outArgument
  deriving DecidableEq, Repr

def Register.storage (r : Register) : Storage := .register r.index r.bitSize

/-- The storage of a parameter that hands an identifier's value back. -/
def Identifier.outStorage (i : Identifier) : Storage :=
  .outArgument i.name i.dataType i.storage

namespace Storage

def kind : Storage → StorageKind
  | register .. => .register
  | stackArgument .. => .stackArgument
  | stackLocal .. => .stackLocal
  | fpuStackArgument .. => .fpuStackArgument
  | flagGroup .. => .flagGroup
  | outArgument .. => .outArgument

/-- The identifier whose value an out-argument hands back. -/
def referent? : Storage → Option Identifier
  | outArgument n t s => some ⟨n, t, s⟩
  | _ => none

def registerIndex? : Storage → Option Nat
  | register i _ => some i
  | _ => none

def isOutArgument (s : Storage) : Bool := s.referent?.isSome

/-- Whether this is an out-argument whose referent lives in a register. -/
def isRegisterOutArgument : Storage → Bool
  | outArgument _ _ (register ..) => true
  | _ => false

/-- The storage as listings show it. An argument's offset is shown as a word
after a plus sign, a local's by its magnitude after a minus sign. -/
def display : Storage → String
  | register i n => "Register(" ++ toString i ++ ":" ++ toString n ++ ")"
  | stackArgument o n =>
    "Stack(+" ++ Numeral.markedHex o.toUInt32.toNat ++ ":" ++ toString n ++ ")"
  | stackLocal o n => "Stack(-" ++ Numeral.markedHex o.toInt.natAbs ++ ":" ++ toString n ++ ")"
  | fpuStackArgument d => "FpuStack(" ++ toString d ++ ")"
  | flagGroup _ m => "Flags(" ++ Numeral.markedHex m ++ ")"
  | outArgument n _ _ => "Out(" ++ n ++ ")"

@[simp] theorem referent?_outStorage (i : Identifier) : i.outStorage.referent? = some i := rfl

end Storage
end Recovery
