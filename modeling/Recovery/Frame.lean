import Recovery.Error
import Recovery.Storage
/-
  Frames: the identifiers of one procedure.

  A frame is a list that only grows. The identifier of a storage is the first
  one that lives there, so every operation that needs an identifier comes down
  to `ensure`: answer the one that is bound, or append one. Types are the only
  part of an identifier that can change later.
-/

namespace Recovery

/-- The identifiers of a procedure in order of creation, and the number of
bytes between the entry stack pointer and the first stack argument. -/
structure Frame where
  identifiers : List Identifier
  returnAddressSize : Int32
  deriving DecidableEq, Repr

namespace Frame

def empty (returnAddressSize : Int32) : Frame := ⟨[], returnAddressSize⟩

instance : Inhabited Frame := ⟨empty 0⟩

def size (f : Frame) : Nat := f.identifiers.length

/-- The identifier with a number, when there is one. -/
def identifier? (f : Frame) (id : IdentifierId) : Option Identifier := f.identifiers[id]?

/-- The identifier with a number, or a refusal of the number. -/
def get (f : Frame) (id : IdentifierId) : Except Error Identifier :=
  match f.identifier? id with
  | some i => .ok i
  | none => .error (.invalidIdentifier id)

/-- The identifier bound to a storage. -/
def find? (f : Frame) (s : Storage) : Option IdentifierId :=
  f.identifiers.findIdx? (fun i => decide (i.storage = s))

/-- The name text uses for a number: the identifier's own, or the number's. -/
def nameOf (f : Frame) (id : IdentifierId) : String :=
  match f.identifier? id with
  | some i => i.name
  | none => Label.identifier id

/-- Answers the identifier bound to the storage of `i`; appends `i` when there
is none. -/
def ensure (f : Frame) (i : Identifier) : IdentifierId × Frame :=
  match f.find? i.storage with
  | some id => (id, f)
  | none => (f.size, { f with identifiers := f.identifiers ++ [i] })

def setDataType (f : Frame) (id : IdentifierId) (t : DataType) : Except Error Frame :=
  if id < f.size then
    .ok { f with identifiers := f.identifiers.modify id fun i => { i with dataType := t } }
  else .error (.invalidIdentifier id)

/-- The identifier of a register, made on first use under the register's name. -/
def ensureRegister (f : Frame) (r : Register) : IdentifierId × Frame :=
  f.ensure ⟨r.name, .word r.bitSize, r.storage⟩

/-- The name of a stack argument: its type's mark, `Arg`, and its offset as a word. -/
def stackArgumentName (offset : Int32) (t : DataType) : String :=
  t.namePrefix ++ "Arg" ++ Numeral.upperHexPair offset.toUInt32.toNat

/-- The name of a stack local: its type's mark, `Loc`, and the magnitude of its offset. -/
def stackLocalName (offset : Int32) (t : DataType) : String :=
  t.namePrefix ++ "Loc" ++ Numeral.upperHexPair offset.toInt.natAbs

/-- The identifier of a stack argument as wide as its type. -/
def ensureStackArgument (f : Frame) (offset : Int32) (t : DataType) : IdentifierId × Frame :=
  f.ensure ⟨stackArgumentName offset t, t, .stackArgument offset t.bitSize⟩

/-- The identifier of a stack local as wide as its type. -/
def ensureStackLocal (f : Frame) (offset : Int32) (t : DataType) : IdentifierId × Frame :=
  f.ensure ⟨stackLocalName offset t, t, .stackLocal offset t.bitSize⟩

/-- The identifier of a slot of the floating point stack. -/
def ensureFpuSlot (f : Frame) (depth : Int32) (t : DataType) : IdentifierId × Frame :=
  f.ensure ⟨"rArg" ++ toString depth, t, .fpuStackArgument depth⟩

/-- The identifier of a group of condition flags. -/
def ensureFlagGroup (f : Frame) (flagsRegister mask : Nat) (name : String) :
    IdentifierId × Frame :=
  f.ensure ⟨name, .bool, .flagGroup flagsRegister mask⟩

/-- The name of a parameter that hands back an identifier's value. -/
def outName (referent : String) : String := referent ++ "Out"

/-- The identifier that hands back the value of another one: a pointer to it. -/
def ensureOutArgument (f : Frame) (referent : IdentifierId) (pointerBitSize : Nat) :
    Except Error (IdentifierId × Frame) := do
  let i ← f.get referent
  return f.ensure ⟨outName i.name, .pointer i.dataType pointerBitSize, i.outStorage⟩

/-- The identifier for a storage and a type. A stack slot is as wide as the
type, whatever width the storage names; a flag group is a truth value. -/
def ensureStorage (f : Frame) (s : Storage) (t : DataType) : IdentifierId × Frame :=
  match s with
  | .register i _ => f.ensure ⟨"r" ++ toString i, t, s⟩
  | .stackArgument o _ => f.ensureStackArgument o t
  | .stackLocal o _ => f.ensureStackLocal o t
  | .fpuStackArgument d => f.ensureFpuSlot d t
  | .flagGroup r m => f.ensureFlagGroup r m ("grf" ++ Numeral.upperHex m)
  | .outArgument n _ _ => f.ensure ⟨outName n, t, s⟩

/-- Where a caller sees an argument: a stack argument from the caller's stack
pointer at the call, a slot of the floating point stack by its depth. -/
def externalOffset? (f : Frame) (id : IdentifierId) : Option Int32 :=
  match f.identifier? id with
  | some ⟨_, _, .stackArgument o _⟩ => some (o - f.returnAddressSize)
  | some ⟨_, _, .fpuStackArgument d⟩ => some d
  | _ => none

/-- The width of an identifier's type; a number without identifier has none. -/
def widthOf (f : Frame) (id : IdentifierId) : Nat :=
  match f.identifier? id with
  | some i => i.dataType.bitSize
  | none => 0

/-- The identifiers in listings, a line for each: number, name, type and storage. -/
def listing (f : Frame) : List String :=
  f.identifiers.zipIdx.map fun (i, id) =>
    Label.identifier id ++ " " ++ i.name ++ ": " ++ i.dataType.display ++ " @ "
      ++ i.storage.display

/-! What `ensure` does: the answer is bound to the storage asked for, and what
was there before stays. -/

theorem storage_of_find? {f : Frame} {s : Storage} {id : IdentifierId}
    (h : f.find? s = some id) : (f.identifier? id).map Identifier.storage = some s := by
  unfold find? at h
  obtain ⟨hlt, hs, -⟩ := List.findIdx?_eq_some_iff_getElem.1 h
  simp [identifier?, List.getElem?_eq_getElem hlt, of_decide_eq_true hs]

theorem storage_ensure (f : Frame) (i : Identifier) :
    ((f.ensure i).2.identifier? (f.ensure i).1).map Identifier.storage = some i.storage := by
  unfold ensure
  split
  · rename_i id h
    exact storage_of_find? h
  · simp [identifier?, size]

/-- `ensure` appends at most the identifier given. -/
theorem identifiers_ensure (f : Frame) (i : Identifier) :
    (f.ensure i).2.identifiers = f.identifiers ∨
      (f.ensure i).2.identifiers = f.identifiers ++ [i] := by
  unfold ensure
  split
  · exact Or.inl rfl
  · exact Or.inr rfl

@[simp] theorem returnAddressSize_ensure (f : Frame) (i : Identifier) :
    (f.ensure i).2.returnAddressSize = f.returnAddressSize := by
  unfold ensure
  split <;> rfl

end Frame
end Recovery
