import Recovery.Frame
import Recovery.Table
/-
  Frames in memory, and what can be done to a frame.

  In memory a frame keeps a table beside its identifiers, from every storage that was
  ever bound to the number of its identifier. Finding looks the storage up in the table,
  and an identifier is appended together with an entry for its storage. The key of an
  out-argument is a copy of the identifier that it stands for, taken when it was made; a
  change of type goes to the list of identifiers and to no key.

  `FrameOperation` names everything that changes a frame. A `Frame` runs an operation
  through its own functions; a `KeyedFrame` asks for the same identifier and binds it
  with the table.
-/

namespace Recovery

/-- An identifier asked for: of a register, of a place on the stack, of the floating
point stack, of flags, to hand back another one, like another one, or of any storage. -/
inductive FrameRequest where
  | register (r : Register)
  | stackArgument (offset : Int32) (t : DataType)
  | stackLocal (offset : Int32) (t : DataType)
  | fpuSlot (depth : Int32) (t : DataType)
  | flagGroup (flagsRegister mask : Nat) (name : String)
  | outArgument (referent : IdentifierId) (pointerBitSize : Nat)
  | identifier (i : Identifier)
  | storage (s : Storage) (t : DataType)
  deriving DecidableEq, Repr

/-- What can be done to a frame. -/
inductive FrameOperation where
  | ensure (r : FrameRequest)
  | setDataType (id : IdentifierId) (t : DataType)
  deriving DecidableEq, Repr

/-- What an operation answers: the number asked for, nothing, or a refusal. -/
abbrev FrameAnswer := Except Error (Option IdentifierId)

namespace FrameRequest

/-- The identifier that is appended when the frame has none for its storage. Only a
parameter that hands another one back reads the frame. -/
def wanted (get : IdentifierId → Except Error Identifier) :
    FrameRequest → Except Error Identifier
  | register r => .ok ⟨r.name, .word r.bitSize, r.storage⟩
  | stackArgument o t => .ok ⟨Frame.stackArgumentName o t, t, .stackArgument o t.bitSize⟩
  | stackLocal o t => .ok ⟨Frame.stackLocalName o t, t, .stackLocal o t.bitSize⟩
  | fpuSlot d t => .ok ⟨"rArg" ++ toString d, t, .fpuStackArgument d⟩
  | flagGroup r m name => .ok ⟨name, .bool, .flagGroup r m⟩
  | outArgument referent n => do
    let i ← get referent
    return ⟨Frame.outName i.name, .pointer i.dataType n, i.outStorage⟩
  | identifier i => .ok i
  | storage (.register i n) t => .ok ⟨"r" ++ toString i, t, .register i n⟩
  | storage (.stackArgument o _) t =>
    .ok ⟨Frame.stackArgumentName o t, t, .stackArgument o t.bitSize⟩
  | storage (.stackLocal o _) t => .ok ⟨Frame.stackLocalName o t, t, .stackLocal o t.bitSize⟩
  | storage (.fpuStackArgument d) t => .ok ⟨"rArg" ++ toString d, t, .fpuStackArgument d⟩
  | storage (.flagGroup r m) _ => .ok ⟨"grf" ++ Numeral.upperHex m, .bool, .flagGroup r m⟩
  | storage (.outArgument n u s) t => .ok ⟨Frame.outName n, t, .outArgument n u s⟩

/-- Asks a frame for the identifier. -/
def run (f : Frame) : FrameRequest → Except Error (IdentifierId × Frame)
  | register r => .ok (f.ensureRegister r)
  | stackArgument o t => .ok (f.ensureStackArgument o t)
  | stackLocal o t => .ok (f.ensureStackLocal o t)
  | fpuSlot d t => .ok (f.ensureFpuSlot d t)
  | flagGroup r m name => .ok (f.ensureFlagGroup r m name)
  | outArgument referent n => f.ensureOutArgument referent n
  | identifier i => .ok (f.ensure i)
  | storage s t => .ok (f.ensureStorage s t)

/-- Every request comes down to the identifier it wants. -/
theorem run_eq (f : Frame) (r : FrameRequest) : r.run f = (r.wanted f.get).map f.ensure := by
  cases r with
  | outArgument referent n =>
    rw [run, wanted, Frame.ensureOutArgument]
    cases f.get referent with
    | error e => rfl
    | ok i => rfl
  | storage s t => cases s <;> rfl
  | register | stackArgument | stackLocal | fpuSlot | flagGroup | identifier => rfl

end FrameRequest

/-- Does an operation to a frame, which an operation that is refused leaves as it was. -/
def FrameOperation.run (f : Frame) : FrameOperation → FrameAnswer × Frame
  | ensure r =>
    match r.run f with
    | .ok (id, f') => (.ok (some id), f')
    | .error e => (.error e, f)
  | setDataType id t =>
    match f.setDataType id t with
    | .ok f' => (.ok none, f')
    | .error e => (.error e, f)

/-- The frame after operations one after the other. -/
def Frame.after (f : Frame) (ops : List FrameOperation) : Frame :=
  ops.foldl (fun f op => (op.run f).2) f

/-- The identifiers of a procedure with the table of their storages. -/
structure KeyedFrame where
  identifiers : List Identifier
  byStorage : Table Storage IdentifierId
  returnAddressSize : Int32

namespace KeyedFrame

def empty (returnAddressSize : Int32) : KeyedFrame := ⟨[], ∅, returnAddressSize⟩

/-- The frame without its table. -/
def toFrame (k : KeyedFrame) : Frame := ⟨k.identifiers, k.returnAddressSize⟩

def find? (k : KeyedFrame) (s : Storage) : Option IdentifierId := k.byStorage.get? s

/-- Answers the identifier bound to the storage of `i`; appends `i` and binds it when
there is none. -/
def ensure (k : KeyedFrame) (i : Identifier) : IdentifierId × KeyedFrame :=
  match k.byStorage.get? i.storage with
  | some id => (id, k)
  | none =>
    (k.identifiers.length,
      { k with
        identifiers := k.identifiers ++ [i]
        byStorage := k.byStorage.put i.storage k.identifiers.length })

def get (k : KeyedFrame) (id : IdentifierId) : Except Error Identifier :=
  match k.identifiers[id]? with
  | some i => .ok i
  | none => .error (.invalidIdentifier id)

def setDataType (k : KeyedFrame) (id : IdentifierId) (t : DataType) : FrameAnswer × KeyedFrame :=
  match k.identifiers[id]? with
  | some i => (.ok none, { k with identifiers := k.identifiers.set id { i with dataType := t } })
  | none => (.error (.invalidIdentifier id), k)

/-- Does an operation to a frame with its table. -/
def run (k : KeyedFrame) : FrameOperation → FrameAnswer × KeyedFrame
  | .ensure r =>
    match r.wanted k.get with
    | .ok i => (.ok (some (k.ensure i).1), (k.ensure i).2)
    | .error e => (.error e, k)
  | .setDataType id t => k.setDataType id t

/-- The frame after operations one after the other. -/
def after (k : KeyedFrame) (ops : List FrameOperation) : KeyedFrame :=
  ops.foldl (fun k op => (k.run op).2) k

end KeyedFrame
end Recovery
