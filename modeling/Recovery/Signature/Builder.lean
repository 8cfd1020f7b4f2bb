import Recovery.Architecture.Basic
import Recovery.Frame
import Recovery.Signature.Basic
import Recovery.Table
/-
  Building a signature argument by argument.

  Parameters stand in the order in which they were added. An offset on the
  stack, and a depth on the floating point stack, holds one parameter, which
  keeps its place when a wider identifier replaces it. The first result becomes
  the return value; each later one is handed back through a pointer.
-/

namespace Recovery.Signature

/-- A signature being built over a frame. `stackSlots` and `fpuSlots` say which
parameter stands for an offset or a depth. -/
structure Builder where
  architecture : Architecture
  frame : Frame
  returnValue : Option IdentifierId
  parameters : List IdentifierId
  registers : List Nat
  stackSlots : Table Int32 Nat
  fpuSlots : Table Int32 Nat
  fpuStackDelta : Int32
  fpuOutMax : Int32

namespace Builder

/-- Nothing added yet. -/
def start (a : Architecture) (f : Frame) (fpuStackDelta fpuOutMax : Int32) : Builder :=
  ⟨a, f, none, [], [], .empty, .empty, fpuStackDelta, fpuOutMax⟩

/-- Makes a group of flags the return value; without a flags register nothing happens. -/
def addFlagGroup (b : Builder) (mask : Nat) : Builder :=
  match b.architecture.flagsRegister with
  | none => b
  | some flags =>
    let (id, frame) :=
      b.frame.ensureFlagGroup flags.index mask (b.architecture.flagGroupName mask)
    { b with frame, returnValue := some id }

/-- Adds a register argument and says whether it was taken. An index without
definition, one added before and a part of one added before are not taken. -/
def addRegister (b : Builder) (index : Nat) : Bool × Builder :=
  match b.architecture.register? index with
  | none => (false, b)
  | some r =>
    if b.architecture.isPartOfAny index b.registers || b.registers.contains index then (false, b)
    else
      let (id, frame) := b.frame.ensureRegister r
      (true, { b with
        frame
        registers := b.registers ++ [index]
        parameters := b.parameters ++ [id] })

/-- The parameters and slots after an identifier was offered for a slot: a free
slot takes it at the end, a taken one if it is wider than the one that stands there. -/
def offer (f : Frame) (parameters : List IdentifierId) (slots : Table Int32 Nat) (slot : Int32)
    (id : IdentifierId) : List IdentifierId × Table Int32 Nat :=
  match slots.get? slot with
  | none => (parameters ++ [id], slots.put slot parameters.length)
  | some place =>
    match parameters[place]? with
    | none => (parameters, slots)
    | some old =>
      if f.widthOf old < f.widthOf id then (parameters.set place id, slots) else (parameters, slots)

/-- Adds a stack argument at the offset a caller sees. -/
def addStackArgument (b : Builder) (offset : Int32) (id : IdentifierId) : Builder :=
  let (parameters, stackSlots) := offer b.frame b.parameters b.stackSlots offset id
  { b with parameters, stackSlots }

def addFpuArgument (b : Builder) (depth : Int32) (id : IdentifierId) : Builder :=
  let (parameters, fpuSlots) := offer b.frame b.parameters b.fpuSlots depth id
  { b with parameters, fpuSlots }

def addPlain (b : Builder) (id : IdentifierId) : Builder :=
  { b with parameters := b.parameters ++ [id] }

/-- Adds a result: the return value if there is none, else a parameter that
hands it back, which is there at most once. -/
def addResult (b : Builder) (id : IdentifierId) : Except Error Builder :=
  match b.returnValue with
  | none => .ok { b with returnValue := some id }
  | some _ => do
    let (out, frame) ← b.frame.ensureOutArgument id b.architecture.pointerBitSize
    let parameters := if b.parameters.contains out then b.parameters else b.parameters ++ [out]
    return { b with frame, parameters }

/-- The valid signature of what was added. -/
def build (b : Builder) : Except Error Signature := do
  let returnValue ← match b.returnValue with
    | none => pure none
    | some id => some <$> b.frame.get id
  let parameters ← b.parameters.mapM b.frame.get
  return { determined returnValue parameters with
    fpuStackDelta := b.fpuStackDelta
    fpuOutMax := b.fpuOutMax }

end Builder
end Recovery.Signature
