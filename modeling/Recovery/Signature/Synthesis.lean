import Recovery.Program
import Recovery.Settings
import Recovery.Signature.Builder
import Recovery.Summary
/-
  Signatures from dataflow summaries.

  A procedure's signature lists its results, then its register, stack and
  floating point arguments. The flags come first among the results, then the
  registers it writes and callers look at, then slots of the floating point
  stack; the first of them is the return value and the others are handed back
  through parameters at the end. Registers passed as a matter of course are left
  out, and so is a register that is a part of another one listed.

  One procedure's signature depends on nothing but the procedure, its summary,
  the architecture and the platform, so the procedures of a program are treated
  each on its own.
-/

namespace Recovery.Synthesis

/-- Puts an identifier into slots sorted by offset. Of two at one offset the
wider stays, the earlier among equals. -/
def insertSlot (f : Frame) (offset : Int32) (id : IdentifierId) :
    List (Int32 × IdentifierId) → List (Int32 × IdentifierId)
  | [] => [(offset, id)]
  | (o, other) :: rest =>
    if offset < o then (offset, id) :: (o, other) :: rest
    else if offset = o then
      if f.widthOf other < f.widthOf id then (o, id) :: rest else (o, other) :: rest
    else (o, other) :: insertSlot f offset id rest

/-- The widest identifier of a kind of storage at each external offset from
`first` on, by ascending offset. -/
def slots (f : Frame) (kind : StorageKind) (first : Int32) : List (Int32 × IdentifierId) :=
  f.identifiers.zipIdx.foldl
    (fun found (i, id) =>
      match f.externalOffset? id with
      | some offset =>
        if i.storage.kind = kind ∧ first ≤ offset then insertSlot f offset id found else found
      | none => found)
    []

/-- The members of a set that a signature lists: those not passed as a matter of
course and not a part of another member. -/
def listed (a : Architecture) (p : Platform) (s : RegisterSet) : List Nat :=
  let members := (s \ p.implicitRegisters).toList
  members.filter fun i => !a.isPartOfAny i members

/-- Adds the identifier of a stack slot, narrowed to its observed width. -/
def addStackSlot (s : Summary) (b : Signature.Builder) (slot : Int32 × IdentifierId) :
    Except Error Signature.Builder := do
  let (offset, id) := slot
  let frame ← match s.stackArguments.get? id with
    | none => pure b.frame
    | some bits => do
      let i ← b.frame.get id
      b.frame.setDataType id (i.dataType.narrow bits)
  return { b with frame }.addStackArgument offset id

/-- Adds the result in a register; an index without definition has none. -/
def addRegisterResult (b : Signature.Builder) (index : Nat) : Except Error Signature.Builder :=
  match b.architecture.register? index with
  | none => .ok b
  | some r =>
    let (id, frame) := b.frame.ensureRegister r
    { b with frame }.addResult id

/-- Adds the result in a slot of the floating point stack, if it is not too deep. -/
def addFpuResult (b : Signature.Builder) (slot : Int32 × IdentifierId) :
    Except Error Signature.Builder := do
  let (depth, id) := slot
  if depth ≤ b.fpuOutMax then
    let i ← b.frame.get id
    let (id, frame) := b.frame.ensureFpuSlot depth i.dataType
    { b with frame }.addResult id
  else return b

/-- Everything a summary and a frame say of a signature, added in order. -/
def assemble (a : Architecture) (p : Platform) (s : Summary) (start : Signature.Builder) :
    Except Error Signature.Builder := do
  let b := if s.flagsLiveOut = 0 then start else start.addFlagGroup s.flagsLiveOut
  let b := (listed a p s.mayUse).foldl (fun b i => (b.addRegister i).2) b
  let b ← (slots b.frame .stackArgument 0).foldlM (addStackSlot s) b
  let b := (slots b.frame .fpuStackArgument 0).foldl
    (fun b (depth, id) => b.addFpuArgument depth id) b
  let b ← (listed a p s.liveOut).foldlM addRegisterResult b
  (slots b.frame .fpuStackArgument (-b.fpuStackDelta)).foldlM addFpuResult b

/-- Gives a procedure a signature from its summary and says whether it did. A
valid signature stays as it is. -/
def ensureSignature (a : Architecture) (p : Platform) (q : Procedure) (s : Summary) :
    Except Error (Bool × Procedure × Summary) := do
  if q.signature.valid then return (false, q, s)
  else
    let b ← assemble a p s
      (.start a q.frame q.signature.fpuStackDelta q.signature.fpuOutMax)
    let signature ← b.build
    let q ← { q with frame := b.frame }.setSignature signature
    return (true, q, { s with signature := some signature })

/-- The uses that keep the referents of a procedure's register out-arguments
live, in the order of the parameters. -/
def outArgumentUses (q : Procedure) : List Statement :=
  (q.signature.parameters.filter fun i => i.storage.isRegisterOutArgument).filterMap fun i => do
    let referent ← i.storage.referent?
    let source ← q.frame.find? referent.storage
    let out ← q.frame.find? i.storage
    return ⟨0, .use (.identifier source) (some out)⟩

/-- Puts the uses at the head of the exit block. -/
def addOutArgumentUses (q : Procedure) : Procedure :=
  { q with
    graph := q.graph.modifyBlock q.graph.exit fun b =>
      { b with statements := outArgumentUses q ++ b.statements } }

/-- What becomes of one procedure and its summary. -/
def treat (settings : Settings) (a : Architecture) (p : Platform) (q : Procedure) (s : Summary) :
    Except Error (Procedure × Summary) := do
  let (made, q, s) ← ensureSignature a p q s.narrowLiveOut
  return (if made && settings.outArgumentUses then addOutArgumentUses q else q, s)

end Recovery.Synthesis

namespace Recovery

/-- Gives every procedure of a program a signature, and a summary to those that
had none. Answers also the table of signatures. -/
def Program.synthesize (settings : Settings) (p : Program) (summaries : Summaries) :
    Except Error (Program × Summaries × SignatureTable) := do
  let treated ← p.procedures.mapM fun q =>
    Synthesis.treat settings p.architecture p.platform q (summaries.of q.id)
  let p := { p with procedures := treated.map Prod.fst }
  let summaries := treated.foldl (fun t (q, s) => t.put q.id s) summaries
  return (p, summaries, p.signatures)

end Recovery
