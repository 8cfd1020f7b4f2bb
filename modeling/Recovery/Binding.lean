import Recovery.Program
import Recovery.Settings
import Recovery.Signature.Synthesis
/-
  Binding calls to the signatures of their callees.

  A call is bound in the caller's frame: each parameter of the callee becomes
  the caller's identifier for the same place, seen from the call. Nothing else
  of the callee is looked at, so all signatures are made before the first call
  is bound.
-/

namespace Recovery.Binding

/-- The caller's identifier for a place of the callee that holds a value of some
type. Registers and flags keep their place; a stack argument lies in what the
caller has pushed, or beyond it among the caller's own arguments; a slot of the
floating point stack is counted from the depth at the call; an out-argument
stands for its referent. -/
def place (a : Architecture) (site : CallSite) (f : Frame) (t : DataType) :
    Storage → IdentifierId × Frame
  | .register i n =>
    match a.register? i with
    | some r => f.ensureRegister r
    | none => f.ensureStorage (.register i n) t
  | .stackArgument o _ =>
    let offset := o - a.returnAddressSize - site.stackDepth
    if offset < 0 then f.ensureStackLocal offset t
    else f.ensureStackArgument (offset + f.returnAddressSize) t
  | .stackLocal o n => f.ensureStorage (.stackLocal o n) t
  | .fpuStackArgument d => f.ensureFpuSlot (d + site.fpuDepth) t
  | .flagGroup r m => f.ensureFlagGroup r m (a.flagGroupName m)
  | .outArgument _ u referent => place a site f u referent

/-- The caller's identifier for an identifier of the callee. -/
def identifier (a : Architecture) (site : CallSite) (f : Frame) (i : Identifier) :
    IdentifierId × Frame :=
  place a site f i.dataType i.storage

/-- The argument for a parameter of the callee: handed out for an out-argument,
read for any other. -/
def argument (a : Architecture) (site : CallSite) (f : Frame) (i : Identifier) :
    Expression × Frame :=
  let (id, frame) := identifier a site f i
  (if i.storage.isOutArgument then .outArgument id else .identifier id, frame)

/-- The arguments for the parameters of the callee, bound in order. -/
def arguments (a : Architecture) (site : CallSite) : Frame → List Identifier → List Expression × Frame
  | f, [] => ([], f)
  | f, i :: rest =>
    let (e, f) := argument a site f i
    let (es, f) := arguments a site f rest
    (e :: es, f)

/-- A call bound to a signature: its result assigned, or evaluated for its
effect when there is none. -/
def call (a : Architecture) (f : Frame) (callee : Callee) (site : CallSite) (s : Signature) :
    Instruction × Frame :=
  let (es, f) := arguments a site f s.parameters
  match s.returnValue with
  | none => (.sideEffect (.application callee es), f)
  | some r =>
    let (target, f) := identifier a site f r
    (.assignment target (.application callee es), f)

/-- How many calls were bound and left alone, and how many returns were given
the return value. -/
structure Counts where
  bound : Nat
  unresolved : Nat
  returns : Nat
  deriving DecidableEq, Repr

namespace Counts

def zero : Counts := ⟨0, 0, 0⟩

def add (c d : Counts) : Counts :=
  ⟨c.bound + d.bound, c.unresolved + d.unresolved, c.returns + d.returns⟩

instance : Add Counts := ⟨add⟩

def oneBound : Counts := ⟨1, 0, 0⟩

def oneUnresolved : Counts := ⟨0, 1, 0⟩

end Counts

/-- The signature a call's target has in a table; only procedures of the program
have one. -/
def signatureOf? (table : SignatureTable) : Callee → Option Signature
  | .procedure p => table.get? p
  | .external _ | .indirect _ => none

/-- Binds the call of one statement, if it is one whose target has a signature. -/
def statement (a : Architecture) (table : SignatureTable) (f : Frame) (s : Statement) :
    Statement × Frame × Counts :=
  match s.instruction with
  | .call callee site =>
    match signatureOf? table callee with
    | none => (s, f, .oneUnresolved)
    | some signature =>
      let (instruction, f) := call a f callee site signature
      ({ s with instruction }, f, .oneBound)
  | _ => (s, f, .zero)

def statements (a : Architecture) (table : SignatureTable) :
    Frame → List Statement → List Statement × Frame × Counts
  | f, [] => ([], f, .zero)
  | f, s :: rest =>
    let (s, f, c) := statement a table f s
    let (rest, f, d) := statements a table f rest
    (s :: rest, f, c + d)

def blocks (a : Architecture) (table : SignatureTable) :
    Frame → List Block → List Block × Frame × Counts
  | f, [] => ([], f, .zero)
  | f, b :: rest =>
    let (body, f, c) := statements a table f b.statements
    let (rest, f, d) := blocks a table f rest
    ({ b with statements := body } :: rest, f, c + d)

/-- Binds the calls of a procedure. -/
def calls (a : Architecture) (table : SignatureTable) (q : Procedure) : Procedure × Counts :=
  let (bs, frame, counts) := blocks a table q.frame q.graph.blocks
  ({ q with frame, graph := { q.graph with blocks := bs } }, counts)

/-- Makes a return carry an identifier; other statements stay as they are. -/
def carry (id : IdentifierId) (s : Statement) : Statement :=
  match s.instruction with
  | .leave _ => { s with instruction := .leave (some (.identifier id)) }
  | _ => s

def isReturn (s : Statement) : Bool :=
  match s.instruction with
  | .leave _ => true
  | _ => false

/-- Makes every return of a procedure carry its return value, and counts them.
Without a return value nothing changes. -/
def returns (q : Procedure) : Procedure × Nat :=
  match q.signature.returnValue with
  | none => (q, 0)
  | some r =>
    let (id, frame) := q.frame.ensure r
    ({ q with frame }.mapStatements (carry id),
      (q.graph.blocks.flatMap Block.statements).countP isReturn)

/-- Binds the calls and returns of a procedure. -/
def procedure (a : Architecture) (table : SignatureTable) (q : Procedure) : Procedure × Counts :=
  let (q, counts) := calls a table q
  let (q, n) := returns q
  (q, { counts with returns := n })

end Recovery.Binding

namespace Recovery.Program

/-- Binds the calls and returns of every procedure to a table of signatures. -/
def bindCalls (p : Program) (table : SignatureTable) : Program × Binding.Counts :=
  let bound := p.procedures.map (Binding.procedure p.architecture table)
  ({ p with procedures := bound.map Prod.fst }, (bound.map Prod.snd).foldl (· + ·) .zero)

/-- Gives every procedure a signature and then binds every call and return. -/
def recoverCalls (settings : Settings) (p : Program) (summaries : Summaries) :
    Except Error (Program × Summaries × SignatureTable) := do
  let (p, summaries, table) ← p.synthesize settings summaries
  return ((p.bindCalls table).1, summaries, table)

end Recovery.Program
