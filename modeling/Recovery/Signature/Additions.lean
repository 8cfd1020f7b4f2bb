import Recovery.Frame.Keyed
import Recovery.Signature.Builder
/-
  What can be asked of a builder, in any order.

  `Addition` names the additions one by one, and beside them what may be done to the
  frame in between. A builder answers each addition with whether it was taken; only a
  register can be refused. An addition that names an identifier may be asked for when
  the frame has that identifier, and an argument may not be one that hands another
  identifier back.
-/

namespace Recovery.Signature.Builder

/-- What can be asked of a builder. -/
inductive Addition where
  | register (index : Nat)
  | stackArgument (offset : Int32) (id : IdentifierId)
  | fpuArgument (depth : Int32) (id : IdentifierId)
  | plain (id : IdentifierId)
  | result (id : IdentifierId)
  | frame (op : FrameOperation)
  deriving DecidableEq, Repr

/-- Does what is asked for, and says whether it was taken. -/
def add (b : Builder) : Addition → Except Error (Bool × Builder)
  | .register index => .ok (b.addRegister index)
  | .stackArgument offset id => .ok (true, b.addStackArgument offset id)
  | .fpuArgument depth id => .ok (true, b.addFpuArgument depth id)
  | .plain id => .ok (true, b.addPlain id)
  | .result id => do
    let b ← b.addResult id
    return (true, b)
  | .frame op => .ok (true, { b with frame := (op.run b.frame).2 })

/-- Does what is asked for one after the other, and says of each whether it was taken. -/
def addAll (b : Builder) : List Addition → Except Error (List Bool × Builder)
  | [] => .ok ([], b)
  | x :: rest => do
    let (taken, b) ← b.add x
    let (more, b) ← b.addAll rest
    return (taken :: more, b)

namespace Addition

def named : Addition → List IdentifierId
  | .stackArgument _ id | .fpuArgument _ id | .plain id | .result id => [id]
  | .register _ | .frame _ => []

/-- Whether an addition may be asked for over a frame, when some identifiers have been
named before: their types are not to be changed any more. -/
def allowed (f : Frame) (before : List IdentifierId) : Addition → Bool
  | .register _ => true
  | .stackArgument _ id | .fpuArgument _ id | .plain id =>
    (f.identifier? id).any fun i => !i.storage.isOutArgument
  | .result id => (f.identifier? id).isSome
  | .frame (.ensure _) => true
  | .frame (.setDataType id _) => !before.contains id

end Addition

/-- Whether additions may be asked for one after the other. -/
def permits (b : Builder) (before : List IdentifierId) : List Addition → Bool
  | [] => true
  | x :: rest => x.allowed b.frame before &&
    match b.add x with
    | .ok (_, b) => b.permits (before ++ x.named) rest
    | .error _ => true

end Recovery.Signature.Builder
