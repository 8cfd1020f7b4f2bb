import Recovery.Expression
/-
  Statements: instructions at addresses.

  A call starts as a placeholder that knows its target and the depth of both
  stacks at the call; binding it to a signature turns it into an assignment or
  a side effect whose expression is an application.
-/

namespace Recovery

/-- The state of both stacks at a call: the bytes pushed below the caller's
entry stack pointer, and the slots of the floating point stack in use. -/
structure CallSite where
  stackDepth : Int32
  fpuDepth : Int32
  deriving DecidableEq, Repr

/-- One instruction. A `leave` returns from the procedure, with a value or
without; a `use` reads an expression so that it stays live to the exit, and
names the parameter it is handed back through. -/
inductive Instruction where
  | assignment (target : IdentifierId) (source : Expression)
  | sideEffect (expression : Expression)
  | branch (condition : Expression) (target : String)
  | call (callee : Callee) (site : CallSite)
  | leave (expression : Option Expression)
  | use (expression : Expression) (out : Option IdentifierId)

namespace Instruction

/-- The bound call an instruction makes, when it makes one. -/
def application? : Instruction → Option Application
  | assignment _ e => e.application?
  | sideEffect e => e.application?
  | _ => none

def isCall : Instruction → Bool
  | call .. => true
  | _ => false

def display (f : Frame) : Instruction → String
  | assignment t e => f.nameOf t ++ " = " ++ e.display f
  | sideEffect e => e.display f
  | branch c t => "branch " ++ c.display f ++ " " ++ t
  | call c _ => "call " ++ c.display f
  | leave none => "return"
  | leave (some e) => "return " ++ e.display f
  | use e none => "use " ++ e.display f
  | use e (some out) => "use " ++ e.display f ++ " (" ++ f.nameOf out ++ ")"

end Instruction

/-- An instruction at an address. -/
structure Statement where
  address : Nat
  instruction : Instruction

/-- A basic block: a name and the statements that run one after the other. -/
structure Block where
  id : BlockId
  name : String
  statements : List Statement

namespace Block

def empty (id : BlockId) (name : String) : Block := ⟨id, name, []⟩

def push (b : Block) (s : Statement) : Block := { b with statements := b.statements ++ [s] }

def address? (b : Block) : Option Nat := b.statements.head?.map Statement.address

end Block
end Recovery
