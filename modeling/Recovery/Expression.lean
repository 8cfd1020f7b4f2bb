import Recovery.Frame
/-
  Expressions of recovered code.

  Expressions name identifiers by number; the text of an expression is read
  through the frame those numbers belong to. A call's target can be computed,
  so expressions and targets are defined together.
-/

namespace Recovery

inductive BinaryOp where
  | add
  | sub
  | mul
  | and
  | or
  | xor
  | eq
  | ne
  | lt
  | le
  | gt
  | ge
  deriving DecidableEq, Repr

inductive UnaryOp where
  | neg
  | not
  deriving DecidableEq, Repr

def BinaryOp.symbol : BinaryOp → String
  | add => "+"
  | sub => "-"
  | mul => "*"
  | and => "&"
  | or => "|"
  | xor => "^"
  | eq => "=="
  | ne => "!="
  | lt => "<"
  | le => "<="
  | gt => ">"
  | ge => ">="

def UnaryOp.symbol : UnaryOp → String
  | neg => "-"
  | not => "~"

mutual

/-- An expression. An `application` is a call with its arguments bound; an
`outArgument` is an identifier whose place is handed to the callee. -/
inductive Expression where
  | identifier (id : IdentifierId)
  | constant (value : Int) (bitSize : Nat)
  | binary (op : BinaryOp) (left right : Expression)
  | unary (op : UnaryOp) (operand : Expression)
  | application (callee : Callee) (arguments : List Expression)
  | outArgument (id : IdentifierId)

/-- The target of a call: a procedure of the program, a routine outside it, or
a computed place. -/
inductive Callee where
  | procedure (id : ProcedureId)
  | external (name : String)
  | indirect (target : Expression)

end

/-- A call with its arguments. -/
structure Application where
  callee : Callee
  arguments : List Expression

/-- The identifier an expression is, when it is one. -/
def Expression.identifier? : Expression → Option IdentifierId
  | identifier id => some id
  | _ => none

def Expression.application? : Expression → Option Application
  | application c as => some ⟨c, as⟩
  | _ => none

mutual

/-- The text of an expression in a frame. Operands stand without brackets. -/
def Expression.display (f : Frame) : Expression → String
  | .identifier id => f.nameOf id
  | .constant v _ => Numeral.signedHex v
  | .binary op l r => l.display f ++ " " ++ op.symbol ++ " " ++ r.display f
  | .unary op e => op.symbol ++ e.display f
  | .application c as => c.display f ++ "(" ++ String.intercalate ", " (displayAll f as) ++ ")"
  | .outArgument id => "out " ++ f.nameOf id

/-- The text of a call's target; a computed one stands in brackets. -/
def Callee.display (f : Frame) : Callee → String
  | .procedure p => Label.procedure p
  | .external n => n
  | .indirect e => "(" ++ e.display f ++ ")"

def displayAll (f : Frame) : List Expression → List String
  | [] => []
  | e :: es => e.display f :: displayAll f es

end

theorem displayAll_eq_map (f : Frame) (es : List Expression) :
    displayAll f es = es.map (Expression.display f) := by
  induction es with
  | nil => simp [displayAll]
  | cons e es ih => simp [displayAll, ih]

end Recovery
