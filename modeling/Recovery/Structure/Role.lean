import Recovery.Structure.PostDominators
/-
  The part each node plays in structured code, and how parts are written.

  A node heads a loop, a conditional, both, or neither. A head of a conditional
  knows where its branches meet again; a head of a loop knows the node that
  latches it and where the loop leads; a node inside knows its heads.
-/

namespace Recovery

/-- What a node heads. -/
inductive Heads where
  | nothing
  | conditional
  | loop
  | loopConditional
  deriving DecidableEq, Repr

/-- Why a conditional cannot be written as structured code: a branch crosses
the border of a loop, or leads into another switch. -/
inductive Jump where
  | none
  | acrossLoop
  | intoCase
  deriving DecidableEq, Repr

/-- The shape of a conditional. In `ifThen` the failing branch leads to where
both meet, in `ifElse` the other one does. -/
inductive ConditionalShape where
  | ifThen
  | ifElse
  | ifThenElse
  | switch
  deriving DecidableEq, Repr

/-- Where a loop is tested: at its head, at its latch, or at neither. -/
inductive LoopShape where
  | preTested
  | postTested
  | endless
  deriving DecidableEq, Repr

/-- The part of one of `n` nodes. `loopHead` is the head of the innermost loop
around it, `caseHead` the head of the switch around it; `latch`, `loopShape` and
`loopFollow` belong to heads of loops, `shape` and `follow` to conditionals. -/
structure Role (n : Nat) where
  heads : Heads
  jump : Jump
  shape : Option ConditionalShape
  follow : Option (Fin n)
  loopShape : Option LoopShape
  loopFollow : Option (Fin n)
  loopHead : Option (Fin n)
  latch : Option (Fin n)
  caseHead : Option (Fin n)
  deriving DecidableEq, Repr

/-- The part of a node before anything is known of it. -/
def Role.plain (n : Nat) : Role n :=
  ⟨.nothing, .none, none, none, none, none, none, none, none⟩

/-- The parts of `n` nodes. -/
abbrev Roles (n : Nat) := Vector (Role n) n

def Roles.edit {n : Nat} (roles : Roles n) (v : Fin n) (change : Role n → Role n) : Roles n :=
  roles.set v (change (roles.get v)) v.isLt

def Roles.editAll {n : Nat} (roles : Roles n) (vs : List (Fin n)) (change : Role n → Role n) :
    Roles n :=
  vs.foldl (fun roles v => roles.edit v change) roles

theorem Roles.get_edit {n : Nat} (roles : Roles n) (v w : Fin n)
    (change : Role n → Role n) :
    (roles.edit v change).get w = if v = w then change (roles.get v) else roles.get w := by
  show (roles.set v (change (roles.get v)) v.isLt)[w.val] = _
  rw [Vector.getElem_set]
  simp only [Fin.ext_iff]
  rfl

def Heads.isLoop : Heads → Bool
  | loop | loopConditional => true
  | nothing | conditional => false

/-- Whether a node heads a conditional, as a loop or not. -/
def Heads.isConditional : Heads → Bool
  | conditional | loopConditional => true
  | nothing | loop => false

def Heads.word : Heads → String
  | nothing => "Seq"
  | conditional => "Cond"
  | loop => "Loop"
  | loopConditional => "LoopCond"

def Jump.word : Jump → String
  | none => "Structured"
  | acrossLoop => "JumpInOutLoop"
  | intoCase => "JumpIntoCase"

def ConditionalShape.word : ConditionalShape → String
  | ifThen => "IfThen"
  | ifElse => "IfElse"
  | ifThenElse => "IfThenElse"
  | switch => "Case"

def LoopShape.word : LoopShape → String
  | preTested => "PreTested"
  | postTested => "PostTested"
  | endless => "Endless"

def Branching.word : Branching → String
  | returns => "Return"
  | oneWay => "OneWay"
  | twoWay => "TwoWay"
  | nWay => "NWay"

end Recovery
