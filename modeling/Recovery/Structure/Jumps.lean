import Recovery.Structure.Role
/-
  Branches that cannot be written as structured code.

  Every node is judged on its own from the parts already given out. A
  conditional whose follow lies in another loop than itself, and one of whose
  branches leads to or above the latch of its own loop or the head of the other,
  jumps across a loop. Failing that, a conditional with a successor in another
  switch body jumps into a case. Last, a back edge that its target does not take
  as its latch makes its source jump across a loop, whatever the source is.
-/

namespace Recovery.Jumps
variable (g : NodeGraph) (k : Numbering g.size)

/-- The shape forced on a conditional by a branch that leads to a node or above
it: the other branch must be the one that goes on. -/
def shapeToward (v target : g.Node) : Option ConditionalShape :=
  let leads (b : g.Node) := b == target || k.isAncestor b target
  match g.branches? v with
  | none => none
  | some (taken, fallen) =>
    if leads taken then some .ifElse
    else if leads fallen then some .ifThen
    else none

/-- The loop a conditional belongs to: its own when it heads one. -/
def loopOf (roles : Roles g.size) (v : g.Node) : Option g.Node :=
  if (roles.get v).heads = .loopConditional then some v else (roles.get v).loopHead

/-- The shape forced on a conditional that follows at a node of another loop. -/
def crossing (roles : Roles g.size) (v follow : g.Node) : Option ConditionalShape :=
  let own := loopOf g roles v
  let other := (roles.get follow).loopHead
  if own = other then none
  else
    ((own.bind fun h => (roles.get h).latch).bind (shapeToward g k v)).or
      (other.bind (shapeToward g k v))

/-- The part of a node after its conditional has been judged. -/
def judged (roles : Roles g.size) (v : g.Node) : Role g.size :=
  let r := roles.get v
  match r.follow with
  | none => r
  | some follow =>
    if r.heads.isConditional = false ∨ r.shape = some .switch then r
    else match crossing g k roles v follow with
      | some shape => { r with jump := .acrossLoop, shape := some shape }
      | none =>
        if (g.next v).any fun s => decide ((roles.get s).caseHead ≠ r.caseHead) then
          { r with jump := .intoCase }
        else r

/-- Whether a node has a back edge that its target does not take as its latch. -/
def hasUnlatchedBackEdge (roles : Roles g.size) (v : g.Node) : Bool :=
  (g.next v).any fun s => k.isBackEdge v s && decide ((roles.get s).latch ≠ some v)

def judge (roles : Roles g.size) : Roles g.size := .ofFn (judged g k roles)

/-- The parts of the nodes once the back edges left over are marked. -/
def markUnlatched (roles : Roles g.size) : Roles g.size :=
  .ofFn fun v =>
    if (roles.get v).jump = .none ∧ hasUnlatchedBackEdge g k roles v then
      { roles.get v with jump := .acrossLoop }
    else roles.get v

/-- The parts of the nodes with every jump marked. -/
def classify (roles : Roles g.size) : Roles g.size := markUnlatched g k (judge g k roles)

end Recovery.Jumps
