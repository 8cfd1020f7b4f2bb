import Recovery.Structure.Role
/-
  Conditionals.

  Nodes with a choice of successors are taken in leaving order, so a switch
  inside another one is done before it. A two-way node with a back edge is left
  to the loops and gets no follow; every other one follows at its immediate
  post-dominator. The body of a switch is what a search from its head finds
  without going back, past the follow, or into a switch inside it; each node
  belongs to the first switch that finds it.
-/

namespace Recovery.Conditionals
variable (g : NodeGraph) (k : Numbering g.size)

/-- The shape of a conditional that follows at a node or nowhere. -/
def shapeOf (v : g.Node) (follow : Option g.Node) : ConditionalShape :=
  if g.branching v = .nWay then .switch
  else match g.branches? v with
    | none => .ifThenElse
    | some (taken, fallen) =>
      if follow = some fallen then .ifThen
      else if follow = some taken then .ifElse
      else .ifThenElse

/-- Where the body of a switch continues after one of its nodes: at the follow
of a switch inside it, or at the successors not led to by a back edge. -/
def bodyNext (roles : Roles g.size) (follow : Option g.Node) (v : g.Node) : List g.Node :=
  let targets :=
    if g.branching v = .nWay then (roles.get v).follow.toList
    else (g.next v).filter fun s => !k.isBackEdge v s
  targets.filter fun s => follow ≠ some s

/-- The nodes a switch finds for its body, and the nodes any switch has found
up to then. -/
def body (roles : Roles g.size) (head : g.Node) (follow : Option g.Node) (found : List g.Node) :
    List g.Node × List g.Node :=
  let first := (g.next head).filter fun s => !k.isBackEdge head s && decide (follow ≠ some s)
  let result := Forest.grow (bodyNext g k roles follow) g.size first (head :: found)
  (result.1.preorder, result.2)

/-- Classifies one node with a choice. -/
def classifyOne (links : PostDominators g.size) (state : Roles g.size × List g.Node)
    (v : g.Node) : Roles g.size × List g.Node :=
  let (roles, found) := state
  if Numbering.hasBackEdge g k v && decide (g.branching v = .twoWay) then
    (roles.edit v fun r =>
      { r with heads := .conditional, shape := some (shapeOf g v r.follow) }, found)
  else
    let follow := links.get v
    let shape := shapeOf g v follow
    let roles := roles.edit v fun r =>
      { r with heads := .conditional, shape := some shape, follow := follow }
    if shape = .switch then
      let (members, found) := body g k roles v follow found
      (roles.editAll members fun r => { r with caseHead := some v }, found)
    else (roles, found)

/-- The parts of the nodes once every conditional is classified. -/
def classify (links : PostDominators g.size) : Roles g.size :=
  ((k.ordering.filter g.isConditional).foldl (classifyOne g k links)
    (.replicate g.size (.plain g.size), [])).1

end Recovery.Conditionals
