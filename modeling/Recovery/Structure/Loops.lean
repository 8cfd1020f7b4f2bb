import Recovery.Structure.Role
/-
  Loops.

  Heads are tried in reverse leaving order, so an outer loop is marked before
  the loops inside it and inner heads overwrite outer ones. A head is latched by
  the predecessor of least `order` whose edge to it goes back, that lies in the
  same switch and the same loop so far, and that latches no loop around it. The
  members are the nodes between head and latch on a branch of either search.
-/

namespace Recovery.Loops
variable (g : NodeGraph) (k : Numbering g.size)

/-- Whether a predecessor can latch a head. -/
def canLatch (roles : Roles g.size) (head p : g.Node) : Bool :=
  decide ((roles.get p).caseHead = (roles.get head).caseHead)
    && decide ((roles.get p).loopHead = (roles.get head).loopHead)
    && !((roles.get p).loopHead.any fun h => decide ((roles.get h).latch = some p))
    && k.isBackEdge p head

/-- The latch of a head: of the predecessors that can latch it, the one of
least `order`, the first among equals. -/
def latch? (roles : Roles g.size) (head : g.Node) : Option g.Node :=
  ((g.previous head).filter (canLatch g k roles head)).foldl
    (fun best p => match best with
      | some l => if k.order.get p < k.order.get l then some p else some l
      | none => some p)
    none

/-- The members of a loop other than its head, highest `order` first. -/
def members (head latch : g.Node) : List g.Node :=
  (k.descending (k.order.get latch) (k.order.get head)).filter fun v =>
    decide (v = latch) || k.isBetween head v latch

/-- The shape of a loop: tested at a two-way latch, else at a two-way head whose
conditional leads out of it, else nowhere. -/
def shapeOf (headFollow : Option g.Node) (head latch : g.Node) (inside : g.Node → Bool) :
    LoopShape :=
  if g.branching latch = .twoWay then .postTested
  else if g.branching head = .twoWay then
    if headFollow.any inside then .endless else .preTested
  else .endless

/-- The branch of a conditional that leaves a loop, if one does. -/
def exit? (v : g.Node) (inside : g.Node → Bool) : Option g.Node :=
  match g.branches? v with
  | none => none
  | some (taken, fallen) =>
    if inside taken then (if inside fallen then none else some fallen) else some taken

/-- The follow of an endless loop: of the exits its conditionals take, the one
of highest `order`. Nodes are taken from the highest `order` down. A conditional
that follows inside the loop leads on to the nodes before its follow (those
below `bound`), and the search ends at one that follows above itself. -/
def endlessFollow (roles : Roles g.size) (head : g.Node) (inside : g.Node → Bool) :
    List g.Node → Nat → Option g.Node → Option g.Node
  | [], _, best => best
  | v :: rest, bound, best =>
    if bound ≤ k.order.get v then endlessFollow roles head inside rest bound best
    else if (roles.get v).heads = .conditional ∧ (roles.get v).loopHead = some head then
      match (roles.get v).follow with
      | none => endlessFollow roles head inside rest bound best
      | some f =>
        if inside f then
          if k.order.get f < k.order.get v then
            endlessFollow roles head inside rest (k.order.get f) best
          else best
        else
          let better := match exit? g v inside, best with
            | some s, some b => if k.order.get b < k.order.get s then some s else some b
            | some s, none => some s
            | none, b => b
          endlessFollow roles head inside rest bound better
    else endlessFollow roles head inside rest bound best

/-- Where a loop of a shape leads when it ends. -/
def followOf (roles : Roles g.size) (head latch : g.Node) (inside : g.Node → Bool) :
    LoopShape → Option g.Node
  | .preTested => (g.branches? head).map fun (taken, fallen) =>
      if inside taken then fallen else taken
  | .postTested => (g.branches? latch).map fun (taken, fallen) =>
      if taken = head then fallen else taken
  | .endless =>
    endlessFollow g k roles head inside (k.descending (k.order.get latch + 1) (k.order.get head))
      (k.order.get head) none

/-- Marks the loop of a head and its latch. -/
def mark (roles : Roles g.size) (head latch : g.Node) : Roles g.size :=
  let roles := roles.edit head fun r => { r with latch := some latch }
  let roles :=
    if latch ≠ head ∧ (roles.get latch).heads = .conditional then
      roles.edit latch fun r => { r with heads := .nothing }
    else roles
  let roles := roles.edit head fun r =>
    { r with
      heads := if g.branching head = .twoWay ∧ head ≠ latch then .loopConditional else .loop
      loopHead := some head }
  let body := members g k head latch
  let roles := roles.editAll body fun r => { r with loopHead := some head }
  let inside v := v == head || body.contains v
  let shape := shapeOf g (roles.get head).follow head latch inside
  roles.edit head fun r =>
    { r with
      loopShape := some shape
      loopFollow := followOf g k roles head latch inside shape }

/-- Marks the loop of a node, if it heads one. -/
def markAt (roles : Roles g.size) (head : g.Node) : Roles g.size :=
  match latch? g k roles head with
  | some latch => mark g k roles head latch
  | none => roles

/-- Marks every loop, outer ones first. -/
def classify (roles : Roles g.size) : Roles g.size :=
  k.ordering.reverse.foldl (markAt g k) roles

end Recovery.Loops
