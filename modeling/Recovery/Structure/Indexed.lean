import Recovery.Loop
import Recovery.Structure.StructuredProcedure
/-
  Structuring by index.

  The passes once more, taken the way a machine takes them. Lists are read at
  places that were computed, successors among them by their number, and what is
  not a loop over the places of a list is a loop that goes on until it finds that
  it is done. Nothing bounds it from outside. A read that misses and a loop that
  does not end leave no answer.

  Nodes are numbered while the blocks are gone through, and a number stands for a
  node only if it is below the number of all nodes (`node?`). From there on the
  type of a node says that it is in range of every table over the nodes.

  What neither reads a list by place nor loops is taken from the passes as they
  are: stamps are read off a finished walk, and edges are told to go back by them.
-/

namespace Recovery.Indexed

/-! ## The node graph -/

/-- A turn of the search for the blocks an entry leads to. The block on top of those waiting
is taken; one that was added, and was not met before, leaves its successors waiting. -/
def reachTurn (g : Graph) :
    List BlockId × List BlockId → Option (Turn (List BlockId × List BlockId) (List BlockId))
  | ([], met) => some (.done met)
  | (b :: waiting, met) =>
    if g.hasBlock b && !met.contains b then
      some (.again ((g.successors b).reverse ++ waiting, b :: met))
    else some (.again (waiting, met))

/-- The blocks the entry leads to. -/
def reached (g : Graph) : Option (List BlockId) := untilDone (reachTurn g) ([g.entry], [])

/-- Makes a node for each block that was met, in block order, under the number of those made
before; answers the numbers and the blocks of the nodes. -/
def numberBlocks (g : Graph) (met : List BlockId) : List (BlockId × Nat) × List BlockId :=
  g.blockIds.foldl
    (fun (ids, blocks) b =>
      if met.contains b then ((b, blocks.length) :: ids, blocks ++ [b]) else (ids, blocks))
    ([], [])

/-- The node with a number, of so many. -/
def node? (count number : Nat) : Option (Fin count) :=
  if h : number < count then some ⟨number, h⟩ else none

/-- The node of a block, if the block has a number. -/
def nodeOf (ids : List (BlockId × Nat)) (count : Nat) (b : BlockId) :
    Option (Option (Fin count)) :=
  match ids.lookup b with
  | none => some none
  | some number => (node? count number).map some

/-- The nodes of some blocks; blocks that have no number are passed over. -/
def nodesOf (ids : List (BlockId × Nat)) (count : Nat) (bs : List BlockId) :
    Option (List (Fin count)) :=
  (bs.mapM (nodeOf ids count)).map (List.filterMap id)

/-- The node graph over numbered blocks; none when the entry has no number. -/
def nodeGraph (g : Graph) (ids : List (BlockId × Nat)) (blocks : List BlockId) :
    Option (Option NodeGraph) := do
  let successors ← Vector.ofFnM fun v : Fin blocks.length =>
    nodesOf ids blocks.length (g.successors (blocks.get v))
  let predecessors ← Vector.ofFnM fun v : Fin blocks.length =>
    nodesOf ids blocks.length (g.predecessors (blocks.get v))
  let exit ← nodeOf ids blocks.length g.exit
  match ← nodeOf ids blocks.length g.entry with
  | none => some none
  | some entry => some (some {
      blocks
      names := .ofFn fun v : Fin blocks.length =>
        ((g.block? (blocks.get v)).map Block.name).getD ""
      successors
      predecessors
      entry
      exit })

/-! ## Numbers -/

/-- A mark for each of `n` nodes. -/
abbrev Marks (n : Nat) := Vector Bool n

def Marks.clear (n : Nat) : Marks n := .replicate n false

def Marks.add {n : Nat} (marks : Marks n) (v : Fin n) : Marks n := marks.set v true v.isLt

/-- A search under way: the nodes entered and not left, the last one first, each with how many
of its neighbours were tried; the nodes marked; and the walk so far. -/
structure Search (n : Nat) where
  stack : List (Fin n × Nat)
  marked : Marks n
  walk : List (Visit (Fin n))

/-- A turn of a search: the next neighbour of the last node entered, counted from the far end
when the search goes backwards; or the end of that node when all were tried. -/
def searchTurn {n : Nat} (next : Fin n → List (Fin n)) (backwards : Bool) (s : Search n) :
    Option (Turn (Search n) (Marks n × List (Visit (Fin n)))) :=
  match s.stack with
  | [] => some (.done (s.marked, s.walk))
  | (v, tried) :: rest =>
    let edges := next v
    if tried < edges.length then do
      let w ← readAt edges (if backwards then (edges.length : Int) - 1 - tried else tried)
      if s.marked.get w then some (.again ⟨(v, tried + 1) :: rest, s.marked, s.walk⟩)
      else
        some (.again
          ⟨(w, 0) :: (v, tried + 1) :: rest, s.marked.add w, s.walk ++ [.enter w]⟩)
    else some (.again ⟨rest, s.marked, s.walk ++ [.leave v]⟩)

/-- Searches from a node that is not marked; answers the marks and the walk. -/
def search {n : Nat} (next : Fin n → List (Fin n)) (backwards : Bool) (marked : Marks n)
    (root : Fin n) : Option (Marks n × List (Visit (Fin n))) :=
  untilDone (searchTurn next backwards) ⟨[(root, 0)], marked.add root, [.enter root]⟩

/-- Searches from each root that earlier ones have not marked. -/
def searchAll {n : Nat} (next : Fin n → List (Fin n)) (roots : List (Fin n)) :
    Option (Marks n × List (Visit (Fin n))) :=
  roots.foldlM
    (fun (marked, walk) root =>
      if marked.get root then some (marked, walk)
      else (search next false marked root).map fun (marked, more) => (marked, walk ++ more))
    (.clear n, [])

/-- The nodes in the order a walk enters them. -/
def entered {α : Type} (walk : List (Visit α)) : List α :=
  walk.filterMap fun
    | .enter v => some v
    | .leave _ => none

/-- The nodes in the order a walk leaves them. -/
def left {α : Type} (walk : List (Visit α)) : List α :=
  walk.filterMap fun
    | .enter _ => none
    | .leave v => some v

def number (g : NodeGraph) : Option (Numbering g.size) := do
  let (_, forward) ← search g.next false (.clear g.size) g.entry
  let (_, opposite) ← search g.next true (.clear g.size) g.entry
  let (_, against) ← searchAll g.previous (g.exit.toList ++ left forward)
  some {
    ordering := left forward
    order := Numbering.places (left forward)
    revOrdering := left against
    revOrder := Numbering.places (left against)
    stamps := Numbering.stampTable forward
    revStamps := Numbering.stampTable opposite
    preorder := entered forward }

/-! ## Post-dominators -/

section
variable {n : Nat} (k : Numbering n) (limit : Nat)

/-- A turn of the walk up two chains of links, with the steps it has taken; `old` is what is
kept when no step is left. -/
def climbTurn (links : PostDominators n) (old : Fin n) :
    Option (Fin n) × Option (Fin n) × Nat →
      Option (Turn (Option (Fin n) × Option (Fin n) × Nat) (Option (Fin n)))
  | (cur, succ, steps) =>
    if steps < limit then
      match cur, succ with
      | some c, some s =>
        if c = s then some (.done cur)
        else if k.revOrder.get s < k.revOrder.get c then
          some (.again (cur, links.get s, steps + 1))
        else some (.again (links.get c, succ, steps + 1))
      | _, _ => some (.done cur)
    else some (.done (some old))

/-- Where two chains of links meet. -/
def meet (links : PostDominators n) : Option (Fin n) → Option (Fin n) → Option (Option (Fin n))
  | some a, some b => untilDone (climbTurn k limit links a) (some a, some b, 0)
  | some a, none => some (some a)
  | none, b => some b

/-- Gives a node the place where two chains meet. -/
def update (links : PostDominators n) (v : Fin n) (a b : Option (Fin n)) :
    Option (PostDominators n) := do
  some (links.set v (← meet k limit links a b) v.isLt)

/-- Takes a successor into a node's link, looking through a back edge. -/
def joinThrough (v : Fin n) (links : PostDominators n) (s : Fin n) : Option (PostDominators n) :=
  let own := links.get v
  let through := match links.get s, own with
    | some sp, some np =>
      if k.isBackEdge v s && decide (k.order.get sp < k.order.get np) then some sp else none
    | _, _ => none
  match through with
  | some sp => update k limit links v (some sp) own
  | none => update k limit links v own (some s)

end

section
variable (g : NodeGraph) (k : Numbering g.size) (limit : Nat)

def eachSuccessor {β : Type} (v : g.Node) (step : β → g.Node → Option β) (b : β) : Option β :=
  eachAt (g.next v) (List.range (g.next v).length) step b

def eachOrdered {β : Type} (step : β → g.Node → Option β) (b : β) : Option β :=
  eachAt k.ordering (List.range k.ordering.length) step b

/-- The first pass over the links. -/
def ascend (links : PostDominators g.size) : Option (PostDominators g.size) :=
  eachAt k.revOrdering (List.range k.revOrdering.length).reverse
    (fun links v => eachSuccessor g v
      (fun links s =>
        if k.revOrder.get v < k.revOrder.get s then update k limit links v (links.get v) (some s)
        else some links) links)
    links

/-- The second pass over the links. -/
def branch (links : PostDominators g.size) : Option (PostDominators g.size) :=
  eachOrdered g k
    (fun links v =>
      if (g.next v).length ≤ 1 then some links
      else eachSuccessor g v (fun links s => update k limit links v (links.get v) (some s)) links)
    links

/-- The third pass over the links. -/
def branchThrough (links : PostDominators g.size) : Option (PostDominators g.size) :=
  eachOrdered g k
    (fun links v =>
      if (g.next v).length ≤ 1 then some links
      else eachSuccessor g v (joinThrough k limit v) links)
    links

def postDominators : Option (PostDominators g.size) := do
  branchThrough g k limit (← branch g k limit (← ascend g k limit (.unknown g.size)))

end

/-! ## Conditionals -/

section
variable (g : NodeGraph) (k : Numbering g.size)

/-- The shape of a conditional, told by its second successor and then by its first. -/
def conditionalShape (v : g.Node) (follow : Option g.Node) : Option ConditionalShape :=
  if g.branching v = .nWay then some .switch
  else do
    let fallen ← (g.next v)[1]?
    if follow = some fallen then some .ifThen
    else do
      let taken ← (g.next v)[0]?
      if follow = some taken then some .ifElse else some .ifThenElse

/-- Makes a node a conditional of the shape its follow gives it. -/
def shape (roles : Roles g.size) (v : g.Node) : Option (Roles g.size) := do
  let shape ← conditionalShape g v (roles.get v).follow
  some (roles.edit v fun r => { r with heads := .conditional, shape := some shape })

/-- Puts a node on a stack and marks it, unless it is marked or is where a switch follows. -/
def push {n : Nat} (follow : Option (Fin n)) (state : List (Fin n) × Marks n) (s : Fin n) :
    List (Fin n) × Marks n :=
  if state.2.get s || decide (follow = some s) then state else (s :: state.1, state.2.add s)

/-- Tags a node of the body of a switch; the head itself is left as it is. -/
def tagNode {n : Nat} (head v : Fin n) (roles : Roles n) : Roles n :=
  if v ≠ head then roles.edit v fun r => { r with caseHead := some head } else roles

/-- A turn of tagging the body of a switch: the node on top of the stack is tagged, and the
nodes the body continues at are put on the stack. -/
def tagTurn (head : g.Node) (follow : Option g.Node) :
    List g.Node × Marks g.size × Roles g.size →
      Option (Turn (List g.Node × Marks g.size × Roles g.size) (Roles g.size × Marks g.size))
  | ([], marked, roles) => some (.done (roles, marked))
  | (v :: stack, marked, roles) =>
    let roles := tagNode head v roles
    if g.branching v = .nWay ∧ v ≠ head then
      let (stack, marked) := (roles.get v).follow.toList.foldl (push follow) (stack, marked)
      some (.again (stack, marked, roles))
    else do
      let (stack, marked) ← eachAt (g.next v) (List.range (g.next v).length).reverse
        (fun state s => some (if k.isBackEdge v s then state else push follow state s))
        (stack, marked)
      some (.again (stack, marked, roles))

/-- Tags the body of a switch. -/
def tag (head : g.Node) (follow : Option g.Node) (roles : Roles g.size) (marked : Marks g.size) :
    Option (Roles g.size × Marks g.size) :=
  untilDone (tagTurn g k head follow) ([head], marked.add head, roles)

def classifyConditional (links : PostDominators g.size) (state : Roles g.size × Marks g.size)
    (v : g.Node) : Option (Roles g.size × Marks g.size) :=
  if (g.next v).length ≤ 1 then some state
  else if Numbering.hasBackEdge g k v && decide (g.branching v = .twoWay) then do
    some (← shape g state.1 v, state.2)
  else do
    let follow := links.get v
    let roles ← shape g (state.1.edit v fun r => { r with follow := follow }) v
    if (roles.get v).shape = some .switch then tag g k v follow roles state.2
    else some (roles, state.2)

/-- The parts of the nodes once every conditional is classified. -/
def conditionals (links : PostDominators g.size) : Option (Roles g.size) := do
  let (roles, _) ← eachOrdered g k (classifyConditional g k links)
    (.replicate g.size (.plain g.size), .clear g.size)
  some roles

/-! ## Loops -/

/-- Whether a predecessor latches a head better than what was found so far. -/
def isBetterLatch (roles : Roles g.size) (head : g.Node) (best : Option g.Node) (p : g.Node) :
    Bool :=
  Loops.canLatch g k roles head p && best.all fun l => decide (k.order.get p < k.order.get l)

def latch? (roles : Roles g.size) (head : g.Node) : Option (Option g.Node) :=
  eachAt (g.previous head) (List.range (g.previous head).length)
    (fun best p => some (if isBetterLatch g k roles head best p then some p else best)) none

/-- The branch of a conditional that leaves a loop, if one does. -/
def exit? (v : g.Node) (members : Marks g.size) : Option (Option g.Node) := do
  let taken ← (g.next v)[0]?
  if members.get taken then do
    let fallen ← (g.next v)[1]?
    some (if members.get fallen then none else some fallen)
  else some (some taken)

/-- An exit, unless the best one so far has at least its `order`. -/
def later {n : Nat} (k : Numbering n) : Option (Fin n) → Option (Fin n) → Option (Fin n)
  | some s, some b => if k.order.get b < k.order.get s then some s else some b
  | some s, none => some s
  | none, best => best

/-- What the scan for the follow of an endless loop does at a node: it goes on to the place
below, or to that below the follow of a conditional that follows inside the loop. -/
def scanNode (roles : Roles g.size) (head : g.Node) (members : Marks g.size) (v : g.Node)
    (place : Int) (best : Option g.Node) :
    Option (Turn (Int × Option g.Node) (Option g.Node)) :=
  if (roles.get v).heads = .conditional ∧ (roles.get v).loopHead = some head then
    match (roles.get v).follow with
    | none => some (.again (place - 1, best))
    | some f =>
      if members.get f then
        if k.order.get f < k.order.get v then some (.again ((k.order.get f : Int) - 1, best))
        else some (.done best)
      else do
        some (.again (place - 1, later k (← exit? g v members) best))
  else some (.again (place - 1, best))

/-- A turn of the scan, at a place in leaving order; it is done at the place of the latch. -/
def scanTurn (roles : Roles g.size) (head : g.Node) (bottom : Int) (members : Marks g.size) :
    Int × Option g.Node → Option (Turn (Int × Option g.Node) (Option g.Node))
  | (place, best) =>
    if bottom < place then do
      scanNode g k roles head members (← readAt k.ordering place) place best
    else some (.done best)

/-- The follow of an endless loop. -/
def endlessFollow (roles : Roles g.size) (head latch : g.Node) (members : Marks g.size) :
    Option (Option g.Node) :=
  untilDone (scanTurn g k roles head (k.order.get latch) members)
    ((k.order.get head : Int) - 1, none)

/-- Where a loop of a shape leads when it ends. -/
def loopFollow (roles : Roles g.size) (head latch : g.Node) (members : Marks g.size) :
    LoopShape → Option (Option g.Node)
  | .preTested => do
    let taken ← (g.next head)[0]?
    if members.get taken then (g.next head)[1]?.map some else some (some taken)
  | .postTested => do
    let taken ← (g.next latch)[0]?
    if taken = head then (g.next latch)[1]?.map some else some (some taken)
  | .endless => endlessFollow g k roles head latch members

/-- Hands a loop out to its members, from the highest place in leaving order below its head
down to its latch. -/
def enlist (roles : Roles g.size) (head latch : g.Node) : Option (Roles g.size × Marks g.size) :=
  let low := k.order.get latch
  eachAt k.ordering (List.range' low (k.order.get head - low)).reverse
    (fun (roles, members) v =>
      some (if decide (v = latch) || k.isBetween head v latch then
        (roles.edit v fun r => { r with loopHead := some head }, members.add v)
      else (roles, members)))
    (roles, (Marks.clear g.size).add head)

def mark (roles : Roles g.size) (head latch : g.Node) : Option (Roles g.size) := do
  let roles := roles.edit head fun r => { r with latch := some latch }
  let roles :=
    if latch ≠ head ∧ (roles.get latch).heads = .conditional then
      roles.edit latch fun r => { r with heads := .nothing }
    else roles
  let roles := roles.edit head fun r => { r with heads := .loop, loopHead := some head }
  let (roles, members) ← enlist g k roles head latch
  let shape := Loops.shapeOf g (roles.get head).follow head latch members.get
  let roles :=
    if g.branching head = .twoWay ∧ head ≠ latch then
      roles.edit head fun r => { r with heads := .loopConditional }
    else roles
  let follow ← loopFollow g k roles head latch members shape
  some (roles.edit head fun r => { r with loopShape := some shape, loopFollow := follow })

def markAt (roles : Roles g.size) (head : g.Node) : Option (Roles g.size) := do
  match ← latch? g k roles head with
  | some latch => mark g k roles head latch
  | none => some roles

def loops (roles : Roles g.size) : Option (Roles g.size) :=
  eachAt k.ordering (List.range k.ordering.length).reverse (markAt g k) roles

/-! ## Jumps -/

def shapeToward (v target : g.Node) : Option (Option ConditionalShape) := do
  let leads (b : g.Node) := b == target || k.isAncestor b target
  let taken ← (g.next v)[0]?
  if leads taken then some (some .ifElse)
  else do
    let fallen ← (g.next v)[1]?
    if leads fallen then some (some .ifThen) else some none

def shapeTowardAny (v : g.Node) : Option g.Node → Option (Option ConditionalShape)
  | none => some none
  | some target => shapeToward g k v target

/-- The shape forced on a conditional that follows at a node of another loop. -/
def crossing (roles : Roles g.size) (v follow : g.Node) : Option (Option ConditionalShape) :=
  let own := Jumps.loopOf g roles v
  let other := (roles.get follow).loopHead
  if own = other then some none
  else do
    match ← shapeTowardAny g k v (own.bind fun h => (roles.get h).latch) with
    | some shape => some (some shape)
    | none => shapeTowardAny g k v other

/-- Judges the conditional at a node. -/
def check (roles : Roles g.size) (v : g.Node) : Option (Roles g.size) :=
  let r := roles.get v
  if r.heads.isConditional = false ∨ r.shape = some .switch then some roles
  else match r.follow with
    | none => some roles
    | some follow => do
      match ← crossing g k roles v follow with
      | some shape =>
        some (roles.edit v fun r => { r with jump := .acrossLoop, shape := some shape })
      | none =>
        if (g.next v).any fun s => decide ((roles.get s).caseHead ≠ (roles.get v).caseHead) then
          some (roles.edit v fun r => { r with jump := .intoCase })
        else some roles

/-- Marks a node that a back edge leaves without being a latch. -/
def flag (roles : Roles g.size) (v : g.Node) : Roles g.size :=
  if (roles.get v).jump = .none ∧ Jumps.hasUnlatchedBackEdge g k roles v then
    roles.edit v fun r => { r with jump := .acrossLoop }
  else roles

def jumps (roles : Roles g.size) : Option (Roles g.size) := do
  let roles ← eachOrdered g k (check g k) roles
  eachOrdered g k (fun roles v => some (flag g k roles v)) roles

def find (links : PostDominators g.size) : Option (Roles g.size) := do
  jumps g k (← loops g k (← conditionals g k links))

end

/-! ## Both halves -/

/-- Finds the structure of a procedure. -/
def analyze (p : Procedure) (walkLimit : Nat) : Option (Except Error StructuredProcedure) :=
  if p.graph.hasBlock p.graph.entry = false then some (.error (.missingEntry p.name))
  else do
    let met ← reached p.graph
    let (ids, blocks) := numberBlocks p.graph met
    match ← nodeGraph p.graph ids blocks with
    | none => some (.error (.missingEntry p.name))
    | some graph => do
      let numbering ← number graph
      let postDominators ← postDominators graph numbering walkLimit
      let roles ← find graph numbering postDominators
      some (.ok {
        name := p.name
        graph
        positions := graph.positions p.graph
        numbering
        postDominators
        roles })

end Recovery.Indexed
