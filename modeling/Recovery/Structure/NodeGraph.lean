import Recovery.ControlFlow.Order
/-
  The part of a control flow graph that its entry reaches.

  Each reachable block becomes a node, numbered in block order. Edges to blocks
  that are not reachable or were never added are left out, and every other edge
  is kept as often as it was declared, so nothing that dead code says can be
  read off the result. Where a block stood in its list is not part of the node
  graph for that reason; `positions` answers it from the list.
-/

namespace Recovery

/-- The reachable blocks of a procedure and the edges between them. -/
structure NodeGraph where
  blocks : List BlockId
  names : Vector String blocks.length
  successors : Vector (List (Fin blocks.length)) blocks.length
  predecessors : Vector (List (Fin blocks.length)) blocks.length
  entry : Fin blocks.length
  exit : Option (Fin blocks.length)

/-- How a block ends, told by the number of its successors. -/
inductive Branching where
  | returns
  | oneWay
  | twoWay
  | nWay
  deriving DecidableEq, Repr

def Branching.ofCount : Nat → Branching
  | 0 => returns
  | 1 => oneWay
  | 2 => twoWay
  | _ + 3 => nWay

namespace NodeGraph

abbrev size (g : NodeGraph) : Nat := g.blocks.length

/-- A node of the graph. -/
abbrev Node (g : NodeGraph) := Fin g.blocks.length

/-- The node graph over some blocks of a control flow graph; none when the entry is not
one of them. -/
def ofBlocks? (g : Graph) (blocks : List BlockId) : Option NodeGraph :=
  match blocks.finIdxOf? g.entry with
  | none => none
  | some entry => some {
      blocks
      names := .ofFn fun v : Fin blocks.length =>
        ((g.block? (blocks.get v)).map Block.name).getD ""
      successors := .ofFn fun v : Fin blocks.length =>
        (g.successors (blocks.get v)).filterMap blocks.finIdxOf?
      predecessors := .ofFn fun v : Fin blocks.length =>
        (g.predecessors (blocks.get v)).filterMap blocks.finIdxOf?
      entry
      exit := blocks.finIdxOf? g.exit }

/-- The node graph of a control flow graph; none when the entry was never added. -/
def ofGraph? (g : Graph) : Option NodeGraph :=
  let reached := g.reachable
  ofBlocks? g (g.blockIds.filter (reached.contains ·))

variable (g : NodeGraph)

def name (v : g.Node) : String := g.names.get v

/-- The successors of a node in declared order. -/
def next (v : g.Node) : List g.Node := g.successors.get v

/-- The predecessors of a node in the order the edges were added. -/
def previous (v : g.Node) : List g.Node := g.predecessors.get v

/-- The kind of branch a node ends in. -/
def branching (v : g.Node) : Branching := .ofCount (g.next v).length

/-- Where a node goes when its condition holds and when it fails: its first two
successors. -/
def branches? (v : g.Node) : Option (g.Node × g.Node) :=
  match g.next v with
  | taken :: fallen :: _ => some (taken, fallen)
  | _ => none

/-- Whether a node has a choice of successors. -/
def isConditional (v : g.Node) : Bool := (g.branches? v).isSome

def nodes : List g.Node := List.finRange g.size

def nodeNamed? (name : String) : Option g.Node := g.nodes.find? fun v => g.name v == name

/-- Where the block of each node stands in a block list, counted from one. -/
def positions (cfg : Graph) : Vector Nat g.size :=
  .ofFn fun v => (cfg.blockIds.idxOf (g.blocks.get v)) + 1

end NodeGraph
end Recovery
