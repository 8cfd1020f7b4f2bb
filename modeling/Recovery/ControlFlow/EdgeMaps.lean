import Recovery.ControlFlow.Graph
import Recovery.Table
/-
  The edges of a graph in memory.

  In memory edges stand in two maps, from each block to its successors and from each
  block to its predecessors. A block that is added gets a list in both unless it has
  one already; an edge is written to both, whether or not its ends were added. Nothing
  but these two operations keeps the maps in step.
-/

namespace Recovery

/-- For each block the blocks on the other side of its edges. -/
abbrev Neighbours := Table BlockId (List BlockId)

namespace Neighbours

/-- The list of a block; a block without one has no neighbour. -/
def of (t : Neighbours) (b : BlockId) : List BlockId := (t.get? b).getD []

/-- Gives a block a list unless it has one. -/
def touch (t : Neighbours) (b : BlockId) : Neighbours := if t.contains b then t else t.put b []

/-- Adds a neighbour to the list of a block. -/
def push (t : Neighbours) (b c : BlockId) : Neighbours := t.put b (t.of b ++ [c])

end Neighbours

/-- Both maps of a graph. -/
structure EdgeMaps where
  successors : Neighbours
  predecessors : Neighbours

namespace EdgeMaps

def empty : EdgeMaps := ⟨∅, ∅⟩

def addBlock (m : EdgeMaps) (b : BlockId) : EdgeMaps :=
  ⟨m.successors.touch b, m.predecessors.touch b⟩

def addEdge (m : EdgeMaps) (source target : BlockId) : EdgeMaps :=
  ⟨m.successors.push source target, m.predecessors.push target source⟩

end EdgeMaps
end Recovery
