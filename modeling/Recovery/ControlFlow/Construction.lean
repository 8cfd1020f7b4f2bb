import Recovery.ControlFlow.EdgeMaps
/-
  Graphs in memory, and what can be added to them.

  A graph in memory holds its edges in both maps (`EdgeMaps`). `GraphAddition` names what
  adds to it: a block whose number the caller chose, an empty block under the next
  number, and an edge. The first raises the next number above its own; the last reads no
  number and writes none, and neither of its ends need have been added.
-/

namespace Recovery

/-- What can be added to a graph. -/
inductive GraphAddition where
  | block (b : Block)
  | named (name : String)
  | edge (source target : BlockId)

/-- A graph with the maps that hold its edges in memory. -/
structure StoredGraph where
  graph : Graph
  maps : EdgeMaps

namespace StoredGraph

def empty (entry exit : BlockId) : StoredGraph := ⟨.empty entry exit, .empty⟩

/-- Adds a block. One with the number of an earlier block takes its place. -/
def addBlock (s : StoredGraph) (b : Block) : StoredGraph :=
  ⟨s.graph.addBlock b, s.maps.addBlock b.id⟩

/-- Adds an empty block under the next number, and answers the number. -/
def addNamedBlock (s : StoredGraph) (name : String) : BlockId × StoredGraph :=
  let (id, graph) := s.graph.addNamedBlock name
  (id, ⟨graph, s.maps.addBlock id⟩)

def addEdge (s : StoredGraph) (source target : BlockId) : StoredGraph :=
  ⟨s.graph.addEdge source target, s.maps.addEdge source target⟩

def add (s : StoredGraph) : GraphAddition → StoredGraph
  | .block b => s.addBlock b
  | .named name => (s.addNamedBlock name).2
  | .edge source target => s.addEdge source target

/-- The graph after additions one after the other. -/
def after (s : StoredGraph) (additions : List GraphAddition) : StoredGraph :=
  additions.foldl add s

end StoredGraph
end Recovery
