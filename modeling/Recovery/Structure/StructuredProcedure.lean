import Recovery.Procedure
import Recovery.Settings
import Recovery.Structure.Conditionals
import Recovery.Structure.Jumps
import Recovery.Structure.Loops
/-
  Procedures with their structure found.

  Structuring has two halves. Building makes the node graph of the reachable
  blocks, numbers it and links post-dominators; it fails only without an entry
  block. Classifying gives every node its part: conditionals first, then loops,
  then the jumps that neither explains.
-/

namespace Recovery

/-- The node graph of a procedure with its numbers and post-dominator links. -/
structure NumberedProcedure where
  name : String
  graph : NodeGraph
  positions : Vector Nat graph.size
  numbering : Numbering graph.size
  postDominators : PostDominators graph.size

/-- A procedure with a part for every node. -/
structure StructuredProcedure extends NumberedProcedure where
  roles : Roles graph.size

/-- Builds the node graph of a procedure, numbers it and links post-dominators. -/
def NumberedProcedure.build (p : Procedure) (walkLimit : Nat) : Except Error NumberedProcedure :=
  match NodeGraph.ofGraph? p.graph with
  | none => .error (.missingEntry p.name)
  | some graph =>
    let numbering := Numbering.ofNodeGraph graph
    .ok {
      name := p.name
      graph
      positions := graph.positions p.graph
      numbering
      postDominators := PostDominators.compute graph numbering walkLimit }

/-- The parts of the nodes of a node graph, found in three steps. -/
def Roles.find (g : NodeGraph) (k : Numbering g.size) (links : PostDominators g.size) :
    Roles g.size :=
  Jumps.classify g k (Loops.classify g k (Conditionals.classify g k links))

/-- Gives every node its part. -/
def NumberedProcedure.classify (p : NumberedProcedure) : StructuredProcedure :=
  { p with roles := Roles.find p.graph p.numbering p.postDominators }

namespace StructuredProcedure

/-- Finds the structure of a procedure. -/
def ofProcedure (p : Procedure) (settings : Settings) : Except Error StructuredProcedure := do
  return (← NumberedProcedure.build p settings.walkLimit).classify

/-- Finds the structures of some procedures; the first that has none decides. -/
def ofProcedures (ps : List Procedure) (settings : Settings) :
    Except Error (List StructuredProcedure) :=
  ps.mapM (ofProcedure · settings)

/-- The part of a node. -/
def role (p : StructuredProcedure) (v : p.graph.Node) : Role p.graph.size := p.roles.get v

def nodeLines (p : StructuredProcedure) (v : p.graph.Node) : List String :=
  let r := p.role v
  let named (label : String) (target : Option p.graph.Node) : List String :=
    (target.map fun t => label ++ p.graph.name t).toList
  ["Node " ++ toString (p.positions.get v) ++ ": Block: " ++ p.graph.name v,
    "    Order: " ++ toString (p.numbering.order.get v) ++ ", RevOrder "
      ++ toString (p.numbering.revOrder.get v),
    "    Structure type: " ++ r.heads.word]
  ++ named "    Loop header:" r.loopHead
  ++ named "    Latch: " r.latch
  ++ named "    Cond follow: " r.follow
  ++ ["    Unstructured type: " ++ r.jump.word,
    String.intercalate "," ((p.graph.next v).map p.graph.name)]

/-- The listing of a structure: its nodes as the first search enters them, and
an empty line. -/
def listing (p : StructuredProcedure) : String :=
  String.join ((p.numbering.preorder.flatMap p.nodeLines).map (· ++ "\n")) ++ "\n"

end StructuredProcedure
end Recovery
