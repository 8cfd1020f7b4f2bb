import Recovery.ControlFlow.Graph
import Recovery.Signature.Basic
/-
  Procedures: a frame, a signature and a control flow graph. A signature that
  has been determined is never replaced.
-/

namespace Recovery

/-- A procedure of a program. -/
structure Procedure where
  id : ProcedureId
  name : String
  frame : Frame
  signature : Signature
  graph : Graph

namespace Procedure

/-- A procedure with nothing known of its signature. -/
def ofGraph (id : ProcedureId) (name : String) (frame : Frame) (graph : Graph) : Procedure :=
  ⟨id, name, frame, .unknown, graph⟩

/-- A procedure whose graph is an entry block and an exit block, named after it. -/
def withEntryExit (id : ProcedureId) (name : String) (returnAddressSize : Int32) : Procedure :=
  .ofGraph id name (.empty returnAddressSize)
    (((Graph.empty 0 1).addBlock (.empty 0 (name ++ "_entry"))).addBlock
      (.empty 1 (name ++ "_exit")))

/-- Gives the procedure a signature unless it has a valid one. -/
def setSignature (p : Procedure) (s : Signature) : Except Error Procedure :=
  if p.signature.valid then .error (.signatureAlreadyValid p.name)
  else .ok { p with signature := s }

def mapStatements (p : Procedure) (change : Statement → Statement) : Procedure :=
  { p with
    graph := p.graph.mapBlocks fun b => { b with statements := b.statements.map change } }

/-- The statements in listings, a line for each: block, address and text. -/
def listing (p : Procedure) : List String :=
  p.graph.blocks.flatMap fun b => b.statements.map fun s =>
    b.name ++ "@" ++ Numeral.lowerHex s.address ++ ": " ++ s.instruction.display p.frame

end Procedure
end Recovery
