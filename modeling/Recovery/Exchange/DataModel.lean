import Recovery.ControlFlow.Graph
import Recovery.Exchange.Document
import Recovery.Signature.Basic
/-
  The data model as documents.

  Every type says its own form. Variants without fields are named by a tag,
  which is also how they are read back (`ofTag?`); variants with fields are
  records under their tag.
-/

namespace Recovery

def RegisterClass.tag : RegisterClass → String
  | general => "General"
  | stackPointer => "StackPointer"
  | framePointer => "FramePointer"
  | segment => "Segment"
  | flags => "Flags"
  | other => "Other"

def RegisterClass.ofTag? (s : String) : Option RegisterClass :=
  [general, stackPointer, framePointer, segment, flags, other].find? fun c => c.tag == s

def Domain.tag : Domain → String
  | word => "Word"
  | signedInt => "SignedInt"
  | unsignedInt => "UnsignedInt"
  | real => "Real"
  | boolean => "Boolean"

def Domain.ofTag? (s : String) : Option Domain :=
  [word, signedInt, unsignedInt, real, boolean].find? fun d => d.tag == s

def StorageKind.tag : StorageKind → String
  | register => "Register"
  | stackArgument => "StackArgument"
  | stackLocal => "StackLocal"
  | fpuStackArgument => "FpuStackArgument"
  | flagGroup => "FlagGroup"
  | outArgument => "OutArgument"

def BinaryOp.tag : BinaryOp → String
  | add => "Add"
  | sub => "Sub"
  | mul => "Mul"
  | and => "And"
  | or => "Or"
  | xor => "Xor"
  | eq => "Eq"
  | ne => "Ne"
  | lt => "Lt"
  | le => "Le"
  | gt => "Gt"
  | ge => "Ge"

def BinaryOp.ofTag? (s : String) : Option BinaryOp :=
  [add, sub, mul, and, or, xor, eq, ne, lt, le, gt, ge].find? fun o => o.tag == s

def UnaryOp.tag : UnaryOp → String
  | neg => "Neg"
  | not => "Not"

def UnaryOp.ofTag? (s : String) : Option UnaryOp := [neg, not].find? fun o => o.tag == s

namespace Document

def ofRegister (r : Register) : Document :=
  record [("index", natural r.index), ("name", text r.name), ("class", text r.role.tag),
    ("domain", natural r.domain), ("bit_offset", natural r.bitOffset),
    ("bit_size", natural r.bitSize)]

def ofType : DataType → Document
  | .primitive p =>
    variant "Primitive" (record [("domain", text p.domain.tag), ("bit_size", natural p.bitSize)])
  | .pointer t n => variant "Pointer" (record [("pointee", ofType t), ("bit_size", natural n)])

/-- An identifier, given the form of its storage. -/
def ofNamed (name : String) (t : DataType) (storage : Document) : Document :=
  record [("name", text name), ("data_type", ofType t), ("storage", storage)]

def ofStorage : Storage → Document
  | .register i n => variant "Register" (record [("index", natural i), ("bit_size", natural n)])
  | .stackArgument o n =>
    variant "StackArgument" (record [("offset", word o), ("bit_size", natural n)])
  | .stackLocal o n =>
    variant "StackLocal" (record [("offset", word o), ("bit_size", natural n)])
  | .fpuStackArgument d => variant "FpuStackArgument" (record [("depth", word d)])
  | .flagGroup r m =>
    variant "FlagGroup" (record [("flags_register", natural r), ("mask", natural m)])
  | .outArgument n t s =>
    variant "OutArgument" (record [("original", ofNamed n t (ofStorage s))])

def ofIdentifier (i : Identifier) : Document := ofNamed i.name i.dataType (ofStorage i.storage)

mutual

def ofExpression : Expression → Document
  | .identifier id => variant "Identifier" (natural id)
  | .constant v n => variant "Constant" (record [("value", integer v), ("bit_size", natural n)])
  | .binary op l r =>
    variant "Binary" (record [("op", text op.tag), ("left", ofExpression l),
      ("right", ofExpression r)])
  | .unary op e => variant "Unary" (record [("op", text op.tag), ("operand", ofExpression e)])
  | .application c es =>
    variant "Application" (record [("callee", ofCallee c), ("arguments", list (ofExpressions es))])
  | .outArgument id => variant "OutArgument" (natural id)

def ofCallee : Callee → Document
  | .procedure p => variant "Procedure" (natural p)
  | .external n => variant "External" (text n)
  | .indirect e => variant "Indirect" (ofExpression e)

def ofExpressions : List Expression → List Document
  | [] => []
  | e :: es => ofExpression e :: ofExpressions es

end

def ofApplication (a : Application) : Document :=
  record [("callee", ofCallee a.callee), ("arguments", list (ofExpressions a.arguments))]

def ofInstruction : Instruction → Document
  | .assignment t e =>
    variant "Assignment" (record [("dst", natural t), ("src", ofExpression e)])
  | .sideEffect e => variant "SideEffect" (ofExpression e)
  | .branch c t => variant "Branch" (record [("condition", ofExpression c), ("target", text t)])
  | .call c s =>
    variant "Call" (record [("callee", ofCallee c),
      ("site", record [("stack_depth", word s.stackDepth), ("fpu_depth", word s.fpuDepth)])])
  | .leave e => variant "Return" (record [("expression", option ofExpression e)])
  | .use e out =>
    variant "Use" (record [("expression", ofExpression e), ("out", option natural out)])

def ofStatement (s : Statement) : Document :=
  record [("address", natural s.address), ("instruction", ofInstruction s.instruction)]

def ofBlock (b : Block) : Document :=
  record [("id", natural b.id), ("name", text b.name),
    ("statements", listOf ofStatement b.statements)]

def ofSignature (s : Signature) : Document :=
  record [("return_value", option ofIdentifier s.returnValue),
    ("parameters", listOf ofIdentifier s.parameters),
    ("fpu_stack_delta", word s.fpuStackDelta),
    ("fpu_stack_out_argument_max", word s.fpuOutMax),
    ("parameters_valid", bool s.valid)]

/-- A control flow graph. Blocks and both sides of the edges are records keyed
by block number; a number has a side if it was added or ends an edge there. -/
def ofGraph (g : Graph) : Document :=
  let edges (table : List (BlockId × List BlockId)) : Document :=
    record (table.map fun (b, bs) => (toString b, listOf natural bs))
  record [("entry", natural g.entry), ("exit", natural g.exit), ("next_id", natural g.nextId),
    ("blocks", record (g.blocks.map fun b => (toString b.id, ofBlock b))),
    ("successors", edges g.successorTable), ("predecessors", edges g.predecessorTable)]

end Document
end Recovery
