import Recovery.Storage
/-
  Signatures: what a caller has to know of a procedure.

  Parameters and the return value are copies of identifiers in the procedure's
  frame, so a signature can be read without that frame. A signature is valid
  once it has been determined; one that is not may still carry what is known of
  the floating point stack.
-/

namespace Recovery

/-- The calling interface of a procedure. `fpuStackDelta` is the change of the
floating point stack's depth across a call, `fpuOutMax` the deepest slot of it
that can carry a result. -/
structure Signature where
  returnValue : Option Identifier
  parameters : List Identifier
  fpuStackDelta : Int32
  fpuOutMax : Int32
  valid : Bool
  deriving DecidableEq, Repr

namespace Signature

/-- Not determined, with what is known of the floating point stack. -/
def undetermined (fpuStackDelta fpuOutMax : Int32) : Signature :=
  ⟨none, [], fpuStackDelta, fpuOutMax, false⟩

/-- Nothing known: a balanced floating point stack that carries no result. -/
def unknown : Signature := undetermined 0 (-1)

instance : Inhabited Signature := ⟨unknown⟩

/-- Determined, with nothing said of the floating point stack. -/
def determined (returnValue : Option Identifier) (parameters : List Identifier) : Signature :=
  ⟨returnValue, parameters, 0, -1, true⟩

/-- The parameters through which values are handed back. -/
def outArguments (s : Signature) : List Identifier :=
  s.parameters.filter fun p => p.storage.isOutArgument

def parameterText (p : Identifier) : String := p.dataType.display ++ " " ++ p.name

def prototype (s : Signature) (name : String) : String :=
  (match s.returnValue with
    | some r => r.dataType.display
    | none => "void")
  ++ " " ++ name ++ "(" ++ String.intercalate ", " (s.parameters.map parameterText) ++ ")"

/-- The signature in listings: a prototype under a stand-in name, once determined. -/
def display (s : Signature) : String := if s.valid then s.prototype "fn" else "<unknown>"

end Signature
end Recovery
