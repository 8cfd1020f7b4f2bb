import Recovery.Label
/-
  The ways an operation of the library can refuse its input, and the one place
  where they are put into words.
-/

namespace Recovery

/-- The steps of structuring one procedure that can be asked for. -/
inductive StructuringStep where
  | build
  | classify
  | inspect
  | finish
  deriving DecidableEq, Repr

/-- Why a step of structuring cannot be taken now. -/
inductive StepProblem where
  | repeated
  | beforeBuilding
  | beforeClassifying
  deriving DecidableEq, Repr

/-- A refusal. -/
inductive Error where
  | invalidIdentifier (id : IdentifierId)
  | unknownProcedure (id : ProcedureId)
  | signatureAlreadyValid (procedure : String)
  | stepOrder (procedure : String) (step : StructuringStep) (problem : StepProblem)
  | missingEntry (procedure : String)
  deriving DecidableEq, Repr

def StructuringStep.name : StructuringStep → String
  | build => "build_procedure_structure"
  | classify => "find_structures"
  | inspect => "structure"
  | finish => "into_structure"

def StepProblem.wording : StepProblem → String
  | repeated => "twice"
  | beforeBuilding => "before build_procedure_structure"
  | beforeClassifying => "before find_structures"

/-- The text of a refusal. -/
def Error.message : Error → String
  | invalidIdentifier id => "invalid identifier id: " ++ Label.identifier id
  | unknownProcedure id => "unknown procedure: " ++ Label.procedure id
  | signatureAlreadyValid name => "procedure " ++ name ++ " already has a valid signature"
  | stepOrder name step problem =>
    "structuring of " ++ name ++ ": " ++ step.name ++ " called " ++ problem.wording
  | missingEntry name => "procedure " ++ name ++ " has no entry block"

end Recovery
