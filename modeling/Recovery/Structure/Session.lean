import Recovery.Structure.StructuredProcedure
/-
  Structuring step by step.

  A session holds one procedure and how far its structuring has come. Building
  comes first and classifying second, each once; the result can be looked at
  after both. A step out of order is refused and changes nothing.
-/

namespace Recovery

/-- How far structuring has come. -/
inductive Session.Stage where
  | created
  | built (procedure : NumberedProcedure)
  | classified (procedure : StructuredProcedure)

/-- The structuring of one procedure. -/
structure Session where
  procedure : Procedure
  walkLimit : Nat
  stage : Session.Stage

namespace Session

def start (p : Procedure) (settings : Settings) : Session := ⟨p, settings.walkLimit, .created⟩

def refuse {α : Type} (s : Session) (step : StructuringStep) (problem : StepProblem) :
    Except Error α :=
  .error (.stepOrder s.procedure.name step problem)

/-- Builds the numbered node graph. -/
def build (s : Session) : Except Error Session :=
  match s.stage with
  | .created => do
    return { s with stage := .built (← NumberedProcedure.build s.procedure s.walkLimit) }
  | .built _ | .classified _ => s.refuse .build .repeated

/-- Gives every node its part. -/
def classify (s : Session) : Except Error Session :=
  match s.stage with
  | .created => s.refuse .classify .beforeBuilding
  | .built p => .ok { s with stage := .classified p.classify }
  | .classified _ => s.refuse .classify .repeated

/-- The structure, once found; `step` says how it was asked for. -/
def result (s : Session) (step : StructuringStep) : Except Error StructuredProcedure :=
  match s.stage with
  | .classified p => .ok p
  | .created | .built _ => s.refuse step .beforeClassifying

end Session
end Recovery
