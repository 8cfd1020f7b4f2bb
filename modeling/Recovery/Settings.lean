/-
  Settings of the program-wide analyses.

  Scheduling never changes a result; it is kept because a setting can be read
  back. The walk limit bounds one search for a common post-dominator.
-/

namespace Recovery

/-- How the work on the procedures of a program is scheduled. -/
inductive Parallelism where
  | sequential
  | parallel
  deriving DecidableEq, Repr

namespace Parallelism

def name : Parallelism → String
  | sequential => "sequential"
  | parallel => "parallel"

/-- The words that choose one procedure at a time. -/
def sequentialWords : List String := ["sequential", "serial", "off", "0", "false"]

/-- The words that choose several procedures at once. -/
def parallelWords : List String := ["parallel", "on", "1", "true", "auto"]

/-- The schedule a word chooses, in letters of either case. Only ASCII letters
need folding: no other letter's small form occurs in a listed word. -/
def parse? (text : String) : Option Parallelism :=
  let word := String.ofList (text.toList.map Char.toLower)
  if word ∈ sequentialWords then some sequential
  else if word ∈ parallelWords then some parallel
  else none

theorem parse?_name (p : Parallelism) : parse? p.name = some p := by
  cases p <;> decide +kernel

end Parallelism

/-- The settings of an analysis. -/
structure Settings where
  parallelism : Parallelism
  outArgumentUses : Bool
  walkLimit : Nat
  deriving DecidableEq, Repr

namespace Settings

def defaultWalkLimit : Nat := 10000

/-- Parallel work, uses of out-arguments recorded, the default walk limit. -/
def standard : Settings := ⟨.parallel, true, defaultWalkLimit⟩

/-- The standard settings for one procedure at a time. -/
def sequential : Settings := { standard with parallelism := .sequential }

instance : Inhabited Settings := ⟨standard⟩

/-- The settings with another walk limit; a limit of zero counts as one. -/
def withWalkLimit (s : Settings) (limit : Nat) : Settings := { s with walkLimit := max limit 1 }

def withParallelism? (s : Settings) (text : String) : Option Settings :=
  (Parallelism.parse? text).map fun p => { s with parallelism := p }

def isParallel (s : Settings) : Bool := s.parallelism == .parallel

end Settings
end Recovery
