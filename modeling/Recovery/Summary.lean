import Recovery.Architecture.Basic
import Recovery.Label
import Recovery.Signature.Basic
import Recovery.Table
/-
  Dataflow summaries: what a procedure reads, writes and leaves behind.

  A summary comes from an analysis that ran before. Signatures are made from
  it, after the registers and flags that callers may look at have been narrowed
  to those the procedure writes.
-/

namespace Recovery

/-- What is known of one procedure's dataflow: registers that may be read before
they are written, registers and flags callers may look at, registers and flags
that may be written, the observed width of stack arguments, and the signature
once made. -/
structure Summary where
  mayUse : RegisterSet
  liveOut : RegisterSet
  trashed : RegisterSet
  flagsLiveOut : Nat
  flagsTrashed : Nat
  stackArguments : Table IdentifierId Nat
  signature : Option Signature

/-- The summaries of a program's procedures. -/
abbrev Summaries := Table ProcedureId Summary

namespace Summary

def empty : Summary := ⟨∅, ∅, ∅, 0, 0, ∅, none⟩

instance : Inhabited Summary := ⟨empty⟩

/-- Narrows what callers may look at to what the procedure writes: a register
that is never written still holds the caller's own value. -/
def narrowLiveOut (s : Summary) : Summary :=
  { s with
    liveOut := s.liveOut ∩ s.trashed
    flagsLiveOut := s.flagsLiveOut &&& s.flagsTrashed }

theorem narrowLiveOut_narrowLiveOut (s : Summary) :
    s.narrowLiveOut.narrowLiveOut = s.narrowLiveOut := by
  have hregisters : (s.liveOut ∩ s.trashed) ∩ s.trashed = s.liveOut ∩ s.trashed :=
    RegisterSet.inter_inter_self _ _
  simp only [narrowLiveOut, hregisters, Nat.and_assoc, Nat.and_self]

/-- The name of a register index: its definition's, or its number after an `r`. -/
def registerName (a : Architecture) (i : Nat) : String :=
  match a.register? i with
  | some r => r.name
  | none => "r" ++ toString i

def registerLine (a : Architecture) (label : String) (s : RegisterSet) : String :=
  label ++ String.join (s.toList.map fun i => " " ++ registerName a i) ++ "\n"

/-- The line of observed widths; absent when there is none. -/
def widthLine (s : Summary) : String :=
  if s.stackArguments.isEmpty then ""
  else
    "StackArguments:"
      ++ String.join (s.stackArguments.entries.map fun (id, bits) =>
          " " ++ Label.identifier id ++ ":" ++ toString bits)
      ++ "\n"

/-- The summary with the names of an architecture, a line for each part. -/
def display (a : Architecture) (s : Summary) : String :=
  registerLine a "MayUse: " s.mayUse
    ++ registerLine a "LiveOut:" s.liveOut
    ++ registerLine a "Trashed:" s.trashed
    ++ "grfLiveOut: " ++ a.flagGroupName s.flagsLiveOut ++ "\n"
    ++ "grfTrashed: " ++ a.flagGroupName s.flagsTrashed ++ "\n"
    ++ s.widthLine

end Summary

/-- The summary of a procedure; an empty one when there is none. -/
def Summaries.of (t : Summaries) (p : ProcedureId) : Summary := (t.get? p).getD .empty

/-- Makes sure a procedure has a summary. -/
def Summaries.ensure (t : Summaries) (p : ProcedureId) : Summaries := t.put p (t.of p)

end Recovery
