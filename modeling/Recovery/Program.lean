import Recovery.Architecture.Basic
import Recovery.Procedure
import Recovery.Table
/-
  Programs: procedures, numbered by their place, and the machine they run on.
-/

namespace Recovery

/-- The signatures of procedures. -/
abbrev SignatureTable := Table ProcedureId Signature

/-- A program being recovered. -/
structure Program where
  architecture : Architecture
  platform : Platform
  procedures : List Procedure

namespace Program

def empty (a : Architecture) (p : Platform) : Program := ⟨a, p, []⟩

def size (p : Program) : Nat := p.procedures.length

/-- Adds a procedure under the next number. -/
def push (p : Program) (q : Procedure) : Program :=
  { p with procedures := p.procedures ++ [{ q with id := p.size }] }

/-- Adds a procedure that has nothing but its entry and exit blocks. -/
def addProcedure (p : Program) (name : String) : Program :=
  p.push (.withEntryExit p.size name p.architecture.returnAddressSize)

def procedure? (p : Program) (id : ProcedureId) : Option Procedure := p.procedures[id]?

/-- The procedure with a number, or a refusal of the number. -/
def get (p : Program) (id : ProcedureId) : Except Error Procedure :=
  match p.procedure? id with
  | some q => .ok q
  | none => .error (.unknownProcedure id)

def procedureNamed? (p : Program) (name : String) : Option Procedure :=
  p.procedures.find? fun q => q.name == name

/-- Puts a procedure in the place of the one with a number. -/
def set (p : Program) (id : ProcedureId) (q : Procedure) : Program :=
  { p with procedures := p.procedures.set id q }

/-- The valid signatures of the program's procedures. -/
def signatures (p : Program) : SignatureTable :=
  Table.ofList ((p.procedures.filter fun q => q.signature.valid).map fun q => (q.id, q.signature))

/-- Every procedure is numbered by its place. -/
def Numbered (p : Program) : Prop :=
  ∀ (i : Nat) (q : Procedure), p.procedures[i]? = some q → q.id = i

theorem Numbered.push {p : Program} (h : p.Numbered) (q : Procedure) : (p.push q).Numbered := by
  intro i r hi
  simp only [Program.push, size] at hi
  rcases Nat.lt_or_ge i p.procedures.length with hlt | hge
  · rw [List.getElem?_append_left hlt] at hi
    exact h i r hi
  · rw [List.getElem?_append_right hge] at hi
    obtain ⟨hlt, hr⟩ := List.getElem?_eq_some_iff.1 hi
    have hi : i = p.procedures.length := by simp only [List.length_singleton] at hlt; omega
    subst hi
    simp only [Nat.sub_self, List.getElem_cons_zero] at hr
    rw [← hr]

end Program
end Recovery
