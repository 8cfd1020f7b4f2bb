/-
  The numbers by which procedures, blocks and identifiers are known, and how
  text writes them.
-/

namespace Recovery

/-- The place of an identifier in its frame. -/
abbrev IdentifierId := Nat

/-- The number of a basic block in its procedure. -/
abbrev BlockId := Nat

/-- The place of a procedure in its program. -/
abbrev ProcedureId := Nat

namespace Label

def identifier (i : IdentifierId) : String := "id" ++ toString i

def block (b : BlockId) : String := "bb" ++ toString b

def procedure (p : ProcedureId) : String := "proc" ++ toString p

end Label
end Recovery
