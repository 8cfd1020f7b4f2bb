/-
  Documents: the plain values in which the data model is exchanged.

  A variant of a type is written as a record whose only key is the variant's
  tag. A missing value is written as `null`.
-/

namespace Recovery

/-- A plain value. -/
inductive Document where
  | null
  | bool (b : Bool)
  | integer (i : Int)
  | text (s : String)
  | list (ds : List Document)
  | record (fields : List (String × Document))

namespace Document

def natural (n : Nat) : Document := integer n

def word (w : Int32) : Document := integer w.toInt

def variant (tag : String) (value : Document) : Document := record [(tag, value)]

def option {α : Type} (write : α → Document) : Option α → Document
  | none => null
  | some a => write a

def listOf {α : Type} (write : α → Document) (as : List α) : Document := list (as.map write)

end Document
end Recovery
