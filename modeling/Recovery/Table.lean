/-
  Tables that remember the order in which their keys came.

  Writing to a key that is there changes its value in place; writing to any
  other key adds it at the end.
-/

namespace Recovery

/-- Keys with their values, in the order the keys came. -/
structure Table (κ α : Type) where
  entries : List (κ × α)

namespace Table
variable {κ α : Type}

def empty : Table κ α := ⟨[]⟩

instance : EmptyCollection (Table κ α) := ⟨empty⟩
instance : Inhabited (Table κ α) := ⟨empty⟩

def keys (t : Table κ α) : List κ := t.entries.map Prod.fst

def size (t : Table κ α) : Nat := t.entries.length

def isEmpty (t : Table κ α) : Bool := t.entries.isEmpty

variable [DecidableEq κ]

/-- The value of a key. -/
def get? (t : Table κ α) (key : κ) : Option α :=
  (t.entries.find? fun e => decide (e.1 = key)).map Prod.snd

def contains (t : Table κ α) (key : κ) : Bool := (t.get? key).isSome

/-- Gives a key a value. -/
def put (t : Table κ α) (key : κ) (a : α) : Table κ α :=
  ⟨if key ∈ t.keys then t.entries.map fun e => if e.1 = key then (key, a) else e
    else t.entries ++ [(key, a)]⟩

/-- The table of some entries, written one after the other. -/
def ofList (entries : List (κ × α)) : Table κ α :=
  entries.foldl (fun t e => t.put e.1 e.2) empty

def mapValues (t : Table κ α) (change : α → α) : Table κ α :=
  ⟨t.entries.map fun e => (e.1, change e.2)⟩

theorem get?_eq_none_iff {t : Table κ α} {key : κ} : t.get? key = none ↔ key ∉ t.keys := by
  simp only [get?, keys, Option.map_eq_none_iff, List.find?_eq_none, decide_eq_true_eq,
    List.mem_map, not_exists, not_and]

private theorem find?_overwrite (key key' : κ) (a : α) (entries : List (κ × α)) :
    (entries.map fun e => if e.1 = key then (key, a) else e).find? (fun e => decide (e.1 = key')) =
      (entries.find? fun e => decide (e.1 = key')).map fun e => if e.1 = key then (key, a) else e := by
  rw [List.find?_map]
  congr 2
  funext e
  by_cases h : e.1 = key <;> simp [h]

theorem get?_put (t : Table κ α) (key key' : κ) (a : α) :
    (t.put key a).get? key' = if key = key' then some a else t.get? key' := by
  by_cases hmem : key ∈ t.keys
  · simp only [get?, put, hmem, if_true, find?_overwrite, Option.map_map]
    cases hf : t.entries.find? (fun e => decide (e.1 = key')) with
    | none =>
      have hno : key' ∉ t.keys := get?_eq_none_iff.1 (by simp [get?, hf])
      have hne : key ≠ key' := fun h => hno (h ▸ hmem)
      simp [hne]
    | some e =>
      have he : e.1 = key' := by simpa using List.find?_some hf
      by_cases h : key = key'
      · simp [he, h]
      · simp [he, h, Ne.symm h]
  · by_cases h : key = key'
    · subst h
      have hnone := get?_eq_none_iff.2 hmem
      simp only [get?, Option.map_eq_none_iff] at hnone
      simp [get?, put, hmem, List.find?_append, hnone]
    · simp [get?, put, hmem, List.find?_append, h]

/-- Writing keeps the keys, adding the new one at the end if it was not there. -/
theorem keys_put (t : Table κ α) (key : κ) (a : α) :
    (t.put key a).keys = if key ∈ t.keys then t.keys else t.keys ++ [key] := by
  unfold put
  split
  · simp only [keys, List.map_map]
    refine List.map_congr_left fun e _ => ?_
    simp only [Function.comp]
    split
    · rename_i h
      exact h.symm
    · rfl
  · simp [keys]

end Table
end Recovery
