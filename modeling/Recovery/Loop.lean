/-
  Loops with no bound, and reads that can miss.

  A computation that could run for ever, or read a list past its end, is written
  in `Option`: it answers `none` when it does either. `untilDone` takes turns for
  as long as they ask for another one; `readAt` and `eachAt` read a list at
  places that were computed. That such a computation does answer is then a
  statement about every turn it takes and every place it reads.
-/

namespace Recovery

/-- What a turn of a loop leads to: another turn, or the end. -/
inductive Turn (σ α : Type) where
  | again (state : σ)
  | done (result : α)

/-- Takes turns until one is the last. There is no answer when a turn has none,
or when every turn asks for another. -/
def untilDone {σ α : Type} (turn : σ → Option (Turn σ α)) (s : σ) : Option α := do
  match ← turn s with
  -- not a term: `partial_fixpoint` leaves the mark of a written call in the definition
  | .again t => by apply untilDone; exact turn; exact t
  | .done a => some a
partial_fixpoint

/-- The element of a list at a place, which may lie before its start or past its end. -/
def readAt {α : Type} (list : List α) (place : Int) : Option α :=
  if place < 0 then none else list[place.toNat]?

/-- Takes a step for the element at each of some places of a list. -/
def eachAt {α β : Type} (list : List α) (places : List Nat) (step : β → α → Option β) (b : β) :
    Option β :=
  places.foldlM (fun b place => do step b (← list[place]?)) b

section
variable {σ α : Type} {turn : σ → Option (Turn σ α)} {s t : σ} {a : α}

theorem untilDone_again (h : turn s = some (.again t)) : untilDone turn s = untilDone turn t := by
  rw [untilDone, h]
  rfl

theorem untilDone_done (h : turn s = some (.done a)) : untilDone turn s = some a := by
  rw [untilDone, h]
  rfl

end

theorem readAt_natCast {α : Type} (list : List α) (place : Nat) :
    readAt list place = list[place]? := by
  rw [readAt, if_neg (Int.not_lt.2 (Int.natCast_nonneg place)), Int.toNat_natCast]

end Recovery
