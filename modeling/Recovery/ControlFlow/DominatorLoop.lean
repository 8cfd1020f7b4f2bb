import Recovery.ControlFlow.Dominators
import Recovery.Loop
/-
  Dominators by loops with no bound.

  The computation of `Dominators` once more, taken the way a machine takes it.
  A climb from two places goes on until both are at one place, or until one of
  them has no link that leads away. A pass goes over the places by their number,
  and there is another one as long as the last has changed a link. A list of
  dominators goes on until a block links to none but itself. Nothing says how
  often: a link that led down, or two that led to each other, would keep these
  loops going, and a loop that does not end leaves no answer.
-/

namespace Recovery.DominatorLoop
variable {n : Nat}

/-! ## Climbing -/

/-- How the climb from two places ends: both at one place, or one of them stranded where no
link leads away, when the place of the other is the answer. -/
inductive Climbed (n : Nat) where
  | met (place : Fin n)
  | stranded (other : Fin n)
  deriving DecidableEq, Repr

def Climbed.place : Climbed n → Fin n
  | met p => p
  | stranded p => p

/-- A turn of the climb from two places: the later one goes up its link. -/
def climbTurn (links : DominatorLinks n) :
    Fin n × Fin n → Option (Turn (Fin n × Fin n) (Climbed n))
  | (a, b) =>
    if a = b then some (.done (.met a))
    else if b < a then
      match links.get a with
      | some d => if d = a then some (.done (.stranded b)) else some (.again (d, b))
      | none => some (.done (.stranded b))
    else
      match links.get b with
      | some d => if d = b then some (.done (.stranded a)) else some (.again (a, d))
      | none => some (.done (.stranded a))

/-- Climbs from two places. -/
def climb (links : DominatorLinks n) (a b : Fin n) : Option (Climbed n) :=
  untilDone (climbTurn links) (a, b)

/-- Climbs from the place reached so far and a further one, and notes how that climb ended. -/
def climbNext (links : DominatorLinks n) :
    Fin n × List (Climbed n) → Fin n → Option (Fin n × List (Climbed n))
  | (a, ends), b => (climb links a b).map fun c => (c.place, ends ++ [c])

/-- Climbs from the first place and each further one in turn, the first giving way to the
answer each time; answers the last place, and how each climb ended. -/
def climbAll (links : DominatorLinks n) (first : Fin n) (rest : List (Fin n)) :
    Option (Fin n × List (Climbed n)) :=
  rest.foldlM (climbNext links) (first, [])

/-! ## Passes -/

variable (preds : Fin n → List (Fin n)) (root : Fin n)

/-- The predecessors of a place that have a link. -/
def linkedPreds (links : DominatorLinks n) (i : Fin n) : List (Fin n) :=
  (preds i).filter fun p => (links.get p).isSome

/-- The link that a place should have; none when it is to stay as it is. -/
def newLink (links : DominatorLinks n) (i : Fin n) : Option (Option (Fin n)) :=
  if i = root then some none
  else match linkedPreds preds links i with
    | [] => some none
    | first :: rest => (climbAll links first rest).map fun (m, _) => some m

/-- The passes under way: the links, the number of the place whose turn it is, and whether this
pass has changed a link. -/
structure Passing (n : Nat) where
  links : DominatorLinks n
  place : Nat
  changed : Bool

def Passing.start : Passing n := ⟨.start root, 0, false⟩

def Passing.next (s : Passing n) : Passing n := { s with place := s.place + 1 }

/-- A turn of the passes: a place gets its link, if that is not what it has; after the last
place there is another pass, if this one has changed a link. -/
def passTurn (s : Passing n) : Option (Turn (Passing n) (DominatorLinks n)) :=
  if h : s.place < n then do
    let i : Fin n := ⟨s.place, h⟩
    match ← newLink preds root s.links i with
    | none => some (.again s.next)
    | some m =>
      if s.links.get i = some m then some (.again s.next)
      else some (.again ⟨s.links.set i (some m) h, s.place + 1, true⟩)
  else if s.changed then some (.again ⟨s.links, 0, false⟩)
  else some (.done s.links)

/-- The links when a pass has changed none. -/
def settledLinks : Option (DominatorLinks n) := untilDone (passTurn preds root) (.start root)

/-! ## The tree -/

/-- The dominator tree of a graph; empty when the entry was never added. -/
def tree (g : Graph) : Option DominatorTree :=
  let order := g.reversePostOrder
  match order.finIdxOf? g.entry with
  | none => some .empty
  | some root => do
    let links ← settledLinks
      (fun i : Fin order.length => (g.predecessors (order.get i)).filterMap order.finIdxOf?) root
    some ⟨order, links⟩

/-- The block that a block links to; the entry links to itself. -/
def link? (t : DominatorTree) (b : BlockId) : Option BlockId :=
  (t.order.finIdxOf? b).bind fun i => (t.links.get i).map fun d => t.order.get d

/-- A turn of listing dominators: after a block comes the one it links to, unless that is the
block itself. -/
def listTurn (t : DominatorTree) :
    BlockId × List BlockId → Option (Turn (BlockId × List BlockId) (List BlockId))
  | (b, listed) =>
    match (link? t b).filter (fun d => decide (d ≠ b)) with
    | some d => some (.again (d, listed ++ [d]))
    | none => some (.done listed)

/-- A block followed by its dominators. -/
def dominators (t : DominatorTree) (b : BlockId) : Option (List BlockId) :=
  untilDone (listTurn t) (b, [b])

end Recovery.DominatorLoop
