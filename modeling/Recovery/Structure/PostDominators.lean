import Recovery.Structure.Numbering
/-
  Immediate post-dominators.

  A link leads from a node to the node where its branches come together again.
  Links are found in three passes: from the exit backwards along the edges that
  go up in `revOrder`, then over every branch, and once more with back edges
  looked through. A walk along two chains of links is cut off after a number of
  steps, because links into loops may lead in circles.
-/

namespace Recovery

/-- For each node the node where its branches meet again, as far as known. -/
abbrev PostDominators (n : Nat) := Vector (Option (Fin n)) n

namespace PostDominators
variable {n : Nat}

/-- How a walk ends: settled at a node or past the end of a chain, or given up
because its steps ran out. -/
inductive WalkEnd (n : Nat) where
  | settled (place : Option (Fin n))
  | gaveUp
  deriving DecidableEq, Repr

/-- Walks up two chains of links, the one at the lower `revOrder` first, until
they meet or one ends. A walk that has used its last step has given up, even
when that step made the chains meet. -/
def walk (k : Numbering n) (links : PostDominators n) :
    Nat → Option (Fin n) → Option (Fin n) → WalkEnd n
  | 0, _, _ => .gaveUp
  | steps + 1, some a, some b =>
    if a = b then .settled (some a)
    else if k.revOrder.get b < k.revOrder.get a then walk k links steps (some a) (links.get b)
    else walk k links steps (links.get a) (some b)
  | _ + 1, a, _ => .settled a

/-- Where two chains of links meet; the first side itself when the walk gives
up. A missing side leaves the other as it is. -/
def meet (k : Numbering n) (limit : Nat) (links : PostDominators n) :
    Option (Fin n) → Option (Fin n) → Option (Fin n)
  | some a, some b =>
    match walk k links limit (some a) (some b) with
    | .settled place => place
    | .gaveUp => some a
  | some a, none => some a
  | none, b => b

/-- Takes one successor into a node's link. -/
def join (k : Numbering n) (limit : Nat) (v : Fin n) (links : PostDominators n) (s : Fin n) :
    PostDominators n :=
  links.set v (meet k limit links (links.get v) (some s)) v.isLt

/-- As `join`, but when the edge is a back edge and its target's link comes
earlier in `order` than the node's own, the walk starts at that link. -/
def joinThrough (k : Numbering n) (limit : Nat) (v : Fin n) (links : PostDominators n)
    (s : Fin n) : PostDominators n :=
  let own := links.get v
  let through := match links.get s, own with
    | some sp, some np =>
      if k.isBackEdge v s && decide (k.order.get sp < k.order.get np) then some sp else none
    | _, _ => none
  match through with
  | some sp => links.set v (meet k limit links (some sp) own) v.isLt
  | none => links.set v (meet k limit links own (some s)) v.isLt

def unknown (n : Nat) : PostDominators n := .replicate n none

variable (g : NodeGraph) (k : Numbering g.size) (limit : Nat)

/-- The first pass: from the exit backwards, each node takes in the successors
that lie above it in `revOrder`. -/
def ascend (links : PostDominators g.size) : PostDominators g.size :=
  k.revOrdering.reverse.foldl
    (fun links v =>
      ((g.next v).filter fun s => k.revOrder.get v < k.revOrder.get s).foldl (join k limit v) links)
    links

/-- The second pass: each conditional takes in all its successors. -/
def branch (links : PostDominators g.size) : PostDominators g.size :=
  (k.ordering.filter g.isConditional).foldl
    (fun links v => (g.next v).foldl (join k limit v) links) links

/-- The third pass: the second once more, looking through back edges. -/
def branchThrough (links : PostDominators g.size) : PostDominators g.size :=
  (k.ordering.filter g.isConditional).foldl
    (fun links v => (g.next v).foldl (joinThrough k limit v) links) links

/-- The links of a node graph after all three passes. -/
def compute : PostDominators g.size :=
  branchThrough g k limit (branch g k limit (ascend g k limit (unknown g.size)))

end PostDominators
end Recovery
