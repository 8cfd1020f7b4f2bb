import Recovery.ControlFlow.Order
import Recovery.Loop
/-
  Reverse post-order by a stack.

  The order of `Order` once more, taken the way a machine takes it. A block is marked
  at its place in the block list. A number without a place was never added: as a root
  and as a successor it is passed over, but it is tried. The blocks that were entered
  and not left stand on a stack, each with how many of its successors were tried.
  Nothing bounds the loop from outside, and a mark that is read where there is none
  leaves no answer.
-/

namespace Recovery.OrderLoop

/-- A search under way: the blocks entered and not left, the last one first, each with how
many of its successors were tried; the marks; and the blocks left so far. -/
structure Search where
  stack : List (BlockId × Nat)
  marked : List Bool
  left : List BlockId

/-- A turn of a search: the next successor of the last block entered, or the end of that
block when all were tried. -/
def turn (g : Graph) (s : Search) : Option (Turn Search (List Bool × List BlockId)) :=
  match s.stack with
  | [] => some (.done (s.marked, s.left))
  | (b, tried) :: rest =>
    match (g.successors b)[tried]? with
    | none => some (.again ⟨rest, s.marked, s.left ++ [b]⟩)
    | some c =>
      match g.position? c with
      | none => some (.again ⟨(b, tried + 1) :: rest, s.marked, s.left⟩)
      | some place => do
        if ← s.marked[place]? then some (.again ⟨(b, tried + 1) :: rest, s.marked, s.left⟩)
        else
          some (.again ⟨(c, 0) :: (b, tried + 1) :: rest, s.marked.set place true, s.left⟩)

/-- Searches from a root, unless it was never added or is marked. -/
def searchFrom (g : Graph) :
    List Bool × List BlockId → BlockId → Option (List Bool × List BlockId)
  | (marked, left), root =>
    match g.position? root with
    | none => some (marked, left)
    | some place => do
      if ← marked[place]? then some (marked, left)
      else untilDone (turn g) ⟨[(root, 0)], marked.set place true, left⟩

/-- The blocks in reverse post-order. The search starts at the entry and takes every block
as a further root. -/
def reversePostOrder (g : Graph) : Option (List BlockId) := do
  let (_, left) ← (g.entry :: g.blockIds).foldlM (searchFrom g)
    (List.replicate g.blocks.length false, [])
  some left.reverse

end Recovery.OrderLoop
