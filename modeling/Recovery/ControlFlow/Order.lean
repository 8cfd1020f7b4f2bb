import Recovery.ControlFlow.DepthFirst
import Recovery.ControlFlow.Graph
/-
  Orders of the blocks of a graph.

  The search starts at the entry and takes every block the entry does not reach
  as a further root, in the order of the block list. Reverse post-order reads
  that one forest backwards.
-/

namespace Recovery.Graph

/-- The depth-first forest over the blocks of a graph, from some roots. -/
def forest (g : Graph) (roots : List BlockId) : Forest BlockId :=
  Forest.search g.flow g.blocks.length (roots.filter g.hasBlock)

/-- The blocks that the entry reaches, in the order a search meets them. -/
def reachable (g : Graph) : List BlockId := (g.forest [g.entry]).preorder

/-- Every block once: in reverse post-order, the part the entry reaches last. -/
def reversePostOrder (g : Graph) : List BlockId :=
  (g.forest (g.entry :: g.blockIds)).postorder.reverse

end Recovery.Graph
