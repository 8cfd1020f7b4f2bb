import Recovery.Structure.NodeGraph
/-
  Numbers of the nodes of a procedure.

  Three searches number the nodes. Two start at the entry, one taking
  successors first to last and one last to first; each stamps a node when it
  enters and when it leaves it. `order` is the leaving order of the first. The
  third search goes against the edges from the exit, and from the nodes that
  cannot reach it in leaving order; its own leaving order is `revOrder`.

  A node is an ancestor of another when its stamps enclose the other's in one
  of the two searches from the entry. An edge to an ancestor, or to the node
  itself, is a back edge.
-/

namespace Recovery

/-- When a search enters and leaves a node. -/
abbrev Stamps := Nat × Nat

/-- Whether one interval lies strictly inside another. -/
def Stamps.encloses (outer inner : Stamps) : Bool := outer.1 < inner.1 && inner.2 < outer.2

/-- The numbers of `n` nodes. `ordering` and `revOrdering` list the nodes by
`order` and by `revOrder`; `preorder` lists them as the first search enters them. -/
structure Numbering (n : Nat) where
  ordering : List (Fin n)
  order : Vector Nat n
  revOrdering : List (Fin n)
  revOrder : Vector Nat n
  stamps : Vector Stamps n
  revStamps : Vector Stamps n
  preorder : List (Fin n)

namespace Numbering

/-- The place of each node in a list. -/
def places {n : Nat} (list : List (Fin n)) : Vector Nat n := .ofFn fun v => list.idxOf v

/-- When a walk around a forest enters and leaves each node. -/
def stampTable {n : Nat} (walk : List (Visit (Fin n))) : Vector Stamps n :=
  .ofFn (Forest.stampsIn walk)

/-- The numbers of the nodes of a graph. -/
def ofNodeGraph (g : NodeGraph) : Numbering g.size :=
  let forward := Forest.search g.next g.size [g.entry]
  let opposite := Forest.search (fun v => (g.next v).reverse) g.size [g.entry]
  let against := Forest.search g.previous g.size (g.exit.toList ++ forward.postorder)
  { ordering := forward.postorder
    order := places forward.postorder
    revOrdering := against.postorder
    revOrder := places against.postorder
    stamps := stampTable forward.events
    revStamps := stampTable opposite.events
    preorder := forward.preorder }

variable {n : Nat} (k : Numbering n)

/-- Whether a node is a proper ancestor of another in either search. -/
def isAncestor (v w : Fin n) : Bool :=
  (k.stamps.get v).encloses (k.stamps.get w) || (k.revStamps.get v).encloses (k.revStamps.get w)

/-- Whether an edge leads back to an ancestor or to its own source. -/
def isBackEdge (source target : Fin n) : Bool := source = target || k.isAncestor target source

/-- Whether a node lies strictly between two others on a branch of either search. -/
def isBetween (outer v inner : Fin n) : Bool :=
  ((k.stamps.get outer).encloses (k.stamps.get v) && (k.stamps.get v).encloses (k.stamps.get inner))
    || ((k.revStamps.get outer).encloses (k.revStamps.get v)
      && (k.revStamps.get v).encloses (k.revStamps.get inner))

/-- The nodes whose `order` is at least `low` and below `high`, the highest first. -/
def descending (low high : Nat) : List (Fin n) :=
  ((k.ordering.drop low).take (high - low)).reverse

/-- Whether an edge out of a node is a back edge. -/
def hasBackEdge (g : NodeGraph) (k : Numbering g.size) (v : g.Node) : Bool :=
  (g.next v).any (k.isBackEdge v)

theorem isAncestor_irrefl (v : Fin n) : k.isAncestor v v = false := by
  simp [isAncestor, Stamps.encloses]

end Numbering
end Recovery
