import Recovery.Statement
/-
  Control flow graphs.

  A graph is two lists: its blocks in the order they were first added, and its
  edges in the order they were added. Successors and predecessors are read off
  the edges, so both sides of an edge always agree. An edge may name a block
  that was never added; traversals pass over such blocks.
-/

namespace Recovery

/-- A control flow graph. `entry` and `exit` need not be added; `nextId` is the
number the next named block gets. -/
structure Graph where
  entry : BlockId
  exit : BlockId
  nextId : BlockId
  blocks : List Block
  edges : List (BlockId × BlockId)

namespace Graph

/-- The graph with neither block nor edge. -/
def empty (entry exit : BlockId) : Graph := ⟨entry, exit, max entry exit + 1, [], []⟩

def blockIds (g : Graph) : List BlockId := g.blocks.map Block.id

def hasBlock (g : Graph) (b : BlockId) : Bool := g.blockIds.contains b

def block? (g : Graph) (b : BlockId) : Option Block := g.blocks.find? (fun x => x.id == b)

def blockNamed? (g : Graph) (name : String) : Option Block :=
  g.blocks.find? (fun x => x.name == name)

/-- The place of a block among the blocks, from zero. -/
def position? (g : Graph) (b : BlockId) : Option Nat := g.blockIds.idxOf? b

/-- The targets of the edges out of a block, in the order they were added. -/
def successors (g : Graph) (b : BlockId) : List BlockId :=
  (g.edges.filter (fun e => e.1 == b)).map Prod.snd

/-- The sources of the edges into a block, in the order they were added. -/
def predecessors (g : Graph) (b : BlockId) : List BlockId :=
  (g.edges.filter (fun e => e.2 == b)).map Prod.fst

/-- The successors of a block that were added. -/
def flow (g : Graph) (b : BlockId) : List BlockId := (g.successors b).filter g.hasBlock

/-- Adds a block. One with the number of an earlier block takes its place. -/
def addBlock (g : Graph) (b : Block) : Graph :=
  { g with
    nextId := max g.nextId (b.id + 1)
    blocks :=
      if g.hasBlock b.id then g.blocks.map fun x => if x.id == b.id then b else x
      else g.blocks ++ [b] }

/-- Adds an empty block under the next number. -/
def addNamedBlock (g : Graph) (name : String) : BlockId × Graph :=
  (g.nextId, g.addBlock (.empty g.nextId name))

def addEdge (g : Graph) (source target : BlockId) : Graph :=
  { g with edges := g.edges ++ [(source, target)] }

/-- Changes every block. -/
def mapBlocks (g : Graph) (change : Block → Block) : Graph :=
  { g with blocks := g.blocks.map change }

/-- Changes the block with a number. -/
def modifyBlock (g : Graph) (b : BlockId) (change : Block → Block) : Graph :=
  g.mapBlocks fun x => if x.id == b then change x else x

/-- Every number that was added or starts an edge, with its successors. -/
def successorTable (g : Graph) : List (BlockId × List BlockId) :=
  (g.blockIds ++ g.edges.map Prod.fst).eraseDups.map fun b => (b, g.successors b)

/-- Every number that was added or ends an edge, with its predecessors. -/
def predecessorTable (g : Graph) : List (BlockId × List BlockId) :=
  (g.blockIds ++ g.edges.map Prod.snd).eraseDups.map fun b => (b, g.predecessors b)

theorem mem_successors_iff {g : Graph} {a b : BlockId} :
    b ∈ g.successors a ↔ a ∈ g.predecessors b := by
  simp only [successors, predecessors, List.mem_map, List.mem_filter, beq_iff_eq]
  constructor
  · rintro ⟨⟨x, y⟩, ⟨he, rfl⟩, rfl⟩
    exact ⟨(x, y), ⟨he, rfl⟩, rfl⟩
  · rintro ⟨⟨x, y⟩, ⟨he, rfl⟩, rfl⟩
    exact ⟨(x, y), ⟨he, rfl⟩, rfl⟩

theorem mem_successors {g : Graph} {a b : BlockId} : b ∈ g.successors a ↔ (a, b) ∈ g.edges := by
  simp [successors]

end Graph
end Recovery
