import Recovery.ControlFlow.Order
/-
  Dominators.

  Immediate dominators are links between places in reverse post-order. A pass
  recomputes the link of every block as the meeting point of its predecessors
  that have one; passes repeat until one changes nothing. Links point to
  earlier places, so a climb along them ends.
-/

namespace Recovery

/-- For each of `n` places, the place of its immediate dominator once known.
The root links to itself. -/
abbrev DominatorLinks (n : Nat) := Vector (Option (Fin n)) n

namespace DominatorLinks
variable {n : Nat}

/-- Where the climbs from two places meet: the later one goes up its link. A
place with no link upwards gives way to the other. -/
def meet (links : DominatorLinks n) (a b : Fin n) : Fin n :=
  if a = b then a
  else if b < a then
    match links.get a with
    | some d => if d < a then meet links d b else b
    | none => b
  else
    match links.get b with
    | some d => if d < b then meet links a d else a
    | none => a
termination_by a.val + b.val

/-- Recomputes the link of one place from its predecessors. -/
def relink (preds : Fin n → List (Fin n)) (root : Fin n) (links : DominatorLinks n)
    (i : Fin n) : DominatorLinks n :=
  if i = root then links
  else match (preds i).filter (fun p => (links.get p).isSome) with
    | [] => links
    | first :: rest => links.set i (some (rest.foldl links.meet first)) i.isLt

/-- Recomputes every link once, in order. -/
def pass (preds : Fin n → List (Fin n)) (root : Fin n) (links : DominatorLinks n) :
    DominatorLinks n :=
  (List.finRange n).foldl (relink preds root) links

/-- Repeats passes until one changes nothing, at most as often as told. -/
def settle (preds : Fin n → List (Fin n)) (root : Fin n) : Nat → DominatorLinks n → DominatorLinks n
  | 0, links => links
  | passes + 1, links =>
    let links' := pass preds root links
    if links' = links then links else settle preds root passes links'

def start (root : Fin n) : DominatorLinks n :=
  (Vector.replicate n none).set root (some root) root.isLt

/-- The settled links. Every pass but the last lowers a link, and `n` links can
be lowered `n` times each. -/
def compute (preds : Fin n → List (Fin n)) (root : Fin n) : DominatorLinks n :=
  settle preds root (n * (n + 1) + 1) (start root)

/-- A place and the places its links lead up to. -/
def chain (links : DominatorLinks n) (i : Fin n) : List (Fin n) :=
  i :: match links.get i with
    | some d => if d < i then chain links d else []
    | none => []
termination_by i.val

end DominatorLinks

/-- The dominator tree of a graph: its blocks in reverse post-order, and the
link of each that the entry reaches. -/
structure DominatorTree where
  order : List BlockId
  links : DominatorLinks order.length

namespace DominatorTree

/-- The tree in which nothing dominates anything else. -/
def empty : DominatorTree := ⟨[], .mk #[] rfl⟩

/-- The dominator tree of a graph; empty when the entry was never added. -/
def ofGraph (g : Graph) : DominatorTree :=
  let order := g.reversePostOrder
  match order.finIdxOf? g.entry with
  | none => empty
  | some root =>
    let preds := Vector.ofFn fun i : Fin order.length =>
      (g.predecessors (order.get i)).filterMap order.finIdxOf?
    ⟨order, DominatorLinks.compute (fun i => preds.get i) root⟩

/-- A block followed by its dominators up to the entry. A block without place
in the order stands alone. -/
def dominators (t : DominatorTree) (b : BlockId) : List BlockId :=
  match t.order.finIdxOf? b with
  | none => [b]
  | some i => (t.links.chain i).map fun j => t.order.get j

/-- Whether `a` is among the dominators of `b`. -/
def dominates (t : DominatorTree) (a b : BlockId) : Bool := (t.dominators b).contains a

/-- The closest dominator of a block other than itself. -/
def immediate? (t : DominatorTree) (b : BlockId) : Option BlockId := (t.dominators b)[1]?

theorem dominates_refl (t : DominatorTree) (b : BlockId) : t.dominates b b = true := by
  unfold dominates dominators
  split
  · simp
  · rename_i i h
    have hi : t.order.get i = b := by
      have := List.finIdxOf?_eq_some_iff.1 h
      simpa using this.1
    unfold DominatorLinks.chain
    rw [List.map_cons, hi]
    simp

end DominatorTree
end Recovery
