/-
  Depth-first search.

  A search answers the forest it has grown: a tree for every root that was not
  yet seen, and below each vertex a tree for every neighbour that had not been
  seen when its turn came. All the orders other modules need are readings of
  that forest: `preorder`, `postorder`, and the `events` of entering and
  leaving, from which stamps are counted.

  `sweep` is one level of the search, over a list of pending vertices, given
  what hangs below a vertex; `grow` nests it. Each level marks a vertex that was
  not seen before, so as many levels as there are vertices are enough, and
  `search` takes that number.
-/

namespace Recovery

/-- Trees side by side: a root, the trees below it, and the trees after it. -/
inductive Forest (α : Type) where
  | nil
  | node (root : α) (children siblings : Forest α)
  deriving DecidableEq, Repr

/-- A step of walking around a forest. -/
inductive Visit (α : Type) where
  | enter (v : α)
  | leave (v : α)
  deriving DecidableEq, Repr

namespace Forest
variable {α : Type}

def preorder : Forest α → List α
  | nil => []
  | node v children siblings => v :: (children.preorder ++ siblings.preorder)

def postorder : Forest α → List α
  | nil => []
  | node v children siblings => children.postorder ++ v :: siblings.postorder

/-- The walk around the forest. -/
def events : Forest α → List (Visit α)
  | nil => []
  | node v children siblings => .enter v :: (children.events ++ .leave v :: siblings.events)

theorem postorder_perm_preorder (f : Forest α) : f.postorder.Perm f.preorder := by
  induction f with
  | nil => exact .nil
  | node v children siblings ihc ihs =>
    exact List.perm_middle.trans (.cons v (ihc.append ihs))

variable [DecidableEq α]

/-- When a walk enters and leaves a vertex, counted from one. -/
def stampsIn (walk : List (Visit α)) (v : α) : Nat × Nat :=
  (walk.idxOf (.enter v) + 1, walk.idxOf (.leave v) + 1)

/-- Takes the pending vertices in turn. One already seen is passed over; any
other becomes a root, with what `below` grows from it once it is marked. -/
def sweep (below : α → List α → Forest α × List α) : List α → List α → Forest α × List α
  | [], seen => (nil, seen)
  | v :: pending, seen =>
    if v ∈ seen then sweep below pending seen
    else
      let children := below v (v :: seen)
      let siblings := sweep below pending children.2
      (node v children.1 siblings.1, siblings.2)

/-- Searches from the pending vertices down to a depth; answers the forest and
the vertices seen after it. -/
def grow (next : α → List α) : Nat → List α → List α → Forest α × List α
  | 0 => fun _ seen => (nil, seen)
  | depth + 1 => sweep fun v => grow next depth (next v)

/-- The depth-first forest of a graph with `count` vertices, from some roots. -/
def search (next : α → List α) (count : Nat) (roots : List α) : Forest α :=
  (grow next count roots []).1

/-- A sweep marks exactly the vertices of its forest, if `below` does. -/
theorem mem_seen_sweep {below : α → List α → Forest α × List α}
    (hb : ∀ v s x, x ∈ (below v s).2 ↔ x ∈ (below v s).1.preorder ∨ x ∈ s)
    (pending seen : List α) (x : α) :
    x ∈ (sweep below pending seen).2 ↔ x ∈ (sweep below pending seen).1.preorder ∨ x ∈ seen := by
  induction pending generalizing seen with
  | nil => simp [sweep, preorder]
  | cons v pending ih =>
    unfold sweep
    split
    · exact ih seen
    · simp only [preorder, List.mem_cons, List.mem_append, ih, hb]
      constructor
      · rintro (h | h | h | h) <;> simp [h]
      · rintro ((h | h | h) | h) <;> simp [h]

theorem mem_seen_grow (next : α → List α) (depth : Nat) (pending seen : List α) (x : α) :
    x ∈ (grow next depth pending seen).2 ↔
      x ∈ (grow next depth pending seen).1.preorder ∨ x ∈ seen := by
  induction depth generalizing pending seen x with
  | zero => simp [grow, preorder]
  | succ depth ih => exact mem_seen_sweep (fun v s y => ih (next v) s y) pending seen x

end Forest
end Recovery
