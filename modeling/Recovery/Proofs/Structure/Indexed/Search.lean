import Recovery.Proofs.ControlFlow.Tour
import Recovery.Proofs.Structure.Indexed.Numbering
/-
  What a search of nodes does.

  A search takes one step of its walk in a turn, or none, and marks a node when it enters
  it (`searchTurn_cases`). So whatever state it comes by, its marks are those it started
  with and those of the nodes that its walk has entered (`marked_of_visits`), and every
  step of the walk is taken in a turn with these marks (`takes_of_search`).

  The walk goes around the forest that grows from the root. `Explores` reads off that
  forest what a search is for: which nodes are entered and left, how the steps are
  nested, what is entered between entering a node and leaving it, and what is marked by
  then. `exists_search_explores` proves it for any neighbours, any marks at the start and
  both directions.
-/

namespace Recovery.Indexed
variable {n : Nat} {next : Fin n → List (Fin n)} {backwards : Bool} {marked : Marks n}
  {root v : Fin n} {walk : List (Visit (Fin n))}

/-! ## Marks along a walk -/

namespace Marks

/-- The marks when a walk has come so far: those from before it, and those of the nodes it has
entered. -/
def after (marked : Marks n) (walk : List (Visit (Fin n))) : Marks n :=
  .ofFn fun v => marked.get v || decide (.enter v ∈ walk)

theorem get_after : (marked.after walk).get v = true ↔ marked.get v = true ∨ .enter v ∈ walk := by
  rw [after, get_ofFn, Bool.or_eq_true, decide_eq_true_eq]

theorem get_after_eq_false :
    (marked.after walk).get v = false ↔ marked.get v = false ∧ .enter v ∉ walk := by
  rw [after, get_ofFn, Bool.or_eq_false_iff, decide_eq_false_iff_not]

theorem after_append (marked : Marks n) (walk more : List (Visit (Fin n))) :
    marked.after (walk ++ more) = (marked.after walk).after more := by
  refine ext_get fun v => ?_
  rw [Bool.eq_iff_iff]
  simp only [get_after, List.mem_append, or_assoc]

theorem after_enter (marked : Marks n) (v : Fin n) : marked.after [.enter v] = marked.add v := by
  refine ext_get fun w => ?_
  rw [Bool.eq_iff_iff, get_after, add, get_set, List.mem_singleton, Visit.enter.injEq]
  split
  · next h => simp [h]
  · next h => simp [Ne.symm h]

theorem after_leave (marked : Marks n) (v : Fin n) : marked.after [.leave v] = marked := by
  refine ext_get fun w => ?_
  rw [Bool.eq_iff_iff, get_after]
  simp

theorem exists_on (marked : Marks n) :
    ∃ seen, marked = on seen ∧ ∀ v, v ∈ seen ↔ marked.get v = true := by
  refine ⟨(List.finRange n).filter marked.get, ext_get fun v => ?_, fun v => by simp⟩
  rw [get_on, Bool.eq_iff_iff]
  simp

end Marks

/-! ## Turns -/

def Search.start (marked : Marks n) (root : Fin n) : Search n :=
  ⟨[(root, 0)], marked.add root, [.enter root]⟩

/-- A turn takes one step and marks a node if that enters one, or it does nothing of either. -/
theorem searchTurn_cases {s t : Search n} (h : searchTurn next backwards s = some (.again t)) :
    (t.walk = s.walk ∧ t.marked = s.marked) ∨
      ∃ e, t.walk = s.walk ++ [e] ∧ t.marked = s.marked.after [e] := by
  obtain ⟨stack, marked, walk⟩ := s
  cases stack with
  | nil => cases h
  | cons top rest =>
    obtain ⟨v, tried⟩ := top
    simp only [searchTurn] at h
    split at h
    · obtain ⟨w, -, h⟩ := Option.bind_eq_some_iff.1 h
      split at h
      · obtain rfl := Turn.again.inj (Option.some.inj h)
        exact Or.inl ⟨rfl, rfl⟩
      · obtain rfl := Turn.again.inj (Option.some.inj h)
        exact Or.inr ⟨.enter w, rfl, (marked.after_enter w).symm⟩
    · obtain rfl := Turn.again.inj (Option.some.inj h)
      exact Or.inr ⟨.leave v, rfl, (marked.after_leave v).symm⟩

theorem searchTurn_done {s : Search n} {answer : Marks n × List (Visit (Fin n))}
    (h : searchTurn next backwards s = some (.done answer)) : answer = (s.marked, s.walk) := by
  obtain ⟨stack, marked, walk⟩ := s
  cases stack with
  | nil => exact (Turn.done.inj (Option.some.inj h)).symm
  | cons top rest =>
    obtain ⟨v, tried⟩ := top
    simp only [searchTurn] at h
    split at h
    · obtain ⟨w, -, h⟩ := Option.bind_eq_some_iff.1 h
      split at h <;> cases h
    · cases h

/-- Whatever state a search comes by, its marks tell its walk. -/
theorem marked_of_visits {s : Search n}
    (h : Visits (searchTurn next backwards) (.start marked root) s) :
    s.marked = marked.after s.walk := by
  induction h with
  | start => exact (marked.after_enter root).symm
  | next _ hturn ih =>
    rcases searchTurn_cases hturn with ⟨hwalk, hmarked⟩ | ⟨e, hwalk, hmarked⟩
    · rw [hwalk, hmarked, ih]
    · rw [hwalk, hmarked, ih, Marks.after_append]

/-- `Takes next backwards marked root before e`: the search comes by a state whose walk is
`before` and whose turn takes the step `e`, and the marks tell the walk before and after. -/
def Takes (next : Fin n → List (Fin n)) (backwards : Bool) (marked : Marks n) (root : Fin n)
    (before : List (Visit (Fin n))) (e : Visit (Fin n)) : Prop :=
  ∃ s t, Visits (searchTurn next backwards) (.start marked root) s ∧
    searchTurn next backwards s = some (.again t) ∧
    s.walk = before ∧ s.marked = marked.after before ∧
    t.walk = before ++ [e] ∧ t.marked = marked.after (before ++ [e])

/-- Every step after the first is taken in a turn. -/
theorem takes_of_visits {s : Search n}
    (h : Visits (searchTurn next backwards) (.start marked root) s) :
    ∀ before e after, before ≠ [] → s.walk = before ++ e :: after →
      Takes next backwards marked root before e := by
  induction h with
  | start =>
    intro before e after hne hwalk
    cases before with
    | nil => exact absurd rfl hne
    | cons a before => simp [Search.start] at hwalk
  | @next s t hs hturn ih =>
    intro before e after hne hwalk
    rcases searchTurn_cases hturn with ⟨hsame, -⟩ | ⟨d, hstep, -⟩
    · exact ih before e after hne (hsame ▸ hwalk)
    · rw [hstep] at hwalk
      rcases List.eq_nil_or_concat after with rfl | ⟨after, last, rfl⟩
      · -- the step is the one of this turn
        obtain ⟨rfl, hd⟩ := List.append_inj' hwalk rfl
        obtain rfl : d = e := List.cons.inj hd |>.1
        refine ⟨s, t, hs, hturn, rfl, marked_of_visits hs, hstep, ?_⟩
        rw [← hstep]
        exact marked_of_visits (hs.next hturn)
      · -- it is one of those before
        refine ih before e after hne ?_
        rw [List.concat_eq_append, ← List.cons_append, ← List.append_assoc] at hwalk
        exact (List.append_inj' hwalk rfl).1

theorem takes_of_search {marked' : Marks n}
    (h : search next backwards marked root = some (marked', walk)) :
    ∀ before e after, before ≠ [] → walk = before ++ e :: after →
      Takes next backwards marked root before e := by
  obtain ⟨last, hlast, hdone⟩ := exists_visits_done (s := Search.start marked root) h
  obtain ⟨-, rfl⟩ := Prod.mk.inj (searchTurn_done hdone)
  exact takes_of_visits hlast

/-! ## The walk -/

theorem mem_tries {w : Fin n} : w ∈ tries next backwards v ↔ w ∈ next v := by
  unfold tries
  split
  · exact List.mem_reverse
  · exact Iff.rfl

theorem alongTo_tries (P : Fin n → Prop) :
    AlongTo (tries next backwards) P = AlongTo next P := by
  funext u w
  rw [AlongTo, AlongTo, mem_tries]

/-- What a search does from a root, when it answers marks and a walk. -/
structure Explores (next : Fin n → List (Fin n)) (backwards : Bool) (marked : Marks n)
    (root : Fin n) (marked' : Marks n) (walk : List (Visit (Fin n))) : Prop where
  /-- No step is taken twice. -/
  once : walk.Nodup
  /-- The nodes entered are those that the root reaches through nodes not marked before. -/
  entered : ∀ v, .enter v ∈ walk ↔ Reaches (AlongTo next (marked.get · = false)) root v
  /-- The nodes left are the same. -/
  left : ∀ v, .leave v ∈ walk ↔ Reaches (AlongTo next (marked.get · = false)) root v
  /-- They are marked in the end, beside those that were before. -/
  marks : ∀ v, marked'.get v = true ↔
    marked.get v = true ∨ Reaches (AlongTo next (marked.get · = false)) root v
  nested : Visit.Nested walk
  /-- Between entering a node and leaving it, the nodes entered are those that it reaches
  through nodes not marked when it was entered; then all its neighbours are marked. -/
  between : ∀ u, .enter u ∈ walk → ∃ before inside after,
    walk = before ++ .enter u :: (inside ++ .leave u :: after) ∧
      (∀ w, .enter w ∈ inside ↔ w ≠ u ∧
        Reaches (AlongTo next ((marked.after (before ++ [.enter u])).get · = false)) u w) ∧
      ∀ w ∈ next u, (marked.after (before ++ .enter u :: inside)).get w = true
  /-- The first step enters the root, before the first turn. -/
  first : walk.head? = some (.enter root)
  /-- Every other step is taken in a turn. -/
  taken : ∀ before e after, before ≠ [] → walk = before ++ e :: after →
    Takes next backwards marked root before e

/-- **Depth-first search.** From a root that is not marked a search ends, for any neighbours,
any marks at the start and both directions. It enters, leaves and marks what the root reaches
through nodes not marked before, each node once and the steps properly nested. Between
entering a node and leaving it, it enters what that node reaches through nodes not marked by
then, and it leaves no node before all its neighbours are marked. -/
theorem exists_search_explores (next : Fin n → List (Fin n)) (backwards : Bool)
    (marked : Marks n) (root : Fin n) (hroot : marked.get root = false) :
    ∃ marked' walk, search next backwards marked root = some (marked', walk) ∧
      Explores next backwards marked root marked' walk := by
  obtain ⟨seen, rfl, hseen⟩ := marked.exists_on
  have hmarked (v : Fin n) : v ∉ seen ↔ (Marks.on seen).get v = false := by
    rw [hseen, Bool.not_eq_true]
  have hunmarked : root ∉ seen := (hmarked root).2 hroot
  obtain ⟨f, seen', hf⟩ : ∃ f seen',
      Forest.DepthFirst (tries next backwards) [root] seen f seen' :=
    ⟨_, _, Numbering.depthFirst_grow _ _ _⟩
  have hsearch := search_of_depthFirst next backwards hunmarked hf
  have hreaches (v : Fin n) : v ∈ f.preorder ↔
      Reaches (AlongTo next ((Marks.on seen).get · = false)) root v := by
    rw [hf.mem_preorder_iff_unmarked, alongTo_tries, alongTo_congr hmarked]
    simp [hunmarked]
  refine ⟨_, _, hsearch, ?_⟩
  constructor
  case once => exact Forest.nodup_events hf.nodup_preorder
  case entered =>
    intro v
    rw [(Forest.mem_events _ v).1, hreaches]
  case left =>
    intro v
    rw [(Forest.mem_events _ v).2, hreaches]
  case marks =>
    intro v
    rw [Marks.get_on, decide_eq_true_eq, hf.mem_seen, hreaches, hseen, or_comm]
  case nested => exact Forest.nested_events _
  case between =>
    intro u hu
    obtain ⟨before, inside, after, hwalk, hinside, hneighbours⟩ :=
      hf.exists_between ((Forest.mem_events _ u).1.1 hu)
    refine ⟨before, inside, after, hwalk, fun w => ?_, fun w hw => ?_⟩
    · rw [hinside, alongTo_tries]
      have hfree (x : Fin n) : x ∉ seen ∧ .enter x ∉ before ++ [.enter u] ↔
          ((Marks.on seen).after (before ++ [.enter u])).get x = false := by
        rw [Marks.get_after_eq_false, hmarked]
      rw [alongTo_congr hfree]
    · rw [Marks.get_after, ← hseen]
      exact hneighbours w (mem_tries.2 hw)
  case first =>
    -- the root is the first of its tree
    cases hf with
    | skip hs _ => exact absurd hs hunmarked
    | visit => rfl
  case taken => exact takes_of_search hsearch

/-- A node that leads on to one neighbour and twice to another, both of which lead to a fourth
node and that back to the first; and a node behind one that is marked. -/
def guarded : Fin 6 → List (Fin 6)
  | 0 => [1, 2, 2]
  | 1 => [3, 1]
  | 2 => [3, 4]
  | 3 => [0]
  | 4 => [5]
  | 5 => []

/-- Backwards the search takes the second neighbour first. It does not come to the node behind
the marked one. -/
theorem exists_search_explores_guarded :
    let marked := (Marks.clear 6).add 4
    let walk : List (Visit (Fin 6)) := [.enter 0, .enter 2, .enter 3, .leave 3, .leave 2,
      .enter 1, .leave 1, .leave 0]
    marked.get 0 = false ∧ ∃ marked', search guarded true marked 0 = some (marked', walk) ∧
      Explores guarded true marked 0 marked' walk ∧ marked'.get 5 = false := by
  intro marked walk
  have hroot : marked.get 0 = false := by decide
  have hmarked : marked = .on [4] := by decide
  have hsearch := search_of_depthFirst guarded true (by decide)
    (Numbering.depthFirst_grow (tries guarded true) [0] [4])
  have hwalk : (Forest.grow (tries guarded true) 6 [0] [4]).1.events = walk := by decide +kernel
  rw [← hmarked, hwalk] at hsearch
  obtain ⟨marked', walk', hsearch', hexplores⟩ :=
    exists_search_explores guarded true marked 0 hroot
  obtain ⟨rfl, rfl⟩ := Prod.mk.inj (Option.some.inj (hsearch.symm.trans hsearch'))
  exact ⟨hroot, _, hsearch, hexplores, by decide +kernel⟩

end Recovery.Indexed
