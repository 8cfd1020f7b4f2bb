import Recovery.Proofs.Loop
import Recovery.Proofs.Structure.Numbering
import Recovery.Structure.Indexed
/-
  The numbers, found by index.

  A search of nodes keeps on its stack how far it has come at each node. What it
  does from one of them on is said by the forest that grows there
  (`search_frame`), by induction on `Forest.DepthFirst`: it comes back to the node
  below with the walk around that forest added, having read no neighbour past the
  last. So a search ends with the walk around its tree, a run over roots with the
  walk around its forest (`searchAll_eq`), and the numbers are read off the same
  walks as they are read off the forests (`number_eq`).
-/

namespace Recovery.Indexed

/-! ## Walks -/

section
variable {α : Type}

theorem entered_events (f : Forest α) : entered f.events = f.preorder := by
  unfold entered
  induction f with
  | nil => rfl
  | node v c s ihc ihs => simp [Forest.events, Forest.preorder, ihc, ihs]

theorem left_events (f : Forest α) : left f.events = f.postorder := by
  unfold left
  induction f with
  | nil => rfl
  | node v c s ihc ihs => simp [Forest.events, Forest.postorder, ihc, ihs]

end

/-! ## Marks -/

/-- The marks on the nodes of a list. -/
def Marks.on {n : Nat} (seen : List (Fin n)) : Marks n := .ofFn fun v => decide (v ∈ seen)

section
variable {n : Nat} {seen : List (Fin n)} {v : Fin n}

theorem Marks.get_on (seen : List (Fin n)) (v : Fin n) : (on seen).get v = decide (v ∈ seen) :=
  get_ofFn _ v

theorem Marks.clear_eq_on : clear n = on [] :=
  ext_get fun v => by rw [clear, get_replicate, get_on, decide_eq_false List.not_mem_nil]

theorem Marks.add_on (seen : List (Fin n)) (v : Fin n) : (on seen).add v = on (v :: seen) := by
  refine ext_get fun w => ?_
  rw [add, get_set, get_on, get_on]
  by_cases hw : v = w
  · rw [if_pos hw, decide_eq_true (hw ▸ List.mem_cons_self)]
  · rw [if_neg hw, decide_eq_decide, List.mem_cons, or_iff_right (Ne.symm hw)]

theorem Marks.on_congr {l l' : List (Fin n)} (h : ∀ v, v ∈ l ↔ v ∈ l') : on l = on l' :=
  ext_get fun v => by rw [get_on, get_on, decide_eq_decide, h v]

end

/-! ## Searches -/

section
variable {n : Nat} {next : Fin n → List (Fin n)} {backwards : Bool}

/-- The neighbours of a node in the order a search tries them. -/
def tries (next : Fin n → List (Fin n)) (backwards : Bool) (v : Fin n) : List (Fin n) :=
  if backwards then (next v).reverse else next v

theorem readAt_tries {v : Fin n} {tried : Nat} (h : tried < (next v).length) :
    readAt (next v) (if backwards then ((next v).length : Int) - 1 - tried else tried) =
      (tries next backwards v)[tried]? := by
  cases backwards with
  | false => exact readAt_natCast _ _
  | true =>
    have hplace : ((next v).length : Int) - 1 - tried = ((next v).length - 1 - tried : Nat) := by
      omega
    rw [if_pos rfl, hplace, readAt_natCast, tries, if_pos rfl, List.getElem?_reverse h]

theorem length_tries (next : Fin n → List (Fin n)) (backwards : Bool) (v : Fin n) :
    (tries next backwards v).length = (next v).length := by
  unfold tries
  split
  · exact List.length_reverse
  · rfl

variable {v w : Fin n} {tried : Nat} {rest : List (Fin n × Nat)} {seen : List (Fin n)}
  {walk : List (Visit (Fin n))} {pending : List (Fin n)}

theorem searchTurn_leave (h : (tries next backwards v).drop tried = []) (marked : Marks n) :
    searchTurn next backwards ⟨(v, tried) :: rest, marked, walk⟩ =
      some (.again ⟨rest, marked, walk ++ [.leave v]⟩) := by
  have htried := List.drop_eq_nil_iff.1 h
  rw [length_tries] at htried
  rw [searchTurn]
  exact if_neg (Nat.not_lt.2 htried)

theorem searchTurn_try (h : (tries next backwards v).drop tried = w :: pending) :
    searchTurn next backwards ⟨(v, tried) :: rest, .on seen, walk⟩ = some (.again
      (if w ∈ seen then ⟨(v, tried + 1) :: rest, .on seen, walk⟩
      else ⟨(w, 0) :: (v, tried + 1) :: rest, .on (w :: seen), walk ++ [.enter w]⟩)) := by
  have hlt : tried < (next v).length := by
    rw [← length_tries next backwards]
    refine Nat.lt_of_not_le fun hle => ?_
    rw [List.drop_eq_nil_of_le hle] at h
    cases h
  have hread : (tries next backwards v)[tried]? = some w := (read_of_drop h).1
  rw [searchTurn]
  simp only [if_pos hlt, readAt_tries hlt, hread, Option.bind_eq_bind, Option.bind_some,
    Marks.get_on, Marks.add_on, decide_eq_true_eq]
  split
  · rfl
  · rfl

/-- From a node on, with its neighbours tried up to a place, a search comes back to the node
below; it has walked around the forest that grows from the other neighbours. -/
theorem search_frame {seen' : List (Fin n)} {f : Forest (Fin n)}
    (h : Forest.DepthFirst (tries next backwards) pending seen f seen') :
    ∀ (v : Fin n) (tried : Nat) (rest : List (Fin n × Nat)) (walk : List (Visit (Fin n))),
      (tries next backwards v).drop tried = pending →
      untilDone (searchTurn next backwards) ⟨(v, tried) :: rest, .on seen, walk⟩ =
        untilDone (searchTurn next backwards)
          ⟨rest, .on seen', walk ++ (f.events ++ [.leave v])⟩ := by
  induction h with
  | done seen =>
    intro v tried rest walk hdrop
    exact untilDone_again (searchTurn_leave hdrop _)
  | @skip w pending seen seen' f hw _ ih =>
    intro v tried rest walk hdrop
    rw [untilDone_again (searchTurn_try hdrop), if_pos hw]
    exact ih v (tried + 1) rest walk (read_of_drop hdrop).2
  | @visit w pending seen mid seen' c f hw _ _ ihc ihf =>
    intro v tried rest walk hdrop
    rw [untilDone_again (searchTurn_try hdrop), if_neg hw, ihc w 0 _ _ List.drop_zero,
      ihf v (tried + 1) rest _ (read_of_drop hdrop).2]
    simp only [Forest.events, List.append_assoc, List.cons_append, List.nil_append]

/-- A search ends, with the walk around the tree of its root. -/
theorem search_eq (next : Fin n → List (Fin n)) (backwards : Bool) {root : Fin n}
    {mid : List (Fin n)} {c : Forest (Fin n)}
    (h : Forest.DepthFirst (tries next backwards) (tries next backwards root) (root :: seen)
      c mid) :
    search next backwards (.on seen) root =
      some (.on mid, .enter root :: (c.events ++ [.leave root])) := by
  rw [search, Marks.add_on, search_frame h root 0 [] _ List.drop_zero]
  exact untilDone_done rfl

theorem search_of_depthFirst (next : Fin n → List (Fin n)) (backwards : Bool) {root : Fin n}
    {f : Forest (Fin n)} {seen' : List (Fin n)} (hroot : root ∉ seen)
    (h : Forest.DepthFirst (tries next backwards) [root] seen f seen') :
    search next backwards (.on seen) root = some (.on seen', f.events) := by
  cases h with
  | skip hs _ => exact absurd hs hroot
  | visit _ hc hs =>
    cases hs with
    | done _ => exact search_eq next backwards hc

theorem searchAll_eq {roots : List (Fin n)} {f : Forest (Fin n)} {seen' : List (Fin n)}
    (h : Forest.DepthFirst next roots [] f seen') :
    searchAll next roots = some (.on seen', f.events) := by
  rw [searchAll, Marks.clear_eq_on]
  suffices hrun : ∀ {roots seen seen' : List (Fin n)} {f : Forest (Fin n)},
      Forest.DepthFirst next roots seen f seen' → ∀ walk : List (Visit (Fin n)),
        roots.foldlM (fun (state : Marks n × List (Visit (Fin n))) root =>
          if state.1.get root then some (state.1, state.2)
          else (search next false state.1 root).map fun found =>
            (found.1, state.2 ++ found.2)) (.on seen, walk) = some (.on seen', walk ++ f.events) from
    hrun h []
  intro roots seen seen' f h
  induction h with
  | done seen =>
    intro walk
    rw [Forest.events, List.append_nil]
    rfl
  | skip hw _ ih =>
    intro walk
    rw [List.foldlM_cons, Marks.get_on, decide_eq_true hw]
    exact ih walk
  | visit hw hc _ _ ih =>
    intro walk
    rw [List.foldlM_cons, Marks.get_on, decide_eq_false hw]
    simp only [Bool.false_eq_true, if_false, search_eq next false hc]
    refine (ih _).trans ?_
    simp only [Forest.events, List.append_assoc, List.cons_append, List.nil_append]

end

theorem number_eq (g : NodeGraph) : number g = some (Numbering.ofNodeGraph g) := by
  obtain ⟨_, hforward⟩ := Numbering.depthFirst_search g.next [g.entry]
  obtain ⟨_, hopposite⟩ := Numbering.depthFirst_search (fun v => (g.next v).reverse) [g.entry]
  obtain ⟨_, hagainst⟩ := Numbering.depthFirst_search g.previous
    (g.exit.toList ++ (Forest.search g.next g.size [g.entry]).postorder)
  have hf := search_of_depthFirst g.next false List.not_mem_nil hforward
  have ho := search_of_depthFirst g.next true List.not_mem_nil hopposite
  rw [number, Marks.clear_eq_on, hf, ho]
  simp only [Option.bind_eq_bind, Option.bind_some, left_events, entered_events]
  rw [searchAll_eq hagainst]
  simp only [Option.bind_some, left_events]
  rfl

end Recovery.Indexed
