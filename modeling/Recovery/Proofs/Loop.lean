import Recovery.Loop
/-
  When a loop ends, and when a read hits.

  `exists_untilDone` is the rule for a loop whose bound is not in its text: an
  invariant under which every turn answers, and a rank that falls from turn to
  turn; `Visits` tells what such a loop comes by, and a loop that answers comes by
  its last turn (`exists_visits_done`). A loop over the places of a list goes over
  what stands there, if the places lie in the list: forwards (`eachAt_range`),
  backwards (`eachAt_range_reverse`) or over a part of it
  (`eachAt_range'_reverse`). Such a loop answers as soon as each of its steps does
  (`foldlM_some`, `foldlM_eq_some`).
-/

namespace Recovery
variable {α β γ : Type}

/-- A loop answers, and its answer is as the invariant wants it, when under the
invariant each turn answers and a rank falls whenever there is another turn. -/
theorem exists_untilDone {σ ρ : Type} {turn : σ → Option (Turn σ α)} {Inv : σ → Prop}
    {Post : α → Prop} {r : ρ → ρ → Prop} (hr : WellFounded r) (rank : σ → ρ)
    (hturn : ∀ s, Inv s → (∃ a, turn s = some (.done a) ∧ Post a) ∨
      ∃ t, turn s = some (.again t) ∧ Inv t ∧ r (rank t) (rank s)) :
    ∀ s, Inv s → ∃ a, untilDone turn s = some a ∧ Post a := by
  intro s
  induction s using (InvImage.wf rank hr).induction with
  | _ s ih =>
    intro hs
    rcases hturn s hs with ⟨a, ha, hpost⟩ | ⟨t, ht, hinv, hrank⟩
    · exact ⟨a, untilDone_done ha, hpost⟩
    · rw [untilDone_again ht]
      exact ih t hrank hinv

/-- `Visits turn s t`: a loop that starts at `s` comes by `t`. -/
inductive Visits {σ : Type} (turn : σ → Option (Turn σ α)) (s : σ) : σ → Prop
  | start : Visits turn s s
  | next {t u : σ} : Visits turn s t → turn t = some (.again u) → Visits turn s u

theorem Visits.after {σ : Type} {turn : σ → Option (Turn σ α)} {s t u : σ}
    (h : Visits turn t u) (hs : turn s = some (.again t)) : Visits turn s u := by
  induction h with
  | start => exact .next .start hs
  | next _ hturn ih => exact .next ih hturn

/-- A loop that answers comes by a turn that is the last. -/
theorem exists_visits_done {σ : Type} {turn : σ → Option (Turn σ α)} {s : σ} {a : α}
    (h : untilDone turn s = some a) : ∃ t, Visits turn s t ∧ turn t = some (.done a) := by
  refine untilDone.partial_correctness turn
    (fun s a => ∃ t, Visits turn s t ∧ turn t = some (.done a)) (fun loop ih s a hs => ?_) s a h
  obtain ⟨next, hturn, hnext⟩ := Option.bind_eq_some_iff.1 hs
  cases next with
  | again t =>
    obtain ⟨u, hu, hdone⟩ := ih t a hnext
    exact ⟨u, hu.after hturn, hdone⟩
  | done b =>
    rw [Option.some.inj hnext] at hturn
    exact ⟨s, .start, hturn⟩

/-! ## Reading places in turn -/

theorem read_of_drop {list rest : List α} {place : Nat} {a : α}
    (h : list.drop place = a :: rest) :
    list[place]? = some a ∧ list.drop (place + 1) = rest := by
  constructor
  · rw [← List.head?_drop, h, List.head?_cons]
  · rw [← List.tail_drop, h, List.tail_cons]

theorem eachAt_eq {list picked : List α} {places : List Nat}
    (h : places.map (fun place => list[place]?) = picked.map some) (step : β → α → Option β)
    (b : β) : eachAt list places step b = picked.foldlM step b := by
  unfold eachAt
  induction places generalizing picked b with
  | nil =>
    obtain rfl : picked = [] := List.map_eq_nil_iff.1 h.symm
    rfl
  | cons place places ih =>
    cases picked with
    | nil => exact absurd h (List.cons_ne_nil _ _)
    | cons a picked =>
      obtain ⟨ha, hrest⟩ := List.cons.inj h
      simp only [List.foldlM_cons, ha, Option.bind_eq_bind, Option.bind_some]
      exact bind_congr fun b => ih hrest b

theorem map_getElem?_range' {list : List α} (low : Nat) {high : Nat} (h : high ≤ list.length) :
    (List.range' low (high - low)).map (fun place => list[place]?) =
      ((list.drop low).take (high - low)).map some := by
  apply List.ext_getElem
  · simp only [List.length_map, List.length_range', List.length_take, List.length_drop]
    omega
  · intro i hi _
    rw [List.length_map, List.length_range'] at hi
    simp only [List.getElem_map, List.getElem_range', List.getElem_take, List.getElem_drop,
      Nat.one_mul]
    exact List.getElem?_eq_getElem (by omega)

theorem eachAt_range (list : List α) (step : β → α → Option β) (b : β) :
    eachAt list (List.range list.length) step b = list.foldlM step b := by
  refine eachAt_eq ?_ step b
  have h := map_getElem?_range' 0 (Nat.le_refl list.length)
  rwa [Nat.sub_zero, ← List.range_eq_range', List.drop_zero, List.take_length] at h

theorem eachAt_range'_reverse {list : List α} (low : Nat) {high : Nat}
    (h : high ≤ list.length) (step : β → α → Option β) (b : β) :
    eachAt list (List.range' low (high - low)).reverse step b =
      ((list.drop low).take (high - low)).reverse.foldlM step b := by
  refine eachAt_eq ?_ step b
  rw [List.map_reverse, map_getElem?_range' low h, List.map_reverse]

theorem eachAt_range_reverse (list : List α) (step : β → α → Option β) (b : β) :
    eachAt list (List.range list.length).reverse step b = list.reverse.foldlM step b := by
  have h := eachAt_range'_reverse 0 (Nat.le_refl list.length) step b
  rwa [Nat.sub_zero, ← List.range_eq_range', List.drop_zero, List.take_length] at h

/-! ## Runs whose steps all answer -/

theorem foldlM_some (plain : β → α → β) (list : List α) (b : β) :
    list.foldlM (fun b a => some (plain b a)) b = some (list.foldl plain b) :=
  List.foldlM_pure

/-- A run over a list answers as the plain run does, seen through `view`, when each step
does and keeps what the next one needs. -/
theorem foldlM_eq_some {f : β → α → Option β} {plain : γ → α → γ} (view : γ → β)
    (Keeps : γ → Prop) {list : List α}
    (hstep : ∀ c, ∀ a ∈ list, Keeps c →
      f (view c) a = some (view (plain c a)) ∧ Keeps (plain c a)) (c : γ) (hc : Keeps c) :
    list.foldlM f (view c) = some (view (list.foldl plain c)) ∧ Keeps (list.foldl plain c) := by
  induction list generalizing c with
  | nil => exact ⟨rfl, hc⟩
  | cons a list ih =>
    obtain ⟨ha, hkeeps⟩ := hstep c a List.mem_cons_self hc
    rw [List.foldlM_cons, ha, List.foldl_cons]
    exact ih (fun c x hx => hstep c x (List.mem_cons_of_mem a hx)) _ hkeeps

end Recovery
