import Mathlib.Data.List.Forall2
/-
  Runs over lists that cannot fail.

  A run over a list fails at its first step that fails. To show that it does
  not, one names what every step may rely on and shows that each step succeeds
  and hands it on. That may speak of the part of the list that is done
  (`exists_foldlM_along`), or of the state alone (`exists_foldlM_ok`). A run that is
  known to have succeeded is taken apart into steps that did (`bind_eq_ok`), and it is
  enough to look at those (`of_foldlM_eq_ok`).
-/

namespace Recovery
variable {α β ε : Type}

theorem bind_eq_ok {x : Except ε α} {f : α → Except ε β} {c : β} :
    (x >>= f) = .ok c ↔ ∃ a, x = .ok a ∧ f a = .ok c := by
  cases x with
  | error e =>
    constructor
    · intro h
      cases h
    · rintro ⟨a, ha, -⟩
      cases ha
  | ok a =>
    constructor
    · exact fun h => ⟨a, rfl, h⟩
    · rintro ⟨a', ha, h⟩
      rwa [← Except.ok.inj ha] at h

theorem mem_of_split {l done rest : List α} {x : α} (hl : done ++ x :: rest = l) : x ∈ l := by
  rw [← hl]
  exact List.mem_append_right _ List.mem_cons_self

/-- A run succeeds when each step succeeds and hands on what is said of the part
of the list that is done. -/
theorem exists_foldlM_along {f : β → α → Except ε β} {motive : List α → β → Prop} (l : List α)
    (h : ∀ done x rest, done ++ x :: rest = l → ∀ b, motive done b →
      ∃ c, f b x = .ok c ∧ motive (done ++ [x]) c) :
    ∀ b, motive [] b → ∃ c, l.foldlM f b = .ok c ∧ motive l c := by
  suffices hrest : ∀ rest done b, done ++ rest = l → motive done b →
      ∃ c, rest.foldlM f b = .ok c ∧ motive l c from fun b hb => hrest l [] b rfl hb
  intro rest
  induction rest with
  | nil =>
    intro done b hl hb
    rw [List.append_nil] at hl
    rw [← hl]
    exact ⟨b, rfl, hb⟩
  | cons x rest ih =>
    intro done b hl hb
    obtain ⟨c, hc, hmotive⟩ := h done x rest hl b hb
    rw [List.append_cons] at hl
    obtain ⟨d, hd, hmotive'⟩ := ih (done ++ [x]) c hl hmotive
    refine ⟨d, ?_, hmotive'⟩
    rw [List.foldlM_cons, hc]
    exact hd

theorem foldl_along {f : β → α → β} {motive : List α → β → Prop} (l : List α)
    (h : ∀ done x rest, done ++ x :: rest = l → ∀ b, motive done b → motive (done ++ [x]) (f b x))
    (b : β) (hb : motive [] b) : motive l (l.foldl f b) := by
  suffices hrest : ∀ rest done b, done ++ rest = l → motive done b → motive l (rest.foldl f b) from
    hrest l [] b rfl hb
  intro rest
  induction rest with
  | nil =>
    intro done b hl hb
    rw [List.append_nil] at hl
    rw [← hl]
    exact hb
  | cons x rest ih =>
    intro done b hl hb
    have hmotive := h done x rest hl b hb
    rw [List.append_cons] at hl
    exact ih (done ++ [x]) (f b x) hl hmotive

theorem exists_foldlM_ok {step : β → α → Except ε β} {Inv : β → Prop} (l : List α)
    (h : ∀ b, Inv b → ∀ x ∈ l, ∃ c, step b x = .ok c ∧ Inv c) :
    ∀ b, Inv b → ∃ c, l.foldlM step b = .ok c ∧ Inv c := by
  refine exists_foldlM_along (motive := fun _ => Inv) l ?_
  intro done x rest hl b hb
  exact h b hb x (mem_of_split hl)

/-- Each step of a run that came to an end succeeded, so a run keeps what every step that
succeeds keeps. -/
theorem of_foldlM_eq_ok {f : β → α → Except ε β} {motive : List α → β → Prop} (l : List α)
    (h : ∀ done x rest, done ++ x :: rest = l → ∀ b c, motive done b → f b x = .ok c →
      motive (done ++ [x]) c) :
    ∀ b c, motive [] b → l.foldlM f b = .ok c → motive l c := by
  suffices hrest : ∀ rest done b c, done ++ rest = l → motive done b →
      rest.foldlM f b = .ok c → motive l c from fun b c hb hrun => hrest l [] b c rfl hb hrun
  intro rest
  induction rest with
  | nil =>
    intro done b c hl hb hrun
    rw [List.append_nil] at hl
    rw [← hl, ← Except.ok.inj hrun]
    exact hb
  | cons x rest ih =>
    intro done b c hl hb hrun
    rw [List.foldlM_cons] at hrun
    obtain ⟨b', hstep, hrun⟩ := bind_eq_ok.1 hrun
    have hmotive := h done x rest hl b b' hb hstep
    rw [List.append_cons] at hl
    exact ih (done ++ [x]) b' c hl hmotive hrun

theorem exists_mapM_ok {f : α → Except ε β} {R : α → β → Prop} (l : List α)
    (h : ∀ x ∈ l, ∃ y, f x = .ok y ∧ R x y) : ∃ ys, l.mapM f = .ok ys ∧ List.Forall₂ R l ys := by
  induction l with
  | nil => exact ⟨[], rfl, .nil⟩
  | cons x l ih =>
    obtain ⟨y, hy, hR⟩ := h x List.mem_cons_self
    obtain ⟨ys, hys, hRs⟩ := ih fun z hz => h z (List.mem_cons_of_mem _ hz)
    refine ⟨y :: ys, ?_, .cons hR hRs⟩
    rw [List.mapM_cons, hy, hys]
    rfl

theorem forall₂_of_mapM_eq_ok {f : α → Except ε β} {xs : List α} {ys : List β}
    (h : xs.mapM f = .ok ys) : List.Forall₂ (fun x y => f x = .ok y) xs ys := by
  induction xs generalizing ys with
  | nil =>
    rw [← Except.ok.inj h]
    exact .nil
  | cons x xs ih =>
    rw [List.mapM_cons] at h
    obtain ⟨y, hx, h⟩ := bind_eq_ok.1 h
    obtain ⟨ys', hxs, h⟩ := bind_eq_ok.1 h
    rw [← Except.ok.inj h]
    exact .cons hx (ih hxs)

theorem exists_append_of_forall₂ {R : α → β → Prop} {xs₁ xs₂ : List α} {ys : List β}
    (h : List.Forall₂ R (xs₁ ++ xs₂) ys) :
    ∃ ys₁ ys₂, ys = ys₁ ++ ys₂ ∧ List.Forall₂ R xs₁ ys₁ ∧ List.Forall₂ R xs₂ ys₂ :=
  ⟨ys.take xs₁.length, ys.drop xs₁.length, (List.take_append_drop ..).symm,
    (List.forall₂_take_append _ _ _ h.flip).flip, (List.forall₂_drop_append _ _ _ h.flip).flip⟩

theorem exists_left_of_mem {R : α → β → Prop} {xs : List α} {ys : List β}
    (h : List.Forall₂ R xs ys) {y : β} (hy : y ∈ ys) : ∃ x ∈ xs, R x y := by
  induction h with
  | nil => cases hy
  | cons hR _ ih =>
    rcases List.mem_cons.1 hy with rfl | hy
    · exact ⟨_, List.mem_cons_self, hR⟩
    · obtain ⟨x, hx, hxy⟩ := ih hy
      exact ⟨x, List.mem_cons_of_mem _ hx, hxy⟩

theorem exists_right_of_mem {R : α → β → Prop} {xs : List α} {ys : List β}
    (h : List.Forall₂ R xs ys) {x : α} (hx : x ∈ xs) : ∃ y ∈ ys, R x y :=
  exists_left_of_mem h.flip hx

theorem exists_right_of_getElem? {R : α → β → Prop} {xs : List α} {ys : List β}
    (h : List.Forall₂ R xs ys) {i : Nat} {x : α} (hx : xs[i]? = some x) :
    ∃ y, ys[i]? = some y ∧ R x y := by
  induction h generalizing i with
  | nil => cases hx
  | cons hR _ ih =>
    cases i with
    | zero =>
      obtain rfl := Option.some.inj hx
      exact ⟨_, rfl, hR⟩
    | succ i => exact ih hx

theorem exists_left_of_getElem? {R : α → β → Prop} {xs : List α} {ys : List β}
    (h : List.Forall₂ R xs ys) {i : Nat} {y : β} (hy : ys[i]? = some y) :
    ∃ x, xs[i]? = some x ∧ R x y :=
  exists_right_of_getElem? h.flip hy

theorem forall₂_filterMap {R : α → β → Prop} {g : α → Option β} (l : List α)
    (h : ∀ x ∈ l, ∃ y, g x = some y ∧ R x y) : List.Forall₂ R l (l.filterMap g) := by
  induction l with
  | nil => exact .nil
  | cons x l ih =>
    obtain ⟨y, hy, hR⟩ := h x List.mem_cons_self
    rw [List.filterMap_cons_some hy]
    exact .cons hR (ih fun z hz => h z (List.mem_cons_of_mem _ hz))

/-- What is said of two things that a list was turned into, for the same element, is said of
them in order. -/
theorem forall₂_of_common {γ : Type} {R : α → β → Prop} {S : α → γ → Prop}
    {T : β → γ → Prop} {xs : List α} {ys : List β} {zs : List γ} (h : List.Forall₂ R xs ys)
    (h' : List.Forall₂ S xs zs) (hT : ∀ x y z, R x y → S x z → T y z) : List.Forall₂ T ys zs := by
  induction h generalizing zs with
  | nil =>
    cases h'
    exact .nil
  | cons hR _ ih =>
    cases h' with
    | cons hS h' => exact .cons (hT _ _ _ hR hS) (ih h')

end Recovery
