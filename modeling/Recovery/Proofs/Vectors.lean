/-
  Vectors read by place.

  Tables over the `n` nodes or blocks of a graph are read with `Vector.get`, at
  a `Fin n`. These are its equations with the ways such tables are built. A table
  rewritten entry by entry is the table of the new entries, when no new entry
  depends on what was rewritten of the others (`foldl_set_eq_ofFn`).
-/

namespace Recovery
variable {α : Type} {n : Nat}

theorem get_ofFn (f : Fin n → α) (i : Fin n) : (Vector.ofFn f).get i = f i := by
  show (Vector.ofFn f)[i.val] = f i
  rw [Vector.getElem_ofFn]

theorem get_replicate (a : α) (i : Fin n) : (Vector.replicate n a).get i = a := by
  show (Vector.replicate n a)[i.val] = a
  rw [Vector.getElem_replicate]

theorem get_set (v : Vector α n) (i j : Fin n) (a : α) :
    (v.set i a i.isLt).get j = if i = j then a else v.get j := by
  show (v.set i a i.isLt)[j.val] = _
  rw [Vector.getElem_set]
  simp only [Fin.ext_iff]
  rfl

theorem set_eq_self {v : Vector α n} {i : Fin n} {a : α} (h : v.get i = a) :
    v.set i a i.isLt = v := by
  subst h
  exact Vector.set_getElem_self i.isLt

theorem ext_get {v w : Vector α n} (h : ∀ i, v.get i = w.get i) : v = w :=
  Vector.ext fun i hi => h ⟨i, hi⟩

/-- Rewriting every entry in turn writes what each is given by the table as it was, when that
is told by the entry itself and by a part of the others that rewriting keeps. -/
theorem foldl_set_eq_ofFn {β : Type} (kept : α → β) (entry : Vector α n → Fin n → α)
    (hkept : ∀ t v, kept (entry t v) = kept (t.get v))
    (hlocal : ∀ s t v, (∀ w, kept (s.get w) = kept (t.get w)) → s.get v = t.get v →
      entry s v = entry t v)
    {list : List (Fin n)} (hnodup : list.Nodup) (hall : ∀ v, v ∈ list) (t : Vector α n) :
    list.foldl (fun s v => s.set v (entry s v) v.isLt) t = .ofFn (entry t) := by
  suffices hrun : ∀ list : List (Fin n), list.Nodup → ∀ s : Vector α n,
      (∀ w, kept (s.get w) = kept (t.get w)) → (∀ w ∈ list, s.get w = t.get w) →
      ∀ w, (list.foldl (fun s v => s.set v (entry s v) v.isLt) s).get w =
        if w ∈ list then entry t w else s.get w by
    refine ext_get fun w => ?_
    rw [hrun list hnodup t (fun _ => rfl) (fun _ _ => rfl), if_pos (hall w), get_ofFn]
  intro list
  induction list with
  | nil => exact fun _ s _ _ w => (if_neg List.not_mem_nil).symm
  | cons v list ih =>
    intro hnodup s hs hrest w
    obtain ⟨hv, hnodup⟩ := List.nodup_cons.1 hnodup
    have hentry : entry s v = entry t v := hlocal s t v hs (hrest v List.mem_cons_self)
    rw [List.foldl_cons, ih hnodup, get_set, hentry]
    · by_cases hw : v = w
      · rw [if_neg (hw ▸ hv), if_pos hw, if_pos (hw ▸ List.mem_cons_self), hw]
      · rw [if_neg hw]
        simp only [List.mem_cons, Ne.symm hw, false_or]
    · intro w
      rw [get_set]
      split
      · next hvw => rw [hkept, ← hvw, hs]
      · exact hs w
    · intro w hw
      have hne : v ≠ w := fun hvw => hv (hvw ▸ hw)
      rw [get_set, if_neg hne]
      exact hrest w (List.mem_cons_of_mem v hw)

end Recovery
