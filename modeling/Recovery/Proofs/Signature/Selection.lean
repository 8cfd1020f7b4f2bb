import Recovery.Proofs.Runs
import Recovery.Proofs.Signature.Slots
/-
  Which identifier a slot stands for.

  `slots` goes through the identifiers in order of creation and keeps one for each
  offset. The one it keeps is `Chosen`: no identifier of the kind at that offset is
  wider, and none that is as wide was created earlier (`chosen_of_mem_slots`).

  The run is followed by what has been looked at (`Kept`): each slot found so far
  holds the best identifier so far at its offset, and an identifier looked at has its
  offset among those found. An insertion leaves a slot alone, puts the new identifier
  in, or refuses it (`mem_insertSlot`), and the new identifier is the latest.
-/

namespace Recovery.Synthesis

variable {f : Frame} {kind : StorageKind} {first : Int32} {id : IdentifierId}

/-- Whether a number is that of an identifier of a kind at an offset that callers see. -/
def LiesAt (f : Frame) (kind : StorageKind) (x : Int32) (id : IdentifierId) : Prop :=
  ∃ i, f.identifier? id = some i ∧ i.storage.kind = kind ∧ f.externalOffset? id = some x

/-- The identifier chosen at an offset: the widest there, the earliest among equals. -/
structure Chosen (f : Frame) (kind : StorageKind) (x : Int32) (id : IdentifierId) : Prop where
  lies : LiesAt f kind x id
  widest : ∀ other, LiesAt f kind x other → f.widthOf other ≤ f.widthOf id
  earliest : ∀ other, LiesAt f kind x other → f.widthOf other = f.widthOf id → id ≤ other

theorem Chosen.unique {x : Int32} {id' : IdentifierId} (h : Chosen f kind x id)
    (h' : Chosen f kind x id') : id = id' := by
  have hwidth : f.widthOf id = f.widthOf id' :=
    Nat.le_antisymm (h'.widest id h.lies) (h.widest id' h'.lies)
  exact Nat.le_antisymm (h.earliest id' h'.lies hwidth.symm) (h'.earliest id h.lies hwidth)

/-! ## One insertion -/

/-- What stands in the slots after an insertion: a slot at another offset as before, the
new identifier if it is wider than what stood there, or what stood there otherwise. -/
theorem mem_insertSlot {offset : Int32} {found : List (Int32 × IdentifierId)}
    {slot : Int32 × IdentifierId} (hsorted : (found.map Prod.fst).Pairwise (· < ·))
    (h : slot ∈ insertSlot f offset id found) :
    (slot ∈ found ∧ slot.1 ≠ offset) ∨
    (slot = (offset, id) ∧ ∀ other, (offset, other) ∈ found → f.widthOf other < f.widthOf id) ∨
    (slot ∈ found ∧ slot.1 = offset ∧ f.widthOf id ≤ f.widthOf slot.2) := by
  induction found with
  | nil =>
    rw [insertSlot, List.mem_singleton] at h
    exact .inr (.inl ⟨h, fun other hother => by cases hother⟩)
  | cons head rest ih =>
    obtain ⟨o, other⟩ := head
    rw [List.map_cons, List.pairwise_cons] at hsorted
    have hlater : ∀ slot ∈ rest, o < slot.1 := fun slot hslot =>
      hsorted.1 slot.1 (List.mem_map_of_mem hslot)
    unfold insertSlot at h
    split at h
    · next hlt =>
      -- every offset found lies behind the new one
      have hbehind : ∀ slot ∈ (o, other) :: rest, offset < slot.1 := by
        intro slot hslot
        rcases List.mem_cons.1 hslot with rfl | hslot
        · exact hlt
        · exact Int32.lt_trans hlt (hlater slot hslot)
      rcases List.mem_cons.1 h with rfl | h
      · exact .inr (.inl ⟨rfl, fun other' hmem => absurd (hbehind _ hmem) Int32.lt_irrefl⟩)
      · exact .inl ⟨h, (Int32.ne_of_lt (hbehind slot h)).symm⟩
    · split at h
      · next heq =>
        subst heq
        split at h
        · next hwider =>
          rcases List.mem_cons.1 h with rfl | h
          · refine .inr (.inl ⟨rfl, fun other' hmem => ?_⟩)
            rcases List.mem_cons.1 hmem with hhead | hmem
            · rw [(Prod.mk.inj hhead).2]
              exact hwider
            · exact absurd (hlater _ hmem) Int32.lt_irrefl
          · exact .inl ⟨List.mem_cons_of_mem _ h, (Int32.ne_of_lt (hlater slot h)).symm⟩
        · next hnarrower =>
          rcases List.mem_cons.1 h with rfl | h
          · exact .inr (.inr ⟨List.mem_cons_self, rfl, Nat.le_of_not_lt hnarrower⟩)
          · exact .inl ⟨List.mem_cons_of_mem _ h, (Int32.ne_of_lt (hlater slot h)).symm⟩
      · next hne =>
        rcases List.mem_cons.1 h with rfl | h
        · exact .inl ⟨List.mem_cons_self, fun heq => hne heq.symm⟩
        · rcases ih hsorted.2 h with ⟨hmem, hother⟩ | ⟨hnew, hwider⟩ | ⟨hmem, hsame⟩
          · exact .inl ⟨List.mem_cons_of_mem _ hmem, hother⟩
          · refine .inr (.inl ⟨hnew, fun other' hmem => ?_⟩)
            rcases List.mem_cons.1 hmem with hhead | hmem
            · exact absurd (Prod.mk.inj hhead).1 hne
            · exact hwider other' hmem
          · exact .inr (.inr ⟨List.mem_cons_of_mem _ hmem, hsame⟩)

/-! ## The run -/

/-- Whether a slot holds the best of the identifiers that have been looked at. -/
def Leading (f : Frame) (kind : StorageKind) (first : Int32)
    (done : List (Identifier × IdentifierId)) (slot : Int32 × IdentifierId) : Prop :=
  ∀ x ∈ done, slotAt f kind first x = some slot.1 →
    f.widthOf x.2 < f.widthOf slot.2 ∨ f.widthOf x.2 = f.widthOf slot.2 ∧ slot.2 ≤ x.2

/-- What the slots found say of the identifiers that have been looked at. -/
structure Kept (f : Frame) (kind : StorageKind) (first : Int32)
    (done : List (Identifier × IdentifierId)) (found : List (Int32 × IdentifierId)) : Prop where
  sorted : (found.map Prod.fst).Pairwise (· < ·)
  earlier : ∀ slot ∈ found, slot.2 < done.length
  complete : ∀ x ∈ done, ∀ o, slotAt f kind first x = some o → o ∈ found.map Prod.fst
  leading : ∀ slot ∈ found, Leading f kind first done slot

theorem eq_length_of_split {l : List Identifier} {done rest : List (Identifier × IdentifierId)}
    {x : Identifier × IdentifierId} (hl : done ++ x :: rest = l.zipIdx) : x.2 = done.length := by
  have hx : l.zipIdx[done.length]? = some x := by
    rw [← hl, List.getElem?_append_right (Nat.le_refl _), Nat.sub_self, List.getElem?_cons_zero]
  rw [List.getElem?_zipIdx, Option.map_eq_some_iff] at hx
  obtain ⟨i, -, rfl⟩ := hx
  exact Nat.zero_add _

theorem Leading.skip {done : List (Identifier × IdentifierId)} {slot : Int32 × IdentifierId}
    {x : Identifier × IdentifierId} (h : Leading f kind first done slot)
    (hx : slotAt f kind first x ≠ some slot.1) : Leading f kind first (done ++ [x]) slot := by
  intro y hy hat
  rcases List.mem_append.1 hy with hy | hy
  · exact h y hy hat
  · rw [List.mem_singleton.1 hy] at hat
    exact absurd hat hx

theorem Kept.skip {done : List (Identifier × IdentifierId)} {found : List (Int32 × IdentifierId)}
    {x : Identifier × IdentifierId} (h : Kept f kind first done found)
    (hx : slotAt f kind first x = none) : Kept f kind first (done ++ [x]) found := by
  have hne : ∀ o, slotAt f kind first x ≠ some o := by
    intro o ho
    rw [hx] at ho
    cases ho
  refine ⟨h.sorted, fun slot hslot => ?_, fun y hy o ho => ?_, fun slot hslot => ?_⟩
  · rw [List.length_append]
    exact Nat.lt_add_right _ (h.earlier slot hslot)
  · rcases List.mem_append.1 hy with hy | hy
    · exact h.complete y hy o ho
    · rw [List.mem_singleton.1 hy] at ho
      exact absurd ho (hne o)
  · exact (h.leading slot hslot).skip (hne slot.1)

theorem Kept.insert {done : List (Identifier × IdentifierId)} {found : List (Int32 × IdentifierId)}
    {x : Identifier × IdentifierId} {offset : Int32} (h : Kept f kind first done found)
    (hlast : x.2 = done.length) (hx : slotAt f kind first x = some offset) :
    Kept f kind first (done ++ [x]) (insertSlot f offset x.2 found) := by
  have hlength : (done ++ [x]).length = done.length + 1 := List.length_append ..
  refine ⟨pairwise_insertSlot f offset x.2 found h.sorted, fun slot hslot => ?_,
    fun y hy o ho => ?_, fun slot hslot => ?_⟩
  · rw [hlength]
    rcases mem_insertSlot h.sorted hslot with ⟨hmem, -⟩ | ⟨rfl, -⟩ | ⟨hmem, -⟩
    · exact Nat.lt_succ_of_lt (h.earlier slot hmem)
    · exact Nat.lt_succ_of_le (Nat.le_of_eq hlast)
    · exact Nat.lt_succ_of_lt (h.earlier slot hmem)
  · rw [mem_offsets_insertSlot]
    rcases List.mem_append.1 hy with hy | hy
    · exact .inr (h.complete y hy o ho)
    · rw [List.mem_singleton.1 hy, hx] at ho
      exact .inl (Option.some.inj ho).symm
  · rcases mem_insertSlot h.sorted hslot with ⟨hmem, hother⟩ | ⟨rfl, hwider⟩ | ⟨hmem, hsame, hle⟩
    · apply (h.leading slot hmem).skip
      rw [hx]
      exact fun heq => hother (Option.some.inj heq).symm
    · -- the new identifier is wider than the one that led, and so than all before
      intro y hy hat
      rcases List.mem_append.1 hy with hy | hy
      · obtain ⟨⟨o, other⟩, hmem, ho⟩ := List.mem_map.1 (h.complete y hy offset hat)
        obtain rfl : o = offset := ho
        have hnew := hwider other hmem
        have hled := h.leading _ hmem y hy hat
        dsimp only at hled ⊢
        omega
      · rw [List.mem_singleton.1 hy]
        exact .inr ⟨rfl, Nat.le_refl _⟩
    · intro y hy hat
      rcases List.mem_append.1 hy with hy | hy
      · exact h.leading slot hmem y hy hat
      · have hbefore : slot.2 < x.2 := Nat.lt_of_lt_of_eq (h.earlier slot hmem) hlast.symm
        rw [List.mem_singleton.1 hy]
        rcases Nat.lt_or_eq_of_le hle with hlt | heq
        · exact .inl hlt
        · exact .inr ⟨heq, Nat.le_of_lt hbefore⟩

theorem kept_slots (f : Frame) (kind : StorageKind) (first : Int32) :
    Kept f kind first f.identifiers.zipIdx (slots f kind first) := by
  rw [slots_eq]
  apply foldl_along (motive := Kept f kind first)
  · intro done x rest hl found hfound
    cases hx : slotAt f kind first x with
    | none => exact hfound.skip hx
    | some offset => exact hfound.insert (eq_length_of_split hl) hx
  · refine ⟨List.Pairwise.nil, fun slot hslot => ?_, fun x hx => ?_, fun slot hslot => ?_⟩
    · cases hslot
    · cases hx
    · cases hslot

theorem chosen_of_mem_slots {slot : Int32 × IdentifierId} (h : slot ∈ slots f kind first) :
    Chosen f kind slot.1 slot.2 := by
  obtain ⟨i, hi, hkind, hoffset, hfirst⟩ := exists_of_mem_slots slot h
  have hleading : ∀ other, LiesAt f kind slot.1 other →
      f.widthOf other < f.widthOf slot.2 ∨
        f.widthOf other = f.widthOf slot.2 ∧ slot.2 ≤ other := by
    rintro other ⟨j, hj, hkind', hoffset'⟩
    have hmem : (j, other) ∈ f.identifiers.zipIdx := List.mem_zipIdx_iff_getElem?.2 hj
    exact (kept_slots f kind first).leading slot h (j, other) hmem
      (slotAt_eq_some_iff.2 ⟨hoffset', hkind', hfirst⟩)
  refine ⟨⟨i, hi, hkind, hoffset⟩, fun other hother => ?_, fun other hother hsame => ?_⟩
  · rcases hleading other hother with hlt | ⟨heq, -⟩
    · exact Nat.le_of_lt hlt
    · exact Nat.le_of_eq heq
  · rcases hleading other hother with hlt | ⟨-, hle⟩
    · exact absurd hsame (Nat.ne_of_lt hlt)
    · exact hle

theorem mem_offsets_iff_liesAt {x : Int32} :
    x ∈ (slots f kind first).map Prod.fst ↔ first ≤ x ∧ ∃ id, LiesAt f kind x id :=
  mem_offsets_slots_iff

/-- The identifiers chosen from an offset on are those of the slots. -/
theorem mem_slots_iff_chosen {slot : Int32 × IdentifierId} :
    slot ∈ slots f kind first ↔ first ≤ slot.1 ∧ Chosen f kind slot.1 slot.2 := by
  constructor
  · intro h
    obtain ⟨-, -, -, -, hfirst⟩ := exists_of_mem_slots slot h
    exact ⟨hfirst, chosen_of_mem_slots h⟩
  · rintro ⟨hfirst, hchosen⟩
    have hoffset := mem_offsets_iff_liesAt.2 ⟨hfirst, slot.2, hchosen.lies⟩
    obtain ⟨⟨o, other⟩, hmem, ho⟩ := List.mem_map.1 hoffset
    obtain rfl : o = slot.1 := ho
    obtain rfl : other = slot.2 := (chosen_of_mem_slots hmem).unique hchosen
    exact hmem

end Recovery.Synthesis
