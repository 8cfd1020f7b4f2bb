import Recovery.Proofs.Frame
import Recovery.Signature.Synthesis
/-
  The slots of a frame, sorted.

  `slots` looks through the identifiers of a frame and keeps one for each offset.
  Its offsets come out in strictly ascending order (`pairwise_slots`), they are
  exactly the offsets at which the frame has an identifier of the kind asked for
  (`mem_offsets_slots_iff`), and the number kept at an offset is that of such an
  identifier (`exists_of_mem_slots`). On the stack an offset says the storage but for
  its width (`holds_of_mem_stackSlots`). For the floating point stack an offset is a
  depth and says the storage, so both come down to which storages the frame has
  (`mem_depths_iff`, `holds_of_mem_depths`).
-/

namespace Recovery.Synthesis

variable {f : Frame} {kind : StorageKind} {first : Int32} {id : IdentifierId}

/-- Whether a numbered identifier is one that `slots` looks for, and at which
offset. -/
def slotAt (f : Frame) (kind : StorageKind) (first : Int32) (x : Identifier × IdentifierId) :
    Option Int32 :=
  match f.externalOffset? x.2 with
  | some offset => if x.1.storage.kind = kind ∧ first ≤ offset then some offset else none
  | none => none

theorem slots_eq (f : Frame) (kind : StorageKind) (first : Int32) :
    slots f kind first = f.identifiers.zipIdx.foldl
      (fun found x => match slotAt f kind first x with
        | some offset => insertSlot f offset x.2 found
        | none => found) [] := by
  unfold slots
  congr 1
  funext found x
  obtain ⟨i, id⟩ := x
  cases ho : f.externalOffset? id with
  | none => simp [slotAt, ho]
  | some offset =>
    by_cases hk : i.storage.kind = kind ∧ first ≤ offset
    · simp only [slotAt, ho, if_pos hk]
    · simp only [slotAt, ho, if_neg hk]

theorem slotAt_eq_some_iff {x : Identifier × IdentifierId} {offset : Int32} :
    slotAt f kind first x = some offset ↔
      f.externalOffset? x.2 = some offset ∧ x.1.storage.kind = kind ∧ first ≤ offset := by
  unfold slotAt
  cases f.externalOffset? x.2 with
  | none => simp
  | some o =>
    simp only [Option.ite_none_right_eq_some, Option.some.injEq]
    constructor
    · rintro ⟨hk, rfl⟩
      exact ⟨rfl, hk⟩
    · rintro ⟨rfl, hk⟩
      exact ⟨hk, rfl⟩

/-! ## One insertion -/

theorem mem_offsets_insertSlot (f : Frame) (offset : Int32) (id : IdentifierId) (o : Int32)
    (found : List (Int32 × IdentifierId)) :
    o ∈ (insertSlot f offset id found).map Prod.fst ↔ o = offset ∨ o ∈ found.map Prod.fst := by
  induction found with
  | nil => simp [insertSlot]
  | cons head rest ih =>
    obtain ⟨o', other⟩ := head
    unfold insertSlot
    split
    · simp
    · split
      · next heq =>
        subst heq
        split <;> simp
      · simp only [List.map_cons, List.mem_cons, ih]
        exact or_left_comm

theorem pairwise_insertSlot (f : Frame) (offset : Int32) (id : IdentifierId)
    (found : List (Int32 × IdentifierId)) (h : (found.map Prod.fst).Pairwise (· < ·)) :
    ((insertSlot f offset id found).map Prod.fst).Pairwise (· < ·) := by
  induction found with
  | nil => simp [insertSlot]
  | cons head rest ih =>
    obtain ⟨o, other⟩ := head
    rw [List.map_cons, List.pairwise_cons] at h
    unfold insertSlot
    split
    · next hlt =>
      rw [List.map_cons, List.map_cons, List.pairwise_cons, List.pairwise_cons]
      refine ⟨?_, h⟩
      intro o' ho'
      rcases List.mem_cons.1 ho' with rfl | ho'
      · exact hlt
      · exact Int32.lt_trans hlt (h.1 o' ho')
    · next hge =>
      split
      · split <;> exact List.pairwise_cons.2 h
      · next hne =>
        -- the new offset comes later than the head, so the head stays before the rest
        rw [List.map_cons, List.pairwise_cons]
        refine ⟨?_, ih h.2⟩
        intro o' ho'
        rcases (mem_offsets_insertSlot f offset id o' rest).1 ho' with rfl | ho'
        · exact Int32.lt_of_le_of_ne (Int32.not_lt.1 hge) (Ne.symm hne)
        · exact h.1 o' ho'

theorem insertSlot_keeps {P : Int32 × IdentifierId → Prop} {offset : Int32}
    {found : List (Int32 × IdentifierId)} (hnew : P (offset, id)) (h : ∀ slot ∈ found, P slot) :
    ∀ slot ∈ insertSlot f offset id found, P slot := by
  induction found with
  | nil =>
    intro slot hslot
    rw [insertSlot, List.mem_singleton] at hslot
    rw [hslot]
    exact hnew
  | cons head rest ih =>
    obtain ⟨o, other⟩ := head
    have hrest : ∀ slot ∈ rest, P slot := fun slot hslot => h slot (List.mem_cons_of_mem _ hslot)
    intro slot hslot
    unfold insertSlot at hslot
    split at hslot
    · rcases List.mem_cons.1 hslot with rfl | hslot
      · exact hnew
      · exact h slot hslot
    · split at hslot
      · next heq =>
        split at hslot
        · rcases List.mem_cons.1 hslot with rfl | hslot
          · rw [← heq]
            exact hnew
          · exact hrest slot hslot
        · exact h slot hslot
      · rcases List.mem_cons.1 hslot with rfl | hslot
        · exact h _ List.mem_cons_self
        · exact ih hrest slot hslot

/-! ## All slots -/

theorem pairwise_slots (f : Frame) (kind : StorageKind) (first : Int32) :
    ((slots f kind first).map Prod.fst).Pairwise (· < ·) := by
  rw [slots_eq]
  refine List.foldlRecOn (motive := fun found : List (Int32 × IdentifierId) =>
    (found.map Prod.fst).Pairwise (· < ·)) _ _ List.Pairwise.nil ?_
  intro found hfound x _
  split
  · exact pairwise_insertSlot f _ x.2 found hfound
  · exact hfound

theorem exists_of_mem_slots :
    ∀ slot ∈ slots f kind first, ∃ i, f.identifier? slot.2 = some i ∧ i.storage.kind = kind ∧
      f.externalOffset? slot.2 = some slot.1 ∧ first ≤ slot.1 := by
  rw [slots_eq]
  refine List.foldlRecOn (motive := fun found : List (Int32 × IdentifierId) =>
    ∀ slot ∈ found, ∃ i, f.identifier? slot.2 = some i ∧ i.storage.kind = kind ∧
      f.externalOffset? slot.2 = some slot.1 ∧ first ≤ slot.1) _ _ ?_ ?_
  · intro slot hslot
    cases hslot
  · intro found hfound ⟨i, id⟩ hi
    split
    · next offset hat =>
      obtain ⟨hoffset, hkind, hfirst⟩ := slotAt_eq_some_iff.1 hat
      refine insertSlot_keeps ⟨i, ?_, hkind, hoffset, hfirst⟩ hfound
      simpa [Frame.identifier?] using List.mem_zipIdx_iff_getElem?.1 hi
    · exact hfound

theorem mem_offsets_foldl (o : Int32) (xs : List (Identifier × IdentifierId)) :
    ∀ found : List (Int32 × IdentifierId),
      o ∈ (xs.foldl (fun found x => match slotAt f kind first x with
        | some offset => insertSlot f offset x.2 found
        | none => found) found).map Prod.fst ↔
      o ∈ found.map Prod.fst ∨ ∃ x ∈ xs, slotAt f kind first x = some o := by
  induction xs with
  | nil => simp
  | cons x xs ih =>
    intro found
    rw [List.foldl_cons, ih]
    cases hx : slotAt f kind first x with
    | none => simp [hx]
    | some offset =>
      simp only [mem_offsets_insertSlot, List.mem_cons, exists_eq_or_imp, hx, Option.some.injEq,
        eq_comm (a := offset)]
      rw [or_comm (a := o = offset), or_assoc]

/-- The offsets of the slots are those at which the frame has an identifier of the
kind asked for. -/
theorem mem_offsets_slots_iff {o : Int32} :
    o ∈ (slots f kind first).map Prod.fst ↔
      first ≤ o ∧ ∃ id i, f.identifier? id = some i ∧ i.storage.kind = kind ∧
        f.externalOffset? id = some o := by
  rw [slots_eq, mem_offsets_foldl]
  constructor
  · rintro (h | ⟨⟨i, id⟩, hi, hat⟩)
    · cases h
    · obtain ⟨hoffset, hkind, hfirst⟩ := slotAt_eq_some_iff.1 hat
      refine ⟨hfirst, id, i, ?_, hkind, hoffset⟩
      simpa [Frame.identifier?] using List.mem_zipIdx_iff_getElem?.1 hi
  · rintro ⟨hfirst, id, i, hi, hkind, hoffset⟩
    refine Or.inr ⟨(i, id), ?_, slotAt_eq_some_iff.2 ⟨hoffset, hkind, hfirst⟩⟩
    rw [List.mem_zipIdx_iff_getElem?]
    exact hi

/-! ## The stack -/

end Recovery.Synthesis

namespace Recovery.Storage

/-- A storage with the width of a stack argument left out. -/
def unsized : Storage → Storage
  | stackArgument o _ => stackArgument o 0
  | s => s

theorem kind_unsized (s : Storage) : s.unsized.kind = s.kind := by
  cases s <;> rfl

theorem unsized_eq_self {s : Storage} (h : s.kind ≠ .stackArgument) : s.unsized = s := by
  cases s with
  | stackArgument => exact absurd rfl h
  | register | stackLocal | fpuStackArgument | flagGroup | outArgument => rfl

end Recovery.Storage

namespace Recovery.Synthesis

variable {f : Frame} {kind : StorageKind} {first : Int32} {id : IdentifierId}

theorem unsized_of_externalOffset? {i : Identifier} {o : Int32} (hi : f.identifier? id = some i)
    (hkind : i.storage.kind = .stackArgument) (ho : f.externalOffset? id = some o) :
    i.storage.unsized = .stackArgument (o + f.returnAddressSize) 0 := by
  obtain ⟨name, t, s⟩ := i
  cases s with
  | stackArgument o' n =>
    rw [Frame.externalOffset?, hi] at ho
    have ho := Option.some.inj ho
    rw [Storage.unsized, ← ho, Int32.sub_add_cancel]
  | register | stackLocal | fpuStackArgument | flagGroup | outArgument => cases hkind

theorem holds_of_mem_stackSlots :
    ∀ slot ∈ slots f .stackArgument first, ∃ s, f.Holds slot.2 s ∧
      s.unsized = .stackArgument (slot.1 + f.returnAddressSize) 0 := by
  intro slot hslot
  obtain ⟨i, hi, hkind, hoffset, -⟩ := exists_of_mem_slots slot hslot
  exact ⟨i.storage, Frame.holds_of_identifier? hi, unsized_of_externalOffset? hi hkind hoffset⟩

/-! ## The floating point stack -/

theorem externalOffset?_of_holds {d : Int32} (h : f.Holds id (.fpuStackArgument d)) :
    f.externalOffset? id = some d := by
  obtain ⟨⟨name, t, s⟩, hi, rfl⟩ := Frame.holds_iff.1 h
  rw [Frame.externalOffset?, hi]

theorem holds_of_externalOffset? {i : Identifier} {d : Int32} (hi : f.identifier? id = some i)
    (hkind : i.storage.kind = .fpuStackArgument) (ho : f.externalOffset? id = some d) :
    f.Holds id (.fpuStackArgument d) := by
  obtain ⟨name, t, s⟩ := i
  cases s with
  | fpuStackArgument d' =>
    have hd := externalOffset?_of_holds (Frame.holds_of_identifier? hi)
    rw [ho] at hd
    rw [Option.some.inj hd]
    exact Frame.holds_of_identifier? hi
  | register | stackArgument | stackLocal | flagGroup | outArgument => cases hkind

theorem holds_of_mem_depths :
    ∀ slot ∈ slots f .fpuStackArgument first, f.Holds slot.2 (.fpuStackArgument slot.1) := by
  intro slot hslot
  obtain ⟨i, hi, hkind, hoffset, -⟩ := exists_of_mem_slots slot hslot
  exact holds_of_externalOffset? hi hkind hoffset

theorem mem_depths_iff {d : Int32} :
    d ∈ (slots f .fpuStackArgument first).map Prod.fst ↔
      first ≤ d ∧ .fpuStackArgument d ∈ f.storages := by
  rw [mem_offsets_slots_iff]
  refine and_congr_right fun _ => ⟨?_, fun h => ?_⟩
  · rintro ⟨id, i, hi, hkind, hoffset⟩
    exact List.mem_of_getElem? (holds_of_externalOffset? hi hkind hoffset)
  · obtain ⟨id, hid⟩ := List.mem_iff_getElem?.1 h
    have hholds : f.Holds id (.fpuStackArgument d) := hid
    obtain ⟨i, hi, hs⟩ := Frame.holds_iff.1 hholds
    exact ⟨id, i, hi, by rw [hs]; rfl, externalOffset?_of_holds hholds⟩

end Recovery.Synthesis
