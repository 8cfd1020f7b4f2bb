import Recovery.Proofs.Frame.Keyed
/-
  Which storage a frame answers for.

  A frame can be asked for a storage of any kind, with the type of the value that lives
  there. A slot of the stack is then as wide as the type, whatever width the storage
  names, so what is looked for is the storage with the width of the type (`fitted`).

    1. The number answered holds the fitted storage, is found for it from then on, and is
       the one that was bound before if there was one; only if there was none, one
       identifier is appended (`ensureStorage_after_operations`).
    2. So a frame answers for the storage itself exactly when it fits the type: for all
       kinds but slots of the stack, and for a slot of the stack of that width. A slot
       that is bound and is asked for with a narrower type is left alone, and a second
       slot is made beside it (`ensureStorage_halfWord`).
-/

namespace Recovery

namespace Storage

/-- The storage with the width that a value of some type has there: a slot of the stack
takes the width of the type. -/
def fitted (t : DataType) : Storage → Storage
  | stackArgument o _ => stackArgument o t.bitSize
  | stackLocal o _ => stackLocal o t.bitSize
  | s => s

/-- Whether a storage is as wide as a type, where the type decides its width. -/
def Fits (t : DataType) : Storage → Prop
  | stackArgument _ n => n = t.bitSize
  | stackLocal _ n => n = t.bitSize
  | _ => True

theorem fitted_eq_self_iff {s : Storage} {t : DataType} : s.fitted t = s ↔ s.Fits t := by
  cases s with
  | stackArgument o n => simp [fitted, Fits, eq_comm]
  | stackLocal o n => simp [fitted, Fits, eq_comm]
  | register | fpuStackArgument | flagGroup | outArgument => simp [fitted, Fits]

end Storage

namespace Frame
variable {f : Frame}

theorem exists_ensureStorage_eq (f : Frame) (s : Storage) (t : DataType) :
    ∃ i, f.ensureStorage s t = f.ensure i ∧ i.storage = s.fitted t := by
  cases s with
  | register | stackArgument | stackLocal | fpuStackArgument | flagGroup | outArgument =>
    exact ⟨_, rfl, rfl⟩

theorem find?_ensure (hd : f.Distinct) (i : Identifier) :
    (f.ensure i).2.find? i.storage = some (f.ensure i).1 := by
  rw [find?_eq_some_iff (hd.ensure i)]
  exact holds_ensure f i

theorem ensure_of_find? {i : Identifier} {known : IdentifierId}
    (h : f.find? i.storage = some known) : f.ensure i = (known, f) := by
  simp [ensure, h]

/-- **Asking for a storage.** After any operations, the number answered for a storage and a
type holds the storage fitted to the type and is the one found for it. It is the one that
was found before, and then nothing changes; otherwise it is the next one, and one identifier
is appended. It is found for the storage that was asked for exactly when that fits the type. -/
theorem ensureStorage_after_operations (returnAddressSize : Int32) (ops : List FrameOperation)
    (s : Storage) (t : DataType) :
    let f := (Frame.empty returnAddressSize).after ops
    let id := (f.ensureStorage s t).1
    let f' := (f.ensureStorage s t).2
    (∃ i, f'.identifier? id = some i ∧ i.storage = s.fitted t) ∧
      f'.find? (s.fitted t) = some id ∧
      (∀ known, f.find? (s.fitted t) = some known → id = known ∧ f' = f) ∧
      (f.find? (s.fitted t) = none →
        id = f.size ∧ ∃ i, f' = { f with identifiers := f.identifiers ++ [i] }) ∧
      (f'.find? s = some id ↔ s.Fits t) := by
  intro f id f'
  have hd : f.Distinct := ((Built.empty returnAddressSize).after ops).distinct
  obtain ⟨i, hi, hs⟩ := exists_ensureStorage_eq f s t
  have hid : id = (f.ensure i).1 := congrArg Prod.fst hi
  have hf' : f' = (f.ensure i).2 := congrArg Prod.snd hi
  rw [hid, hf', ← hs]
  have hd' : (f.ensure i).2.Distinct := hd.ensure i
  have hholds : (f.ensure i).2.Holds (f.ensure i).1 i.storage := holds_ensure f i
  refine ⟨holds_iff.1 hholds, find?_ensure hd i, ?_, ?_, ?_⟩
  · intro known hknown
    rw [ensure_of_find? hknown]
    exact ⟨rfl, rfl⟩
  · intro hnone
    simp [ensure, hnone]
  · -- a number holds one storage only
    rw [find?_eq_some_iff hd', ← Storage.fitted_eq_self_iff, ← hs]
    constructor
    · intro h
      exact Option.some.inj (hholds.symm.trans h)
    · intro h
      rw [← h]
      exact hholds

/-- A word on the stack is bound, and is asked for with a type of half its width. The word is
not answered: half a word is bound at the same offset, and the word is still found as before. -/
theorem ensureStorage_halfWord :
    let f := (Frame.empty 4).after [.ensure (.stackArgument 4 (.word 32))]
    let s : Storage := .stackArgument 4 32
    f.find? s = some 0 ∧
      f.ensureStorage s (.word 16) = (1, { f with
        identifiers := f.identifiers ++ [⟨"wArg04", .word 16, .stackArgument 4 16⟩] }) ∧
      (f.ensureStorage s (.word 16)).2.find? s = some 0 := by
  decide +kernel

end Frame
end Recovery
