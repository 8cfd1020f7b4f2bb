import Mathlib.Data.List.Nodup
import Recovery.Frame.Keyed
import Recovery.Proofs.Frame
/-
  What holds of a frame after any operations.

    1. One operation does one thing (`FrameOperation.Does`): a request answers a number
       that exists and appends one identifier at most, a change of type changes one type
       at most, names and storages stay, and what is refused changes nothing.
    2. Frames that operations make are `Built`, so no storage occurs twice in them.
    3. A frame with a table `Mirrors` its identifiers when the table reads a storage as
       the number that holds it. Appending binds the new storage, which no identifier had
       (`Mirrors.ensure`), and a change of type changes no storage, so the keys need not
       follow it (`Mirrors.setDataType`).
    4. Then the table answers what a search through the identifiers answers, and both
       kinds of frames do the same (`Mirrors.run_eq`).

  `run_after_operations` says all of it for any operations from an empty frame.
-/

namespace Recovery
variable {f g : Frame} {k : KeyedFrame} {id : IdentifierId} {i : Identifier} {s : Storage}
  {t : DataType}

/-! ## One operation -/

/-- What an operation does to a frame, and what it answers. -/
structure FrameOperation.Does (op : FrameOperation) (f f' : Frame) (answer : FrameAnswer) :
    Prop where
  /-- A request is refused, or it answers a number that exists and holds the storage asked
  for; then the frame is as before, or that number is the next one and one identifier was
  appended. -/
  ensures : ∀ r, op = .ensure r → (∃ e, answer = .error e) ∨
    ∃ id i wanted, answer = .ok (some id) ∧ r.wanted f.get = .ok wanted ∧
      f'.identifier? id = some i ∧ i.storage = wanted.storage ∧
      (f' = f ∨ id = f.size ∧ f' = { f with identifiers := f.identifiers ++ [wanted] })
  /-- Whatever was there keeps its number, its name and its storage. -/
  kept : ∀ id i, f.identifier? id = some i →
    ∃ i', f'.identifier? id = some i' ∧ i'.name = i.name ∧ i'.storage = i.storage
  /-- Only a change of type changes a type, and only that of its number. -/
  retyped : ∀ id i i', f.identifier? id = some i → f'.identifier? id = some i' →
    i'.dataType ≠ i.dataType → op = .setDataType id i'.dataType
  /-- A change of type appends nothing. -/
  sized : ∀ id t, op = .setDataType id t → f'.size = f.size
  /-- A refusal names a number that does not exist, and changes nothing. -/
  refused : ∀ e, answer = .error e → f' = f ∧ ∃ id, e = .invalidIdentifier id ∧
    f.identifier? id = none

theorem Frame.get_eq_error {e : Error} (h : f.get id = .error e) :
    e = .invalidIdentifier id ∧ f.identifier? id = none := by
  rw [Frame.get] at h
  cases hi : f.identifier? id with
  | some i =>
    rw [hi] at h
    cases h
  | none =>
    rw [hi] at h
    exact ⟨(Except.error.inj h).symm, rfl⟩

/-- A request is refused for the identifier that it is to hand back, and for no other reason. -/
theorem FrameRequest.refused {r : FrameRequest} {e : Error} (h : r.wanted f.get = .error e) :
    ∃ id, e = .invalidIdentifier id ∧ f.identifier? id = none := by
  cases r with
  | outArgument referent n =>
    rw [wanted] at h
    cases hi : f.get referent with
    | error e' =>
      rw [hi] at h
      obtain rfl := Except.error.inj h
      exact ⟨referent, Frame.get_eq_error hi⟩
    | ok i =>
      rw [hi] at h
      cases h
  | storage s t => cases s <;> cases h
  | register | stackArgument | stackLocal | fpuSlot | flagGroup | identifier => cases h

theorem Frame.ensure_eq (f : Frame) (i : Identifier) : (f.ensure i).2 = f ∨
    (f.ensure i).1 = f.size ∧ (f.ensure i).2 = { f with identifiers := f.identifiers ++ [i] } := by
  unfold Frame.ensure
  cases f.find? i.storage with
  | some id => exact .inl rfl
  | none => exact .inr ⟨rfl, rfl⟩

theorem FrameOperation.run_ensure (f : Frame) (r : FrameRequest) :
    run f (ensure r) = match r.wanted f.get with
      | .ok i => (.ok (some (f.ensure i).1), (f.ensure i).2)
      | .error e => (.error e, f) := by
  unfold run
  dsimp only
  rw [FrameRequest.run_eq]
  cases r.wanted f.get with
  | error e => rfl
  | ok i => rfl

theorem FrameOperation.run_setDataType (f : Frame) (id : IdentifierId) (t : DataType) :
    run f (setDataType id t) = match f.identifier? id with
      | some i =>
        (.ok none, { f with identifiers := f.identifiers.set id { i with dataType := t } })
      | none => (.error (.invalidIdentifier id), f) := by
  unfold run Frame.setDataType
  dsimp only
  cases hi : f.identifier? id with
  | none =>
    have hsize : ¬id < f.size := Nat.not_lt.2 (List.getElem?_eq_none_iff.1 hi)
    rw [if_neg hsize]
  | some i =>
    have hsize : id < f.size := (List.getElem?_eq_some_iff.1 hi).1
    have hget : f.identifiers[id]? = some i := hi
    rw [if_pos hsize, List.modify_eq_set_getElem?, hget]
    rfl

theorem not_retyped {i' : Identifier} (hkept : f.identifier? id = some i → g.identifier? id = some i)
    (hi : f.identifier? id = some i) (hi' : g.identifier? id = some i') :
    i'.dataType = i.dataType := by
  rw [Option.some.inj ((hkept hi).symm.trans hi')]

theorem FrameOperation.does_ensure (f : Frame) (r : FrameRequest) :
    (ensure r).Does f (run f (ensure r)).2 (run f (ensure r)).1 := by
  rw [run_ensure]
  cases hwanted : r.wanted f.get with
  | error e =>
    refine ⟨fun _ _ => .inl ⟨e, rfl⟩, fun id i hi => ⟨i, hi, rfl, rfl⟩,
      fun id i i' hi hi' hne => ?_, fun _ _ h => (nomatch h), fun e' he => ⟨rfl, ?_⟩⟩
    · exact absurd (not_retyped (fun h => h) hi hi') hne
    · obtain rfl := Except.error.inj he
      exact FrameRequest.refused hwanted
  | ok wanted =>
    have hextends := Frame.Extends.ensure f wanted
    obtain ⟨i, hi, hstorage⟩ := Frame.holds_iff.1 (Frame.holds_ensure f wanted)
    refine ⟨fun r' hr => .inr ⟨(f.ensure wanted).1, i, wanted, rfl, ?_, hi, hstorage,
      f.ensure_eq wanted⟩, fun id i hi => ⟨i, hextends.identifier? hi, rfl, rfl⟩,
      fun id i i' hi hi' hne => ?_, fun _ _ h => (nomatch h), fun e he => nomatch he⟩
    · rw [← FrameOperation.ensure.inj hr]
      exact hwanted
    · exact absurd (not_retyped hextends.identifier? hi hi') hne

theorem FrameOperation.does_setDataType (f : Frame) (id : IdentifierId) (t : DataType) :
    (setDataType id t).Does f (run f (setDataType id t)).2 (run f (setDataType id t)).1 := by
  rw [run_setDataType]
  cases hi : f.identifier? id with
  | none =>
    refine ⟨fun _ h => (nomatch h), fun id i hi => ⟨i, hi, rfl, rfl⟩,
      fun id i i' hi hi' hne => ?_, fun _ _ _ => rfl, fun e he => ⟨rfl, id, ?_, hi⟩⟩
    · exact absurd (not_retyped (fun h => h) hi hi') hne
    · exact (Except.error.inj he).symm
  | some i =>
    let g : Frame := { f with identifiers := f.identifiers.set id { i with dataType := t } }
    have hsize : id < f.identifiers.length := (List.getElem?_eq_some_iff.1 hi).1
    have hsame : g.identifier? id = some { i with dataType := t } := List.getElem?_set_self hsize
    have hother (id' : IdentifierId) (hne : id ≠ id') : g.identifier? id' = f.identifier? id' :=
      List.getElem?_set_ne hne
    refine ⟨fun _ h => (nomatch h), fun id' j hj => ?_, fun id' j j' hj hj' hne => ?_,
      fun _ _ _ => List.length_set, fun e he => nomatch he⟩
    · by_cases hid : id = id'
      · subst hid
        obtain rfl := Option.some.inj (hi.symm.trans hj)
        exact ⟨_, hsame, rfl, rfl⟩
      · exact ⟨j, (hother id' hid).trans hj, rfl, rfl⟩
    · by_cases hid : id = id'
      · subst hid
        rw [← Option.some.inj (hsame.symm.trans hj')]
      · exact absurd (not_retyped (hother id' hid).trans hj hj') hne

theorem FrameOperation.does_run (f : Frame) (op : FrameOperation) :
    op.Does f (op.run f).2 (op.run f).1 := by
  cases op with
  | ensure r => exact does_ensure f r
  | setDataType id t => exact does_setDataType f id t

/-! ## Frames that operations make -/

theorem Frame.Built.run (hf : f.Built) (op : FrameOperation) : (op.run f).2.Built := by
  cases op with
  | ensure r =>
    rw [FrameOperation.run_ensure]
    cases r.wanted f.get with
    | error e => exact hf
    | ok i => exact hf.ensure i
  | setDataType id t =>
    rw [FrameOperation.run]
    cases hg : f.setDataType id t with
    | error e => exact hf
    | ok g => exact hf.setDataType hg

theorem Frame.Built.after (hf : f.Built) (ops : List FrameOperation) : (f.after ops).Built :=
  List.foldlRecOn (motive := Frame.Built) ops _ hf fun _ hg op _ => hg.run op

/-! ## The table -/

namespace KeyedFrame

/-- Whether the table reads each storage as the number that holds it. -/
def Mirrors (k : KeyedFrame) : Prop := ∀ s id, k.find? s = some id ↔ k.toFrame.Holds id s

theorem mirrors_empty (returnAddressSize : Int32) : (empty returnAddressSize).Mirrors := by
  intro s id
  constructor
  · intro h
    cases h
  · intro h
    cases h

theorem Mirrors.distinct (hk : k.Mirrors) : k.toFrame.Distinct := by
  rw [Frame.Distinct, List.nodup_iff_getElem?_ne_getElem?]
  intro m n hmn hn hsame
  have hfirst : k.toFrame.Holds m k.toFrame.storages[n] :=
    hsame.trans (List.getElem?_eq_getElem hn)
  have hsecond : k.toFrame.Holds n k.toFrame.storages[n] := List.getElem?_eq_getElem hn
  have hnumber := ((hk _ m).2 hfirst).symm.trans ((hk _ n).2 hsecond)
  exact Nat.ne_of_lt hmn (Option.some.inj hnumber)

/-- Looking a storage up in the table finds what a search through the identifiers finds. -/
theorem Mirrors.find?_eq (hk : k.Mirrors) (s : Storage) : k.find? s = k.toFrame.find? s := by
  apply Option.ext
  intro id
  rw [hk s id, Frame.find?_eq_some_iff hk.distinct]

theorem Mirrors.ensure_eq (hk : k.Mirrors) (i : Identifier) :
    (k.ensure i).1 = (k.toFrame.ensure i).1 ∧
      (k.ensure i).2.toFrame = (k.toFrame.ensure i).2 := by
  have hfind : k.byStorage.get? i.storage = k.toFrame.find? i.storage := hk.find?_eq i.storage
  unfold ensure Frame.ensure
  rw [hfind]
  cases k.toFrame.find? i.storage with
  | some id => exact ⟨rfl, rfl⟩
  | none => exact ⟨rfl, rfl⟩

theorem Mirrors.ensure (hk : k.Mirrors) (i : Identifier) : (k.ensure i).2.Mirrors := by
  unfold KeyedFrame.ensure
  cases hfind : k.byStorage.get? i.storage with
  | some id => exact hk
  | none =>
    have hnew : ∀ id, ¬k.toFrame.Holds id i.storage := by
      intro id hid
      rw [← hk, find?, hfind] at hid
      cases hid
    have hlength : k.toFrame.storages.length = k.identifiers.length := List.length_map ..
    intro s id
    rw [find?, Table.get?_put, Frame.Holds, Frame.storages]
    show _ ↔ ((k.identifiers ++ [i]).map Identifier.storage)[id]? = some s
    rw [List.map_append, List.getElem?_append]
    change _ ↔ (if id < k.toFrame.storages.length then k.toFrame.storages[id]?
      else [i.storage][id - k.toFrame.storages.length]?) = some s
    rw [hlength]
    by_cases hs : i.storage = s
    · rw [if_pos hs, ← hs]
      split
      · next hlt =>
        refine ⟨fun h => ?_, fun h => absurd h (hnew id)⟩
        obtain rfl := Option.some.inj h
        exact absurd hlt (Nat.lt_irrefl _)
      · next hge =>
        simp only [Option.some.injEq]
        constructor
        · rintro rfl
          rw [Nat.sub_self]
          rfl
        · intro h
          have hzero : id - k.identifiers.length < 1 := (List.getElem?_eq_some_iff.1 h).1
          have hle : id ≤ k.identifiers.length := Nat.le_of_sub_eq_zero (Nat.lt_one_iff.1 hzero)
          exact Nat.le_antisymm (Nat.le_of_not_lt hge) hle
    · rw [if_neg hs]
      split
      · exact hk s id
      · next hge =>
        constructor
        · intro h
          exact absurd ((hk s id).1 h).lt_size hge
        · intro h
          have hmem : s ∈ [i.storage] := List.mem_of_getElem? h
          exact absurd (List.mem_singleton.1 hmem).symm hs

theorem setDataType_eq (k : KeyedFrame) (id : IdentifierId) (t : DataType) :
    (k.setDataType id t).1 = (FrameOperation.run k.toFrame (.setDataType id t)).1 ∧
      (k.setDataType id t).2.toFrame = (FrameOperation.run k.toFrame (.setDataType id t)).2 ∧
      (k.setDataType id t).2.byStorage = k.byStorage := by
  rw [FrameOperation.run_setDataType, setDataType]
  have hread : k.toFrame.identifier? id = k.identifiers[id]? := rfl
  rw [hread]
  cases k.identifiers[id]? with
  | none => exact ⟨rfl, rfl, rfl⟩
  | some i => exact ⟨rfl, rfl, rfl⟩

/-- The keys copy no type that could change, but those of out-arguments, and these keep the
copy that was made: no storage changes, so the table need not either. -/
theorem Mirrors.setDataType (hk : k.Mirrors) (id : IdentifierId) (t : DataType) :
    (k.setDataType id t).2.Mirrors := by
  obtain ⟨-, hframe, htable⟩ := setDataType_eq k id t
  have hstorages : (k.setDataType id t).2.toFrame.storages = k.toFrame.storages := by
    rw [hframe, FrameOperation.run]
    cases hg : k.toFrame.setDataType id t with
    | error e => rfl
    | ok g => exact (Frame.storages_setDataType hg).1
  intro s id'
  rw [find?, htable, Frame.Holds, hstorages]
  exact hk s id'

theorem Mirrors.run (hk : k.Mirrors) (op : FrameOperation) : (k.run op).2.Mirrors := by
  cases op with
  | ensure r =>
    rw [KeyedFrame.run]
    cases r.wanted k.get with
    | error e => exact hk
    | ok i => exact hk.ensure i
  | setDataType id t => exact hk.setDataType id t

theorem Mirrors.run_eq (hk : k.Mirrors) (op : FrameOperation) :
    (k.run op).1 = (op.run k.toFrame).1 ∧ (k.run op).2.toFrame = (op.run k.toFrame).2 := by
  cases op with
  | ensure r =>
    have hget : k.get = k.toFrame.get := rfl
    rw [KeyedFrame.run, FrameOperation.run_ensure, hget]
    cases r.wanted k.toFrame.get with
    | error e => exact ⟨rfl, rfl⟩
    | ok i =>
      obtain ⟨hid, hframe⟩ := hk.ensure_eq i
      refine ⟨?_, hframe⟩
      show (Except.ok (some (k.ensure i).1) : FrameAnswer) = .ok (some (k.toFrame.ensure i).1)
      rw [hid]
  | setDataType id t =>
    obtain ⟨hanswer, hframe, -⟩ := setDataType_eq k id t
    exact ⟨hanswer, hframe⟩

theorem Mirrors.after (hk : k.Mirrors) (ops : List FrameOperation) :
    (k.after ops).Mirrors ∧ (k.after ops).toFrame = k.toFrame.after ops := by
  induction ops generalizing k with
  | nil => exact ⟨hk, rfl⟩
  | cons op ops ih =>
    obtain ⟨hmirrors, hframe⟩ := ih (hk.run op)
    refine ⟨hmirrors, hframe.trans ?_⟩
    rw [(hk.run_eq op).2]
    rfl

end KeyedFrame

/-- After any operations from an empty frame, refused ones included, no two identifiers
share a storage, finding a storage answers the number that holds it and no other, and every
further operation does just what it is to do. The table that is kept in memory says the
same as the identifiers and gives the same answers. -/
theorem Frame.run_after_operations (returnAddressSize : Int32) (ops : List FrameOperation) :
    let f := (Frame.empty returnAddressSize).after ops
    let k := (KeyedFrame.empty returnAddressSize).after ops
    (f.identifiers.map Identifier.storage).Nodup ∧
    (∀ s id, f.find? s = some id ↔ ∃ i, f.identifier? id = some i ∧ i.storage = s) ∧
    (∀ op : FrameOperation, op.Does f (op.run f).2 (op.run f).1) ∧
    k.toFrame = f ∧ (∀ s, k.find? s = f.find? s) ∧
    ∀ op : FrameOperation, (k.run op).1 = (op.run f).1 ∧ (k.run op).2.toFrame = (op.run f).2 := by
  intro f k
  have hdistinct : f.Distinct := ((Frame.Built.empty returnAddressSize).after ops).distinct
  obtain ⟨hmirrors, hframe⟩ := (KeyedFrame.mirrors_empty returnAddressSize).after ops
  refine ⟨hdistinct, fun s id => ?_, FrameOperation.does_run f, hframe, fun s => ?_, fun op => ?_⟩
  · rw [Frame.find?_eq_some_iff hdistinct, Frame.holds_iff]
  · rw [hmirrors.find?_eq]
    exact congrArg (·.find? s) hframe
  · have hrun := hmirrors.run_eq op
    rwa [hframe] at hrun

end Recovery
