import Recovery.Frame
/-
  What a growing frame keeps.

  An identifier is named by its number and found by its storage, so what later
  modules need of a frame is which number holds which storage (`Holds`). Two
  orders say how a frame may have changed in between: it `Extends` another one
  when identifiers were appended, and it `Grows` from another one when types may
  have changed as well. Both keep what numbers hold.

  `Built` frames are those that frame operations make. In such a frame no two
  identifiers share a storage (`Built.distinct`), so finding by storage and
  reading by number agree (`find?_eq_some_iff`).

  While a signature is made, a frame grows in a narrower sense: it `Keeps` all but
  the types of stack arguments, and no slot of the floating point stack is new.
-/

namespace Recovery.Frame
variable {f g h : Frame} {id : IdentifierId} {i : Identifier} {s : Storage}

def storages (f : Frame) : List Storage := f.identifiers.map Identifier.storage

/-- Whether the identifier with a number exists and lives in a storage. -/
def Holds (f : Frame) (id : IdentifierId) (s : Storage) : Prop := f.storages[id]? = some s

/-- No two identifiers share a storage. -/
def Distinct (f : Frame) : Prop := f.storages.Nodup

/-- The frames that frame operations make: an empty one, one in which an
identifier was asked for, and one in which a type was changed. -/
inductive Built : Frame → Prop
  | empty (returnAddressSize : Int32) : Built (.empty returnAddressSize)
  | ensure {f : Frame} (i : Identifier) : Built f → Built (f.ensure i).2
  | setDataType {f g : Frame} {id : IdentifierId} {t : DataType} :
      Built f → f.setDataType id t = .ok g → Built g

/-- `f.Extends g`: the frame `g` is `f` with identifiers appended. -/
structure Extends (f g : Frame) : Prop where
  identifiers : f.identifiers <+: g.identifiers
  returnAddressSize : g.returnAddressSize = f.returnAddressSize

/-- `f.Grows g`: the frame `g` is `f` with identifiers appended and types changed. -/
structure Grows (f g : Frame) : Prop where
  storages : f.storages <+: g.storages
  returnAddressSize : g.returnAddressSize = f.returnAddressSize

/-- `f.Keeps g`: the frame `g` grew from `f`, only types of stack arguments have
changed, and it has no further slot of the floating point stack. -/
structure Keeps (f g : Frame) : Prop where
  grows : f.Grows g
  identifier? : ∀ id i, f.identifier? id = some i → i.storage.kind ≠ .stackArgument →
    g.identifier? id = some i
  fpuSlots : ∀ d, .fpuStackArgument d ∈ g.storages → .fpuStackArgument d ∈ f.storages

/-! ## Numbers and storages -/

theorem holds_iff : f.Holds id s ↔ ∃ i, f.identifier? id = some i ∧ i.storage = s := by
  rw [Holds, storages, List.getElem?_map, identifier?, Option.map_eq_some_iff]

theorem holds_of_identifier? (hi : f.identifier? id = some i) : f.Holds id i.storage :=
  holds_iff.2 ⟨i, hi, rfl⟩

theorem Holds.exists_identifier (hs : f.Holds id s) : ∃ i, f.identifier? id = some i := by
  obtain ⟨i, hi, -⟩ := holds_iff.1 hs
  exact ⟨i, hi⟩

theorem Holds.lt_size (hs : f.Holds id s) : id < f.size := by
  obtain ⟨i, hi⟩ := hs.exists_identifier
  exact (List.getElem?_eq_some_iff.1 hi).1

theorem get_eq_ok (hi : f.identifier? id = some i) : f.get id = .ok i := by
  rw [get, hi]

theorem identifier?_of_get (h : f.get id = .ok i) : f.identifier? id = some i := by
  rw [get] at h
  split at h
  · next j hj => rw [hj, Except.ok.inj h]
  · cases h

theorem holds_of_find? (hf : f.find? s = some id) : f.Holds id s := by
  have hs := storage_of_find? hf
  rw [Option.map_eq_some_iff] at hs
  exact holds_iff.2 hs

theorem holds_ensure (f : Frame) (i : Identifier) :
    (f.ensure i).2.Holds (f.ensure i).1 i.storage := by
  have hs := storage_ensure f i
  rw [Option.map_eq_some_iff] at hs
  exact holds_iff.2 hs

theorem ensure_ensure (f : Frame) (i : Identifier) : (f.ensure i).2.ensure i = f.ensure i := by
  cases hf : f.find? i.storage with
  | some id => simp [ensure, hf]
  | none =>
    have hfound : find? { f with identifiers := f.identifiers ++ [i] } i.storage = some f.size := by
      rw [find?] at hf ⊢
      simp [List.findIdx?_append, hf, size]
    simp [ensure, hf, hfound]

/-! ## Distinct storages -/

/-- When no storage occurs twice, the number found for a storage is the number
that holds it. -/
theorem find?_eq_some_iff (hd : f.Distinct) : f.find? s = some id ↔ f.Holds id s := by
  refine ⟨holds_of_find?, fun hs => ?_⟩
  cases hf : f.find? s with
  | none =>
    obtain ⟨i, hi, his⟩ := holds_iff.1 hs
    rw [find?, List.findIdx?_eq_none_iff] at hf
    have hne := hf i (List.mem_of_getElem? hi)
    rw [decide_eq_false_iff_not] at hne
    exact absurd his hne
  | some other =>
    -- both numbers hold the storage, and no two do
    obtain ⟨hlt, hid⟩ := List.getElem?_eq_some_iff.1 hs
    obtain ⟨hlt', hother⟩ := List.getElem?_eq_some_iff.1 (holds_of_find? hf)
    rw [(List.getElem_inj hd).1 (hother.trans hid.symm)]

theorem not_mem_storages (hf : f.find? s = none) : s ∉ f.storages := by
  intro hs
  obtain ⟨i, hi, rfl⟩ := List.mem_map.1 hs
  rw [find?, List.findIdx?_eq_none_iff] at hf
  have hne := hf i hi
  rw [decide_eq_false_iff_not] at hne
  exact hne rfl

theorem Distinct.ensure (hd : f.Distinct) (i : Identifier) : (f.ensure i).2.Distinct := by
  unfold Frame.ensure
  split
  · exact hd
  · next hf =>
    rw [Distinct, storages, List.map_append, List.nodup_append]
    refine ⟨hd, List.pairwise_singleton _ _, fun s hs t ht hst => ?_⟩
    rw [List.map_singleton, List.mem_singleton] at ht
    rw [hst, ht] at hs
    exact not_mem_storages hf hs

/-! ## Changing a type -/

theorem storages_modify (l : List Identifier) (id : Nat) (t : DataType) :
    (l.modify id fun i => { i with dataType := t }).map Identifier.storage =
      l.map Identifier.storage := by
  apply List.ext_getElem?
  intro n
  rw [List.getElem?_map, List.getElem?_map, List.getElem?_modify]
  cases l[n]? with
  | none => rfl
  | some i =>
    simp only [Option.map_some]
    split
    · rfl
    · rfl

theorem storages_setDataType {t : DataType} (hg : f.setDataType id t = .ok g) :
    g.storages = f.storages ∧ g.returnAddressSize = f.returnAddressSize := by
  unfold setDataType at hg
  split at hg
  · cases hg
    exact ⟨storages_modify _ _ _, rfl⟩
  · cases hg

theorem Holds.exists_setDataType (hs : f.Holds id s) (t : DataType) :
    ∃ g, f.setDataType id t = .ok g := by
  unfold setDataType
  rw [if_pos hs.lt_size]
  exact ⟨_, rfl⟩

theorem Built.distinct (hb : f.Built) : f.Distinct := by
  induction hb with
  | empty => exact List.nodup_nil
  | ensure i _ ih => exact ih.ensure i
  | setDataType _ hg ih =>
    rw [Distinct, (storages_setDataType hg).1]
    exact ih

/-! ## Growing -/

namespace Extends

theorem refl (f : Frame) : f.Extends f := ⟨List.prefix_refl _, rfl⟩

theorem trans (hfg : f.Extends g) (hgh : g.Extends h) : f.Extends h :=
  ⟨hfg.identifiers.trans hgh.identifiers,
    hgh.returnAddressSize.trans hfg.returnAddressSize⟩

theorem ensure (f : Frame) (i : Identifier) : f.Extends (f.ensure i).2 := by
  refine ⟨?_, returnAddressSize_ensure f i⟩
  rcases identifiers_ensure f i with hi | hi
  · exact ⟨[], by rw [hi, List.append_nil]⟩
  · exact ⟨[i], hi.symm⟩

theorem grows (hfg : f.Extends g) : f.Grows g :=
  ⟨hfg.identifiers.map _, hfg.returnAddressSize⟩

theorem identifier? (hfg : f.Extends g) (hi : f.identifier? id = some i) :
    g.identifier? id = some i := by
  obtain ⟨added, hadded⟩ := hfg.identifiers
  obtain ⟨hlt, -⟩ := List.getElem?_eq_some_iff.1 hi
  rw [Frame.identifier?, ← hadded, List.getElem?_append_left hlt]
  exact hi

theorem find? (hfg : f.Extends g) (hs : f.find? s = some id) : g.find? s = some id := by
  obtain ⟨added, hadded⟩ := hfg.identifiers
  rw [Frame.find?] at hs ⊢
  rw [← hadded, List.findIdx?_append, hs]
  rfl

end Extends

namespace Grows

theorem refl (f : Frame) : f.Grows f := ⟨List.prefix_refl _, rfl⟩

theorem trans (hfg : f.Grows g) (hgh : g.Grows h) : f.Grows h :=
  ⟨hfg.storages.trans hgh.storages, hgh.returnAddressSize.trans hfg.returnAddressSize⟩

theorem holds (hfg : f.Grows g) (hs : f.Holds id s) : g.Holds id s := by
  obtain ⟨added, hadded⟩ := hfg.storages
  obtain ⟨hlt, -⟩ := List.getElem?_eq_some_iff.1 hs
  rw [Holds, ← hadded, List.getElem?_append_left hlt]
  exact hs

theorem setDataType {t : DataType} (hg : f.setDataType id t = .ok g) : f.Grows g := by
  obtain ⟨hs, hr⟩ := storages_setDataType hg
  exact ⟨hs ▸ List.prefix_refl _, hr⟩

end Grows

namespace Keeps

theorem refl (f : Frame) : f.Keeps f := ⟨.refl f, fun _ _ hi _ => hi, fun _ hd => hd⟩

theorem trans (hfg : f.Keeps g) (hgh : g.Keeps h) : f.Keeps h := by
  refine ⟨hfg.grows.trans hgh.grows, fun id i hi hkind => ?_, fun d hd => ?_⟩
  · exact hgh.identifier? id i (hfg.identifier? id i hi hkind) hkind
  · exact hfg.fpuSlots d (hgh.fpuSlots d hd)

theorem ensure (f : Frame) (i : Identifier)
    (hslot : i.storage.kind = .fpuStackArgument → i.storage ∈ f.storages) :
    f.Keeps (f.ensure i).2 := by
  have hext := Extends.ensure f i
  refine ⟨hext.grows, fun id j hj _ => hext.identifier? hj, fun d hd => ?_⟩
  rcases identifiers_ensure f i with hi | hi
  · rw [storages, hi] at hd
    exact hd
  · rw [storages, hi, List.map_append, List.mem_append, List.map_singleton,
      List.mem_singleton] at hd
    rcases hd with hd | hd
    · exact hd
    · rw [hd]
      apply hslot
      rw [← hd]
      rfl

theorem setDataType {t : DataType} (hg : f.setDataType id t = .ok g) (hs : f.Holds id s)
    (hkind : s.kind = .stackArgument) : f.Keeps g := by
  refine ⟨.setDataType hg, fun id' i hi hi' => ?_, fun d hd => ?_⟩
  · have hne : id ≠ id' := by
      rintro rfl
      obtain ⟨j, hj, rfl⟩ := holds_iff.1 hs
      rw [hj] at hi
      rw [← Option.some.inj hi] at hi'
      exact hi' hkind
    unfold Frame.setDataType at hg
    split at hg
    · cases hg
      simpa [Frame.identifier?, List.getElem?_modify, hne] using hi
    · cases hg
  · rw [(storages_setDataType hg).1] at hd
    exact hd

end Keeps
end Recovery.Frame
