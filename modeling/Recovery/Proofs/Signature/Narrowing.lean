import Recovery.Architecture.X86
import Recovery.Proofs.Signature.Layout
import Recovery.Proofs.Signature.Selection
/-
  Stack parameters are selected and narrowed.

  The runs of `assemble` are followed once more, this time by the numbers they list and
  by what becomes of each identifier of the frame.

    1. The flags and the arguments in registers append identifiers outside both stacks
       (`Frame.KeepsSlots`), so an identifier is chosen at an offset afterwards when it
       was before (`chosen_iff`).
    2. The run over the stack lists the chosen identifiers and narrows each of them, and
       touches no other (`of_addStackSlots`).
    3. The run over the floating point stack leaves the frame alone, and the runs over
       the results append out-arguments (`Adds`).

  `exists_ensureSignature_takes` puts them together for any procedure without a valid
  signature. Nothing is asked of its frame, of its summary or of the architecture.
-/

namespace Recovery.Frame
variable {f g h : Frame} {id : IdentifierId} {i : Identifier}

/-- `f.KeepsSlots g`: the frame `g` is `f` with identifiers appended, none of them on
either stack. -/
structure KeepsSlots (f g : Frame) : Prop where
  appended : f.Extends g
  slots : ∀ id i, g.identifier? id = some i →
    i.storage.kind = .stackArgument ∨ i.storage.kind = .fpuStackArgument →
    f.identifier? id = some i

theorem KeepsSlots.refl (f : Frame) : f.KeepsSlots f := ⟨.refl f, fun _ _ hi _ => hi⟩

theorem KeepsSlots.trans (hfg : f.KeepsSlots g) (hgh : g.KeepsSlots h) : f.KeepsSlots h :=
  ⟨hfg.appended.trans hgh.appended,
    fun id i hi hkind => hfg.slots id i (hgh.slots id i hi hkind) hkind⟩

theorem KeepsSlots.ensure (f : Frame) (i : Identifier)
    (hkind : ¬(i.storage.kind = .stackArgument ∨ i.storage.kind = .fpuStackArgument)) :
    f.KeepsSlots (f.ensure i).2 := by
  refine ⟨.ensure f i, fun id j hj hj' => ?_⟩
  rcases identifiers_ensure f i with hi | hi
  · rwa [identifier?, hi] at hj
  · rw [identifier?, hi, List.getElem?_append] at hj
    split at hj
    · exact hj
    · -- the identifier at the end is the one that was asked for
      have hlast : j = i := by
        have hmem := List.mem_of_getElem? hj
        rwa [List.mem_singleton] at hmem
      rw [hlast] at hj'
      exact absurd hj' hkind

theorem KeepsSlots.mem_storages_iff (hfg : f.KeepsSlots g) {s : Storage}
    (hkind : s.kind = .stackArgument ∨ s.kind = .fpuStackArgument) :
    s ∈ g.storages ↔ s ∈ f.storages := by
  constructor
  · intro hs
    obtain ⟨id, hid⟩ := List.mem_iff_getElem?.1 hs
    obtain ⟨i, hi, rfl⟩ := holds_iff.1 hid
    exact List.mem_of_getElem? (holds_of_identifier? (hfg.slots id i hi hkind))
  · exact fun hs => hfg.appended.grows.storages.subset hs

theorem externalOffset?_congr (hid : f.identifier? id = g.identifier? id)
    (hsize : f.returnAddressSize = g.returnAddressSize) :
    f.externalOffset? id = g.externalOffset? id := by
  rw [externalOffset?, externalOffset?, hid, hsize]

end Recovery.Frame

namespace Recovery.Synthesis
open Signature (Builder)
open Signature.Builder

variable {a : Architecture} {p : Platform} {s : Summary} {b c d : Builder} {f g : Frame}
  {kind : StorageKind} {id : IdentifierId} {x : Int32}

/-! ## Choices in a frame that keeps its slots -/

theorem liesAt_iff (hfg : f.KeepsSlots g) (hkind : kind = .stackArgument ∨ kind = .fpuStackArgument) :
    LiesAt g kind x id ↔ LiesAt f kind x id := by
  have hsize : g.returnAddressSize = f.returnAddressSize := hfg.appended.returnAddressSize
  constructor
  · rintro ⟨i, hi, rfl, hoffset⟩
    have hi' : f.identifier? id = some i := hfg.slots id i hi hkind
    rw [Frame.externalOffset?_congr (hi.trans hi'.symm) hsize] at hoffset
    exact ⟨i, hi', rfl, hoffset⟩
  · rintro ⟨i, hi, rfl, hoffset⟩
    have hi' : g.identifier? id = some i := hfg.appended.identifier? hi
    rw [← Frame.externalOffset?_congr (hi'.trans hi.symm) hsize] at hoffset
    exact ⟨i, hi', rfl, hoffset⟩

theorem widthOf_of_liesAt (hfg : f.KeepsSlots g) (h : LiesAt f kind x id) :
    g.widthOf id = f.widthOf id := by
  obtain ⟨i, hi, -, -⟩ := h
  rw [Frame.widthOf, Frame.widthOf, hi, hfg.appended.identifier? hi]

theorem chosen_iff (hfg : f.KeepsSlots g) (hkind : kind = .stackArgument ∨ kind = .fpuStackArgument) :
    Chosen g kind x id ↔ Chosen f kind x id := by
  have hlies (other : IdentifierId) : LiesAt g kind x other ↔ LiesAt f kind x other :=
    liesAt_iff hfg hkind
  have hwidth (other : IdentifierId) (h : LiesAt f kind x other) :
      g.widthOf other = f.widthOf other := widthOf_of_liesAt hfg h
  constructor
  · rintro ⟨hid, hwidest, hearliest⟩
    have hid' := (hlies id).1 hid
    refine ⟨hid', fun other hother => ?_, fun other hother hsame => ?_⟩
    · rw [← hwidth other hother, ← hwidth id hid']
      exact hwidest other ((hlies other).2 hother)
    · rw [← hwidth other hother, ← hwidth id hid'] at hsame
      exact hearliest other ((hlies other).2 hother) hsame
  · rintro ⟨hid, hwidest, hearliest⟩
    refine ⟨(hlies id).2 hid, fun other hother => ?_, fun other hother hsame => ?_⟩
    · have hother := (hlies other).1 hother
      rw [hwidth other hother, hwidth id hid]
      exact hwidest other hother
    · have hother := (hlies other).1 hother
      rw [hwidth other hother, hwidth id hid] at hsame
      exact hearliest other hother hsame

/-! ## Narrowing -/

/-- An identifier with its type narrowed to the width that a summary observed for its
number, if it did. -/
def narrowed (s : Summary) (id : IdentifierId) (i : Identifier) : Identifier :=
  match s.stackArguments.get? id with
  | none => i
  | some bits => { i with dataType := i.dataType.narrow bits }

def narrowIn (s : Summary) (f : Frame) (id : IdentifierId) : Frame :=
  { f with identifiers := f.identifiers.modify id (narrowed s id) }

theorem narrowed_narrowed (s : Summary) (id : IdentifierId) (i : Identifier) :
    narrowed s id (narrowed s id i) = narrowed s id i := by
  unfold narrowed
  cases s.stackArguments.get? id with
  | none => rfl
  | some bits =>
    obtain ⟨name, t, storage⟩ := i
    cases t with
    | pointer t n => rfl
    | primitive t =>
      by_cases hlt : bits < t.bitSize
      · simp [DataType.narrow, hlt]
      · simp [DataType.narrow, hlt]

theorem storage_narrowed (s : Summary) (id : IdentifierId) (i : Identifier) :
    (narrowed s id i).storage = i.storage := by
  unfold narrowed
  split
  · rfl
  · rfl

theorem identifier?_narrowIn (s : Summary) (f : Frame) (other id : IdentifierId) :
    (narrowIn s f other).identifier? id =
      if other = id then (f.identifier? id).map (narrowed s id) else f.identifier? id := by
  rw [Frame.identifier?, narrowIn, List.getElem?_modify]
  split
  · next h =>
    rw [h]
    rfl
  · exact Option.map_id'

theorem narrowIn_of_unobserved (h : s.stackArguments.get? id = none) : narrowIn s f id = f := by
  have hsame : narrowed s id = fun i => i := by
    funext i
    rw [narrowed, h]
  have hmodify : f.identifiers.modify id (fun i => i) = f.identifiers := List.modify_id id _
  rw [narrowIn, hsame, hmodify]

theorem setDataType_narrow {i : Identifier} {bits : Nat}
    (h : s.stackArguments.get? id = some bits) (hi : f.identifier? id = some i) :
    f.setDataType id (i.dataType.narrow bits) = .ok (narrowIn s f id) := by
  have hlt : id < f.size := (List.getElem?_eq_some_iff.1 hi).1
  have hmodify : (f.identifiers.modify id fun j => { j with dataType := i.dataType.narrow bits }) =
      f.identifiers.modify id (narrowed s id) := by
    apply List.ext_getElem?
    intro n
    rw [List.getElem?_modify, List.getElem?_modify]
    by_cases hn : id = n
    · subst hn
      have hi' : f.identifiers[id]? = some i := hi
      have hnarrowed : narrowed s id i = { i with dataType := i.dataType.narrow bits } := by
        rw [narrowed, h]
      simp [hi', hnarrowed]
    · simp [hn]
  rw [Frame.setDataType, if_pos hlt, hmodify, narrowIn]

/-- Narrowing many identifiers narrows each of them and no other, for narrowing one twice
does no more than narrowing it once. -/
theorem identifier?_foldl_narrowIn (s : Summary) (ids : List IdentifierId) (f : Frame) :
    (ids.foldl (narrowIn s) f).identifier? id =
      if id ∈ ids then (f.identifier? id).map (narrowed s id) else f.identifier? id := by
  induction ids generalizing f with
  | nil => rfl
  | cons other ids ih =>
    rw [List.foldl_cons, ih, identifier?_narrowIn]
    by_cases hother : other = id
    · subst hother
      cases f.identifier? other with
      | none => simp
      | some i => simp [narrowed_narrowed]
    · have hne : id ≠ other := fun h => hother h.symm
      simp [hother, hne]

theorem storages_foldl_narrowIn (s : Summary) (ids : List IdentifierId) (f : Frame) :
    (ids.foldl (narrowIn s) f).storages = f.storages := by
  apply List.ext_getElem?
  intro id
  have hstorage (f : Frame) : f.storages[id]? = (f.identifier? id).map Identifier.storage :=
    List.getElem?_map ..
  rw [hstorage, hstorage, identifier?_foldl_narrowIn]
  split
  · cases f.identifier? id with
    | none => rfl
    | some i => exact congrArg some (storage_narrowed s id i)
  · rfl

theorem returnAddressSize_foldl_narrowIn (s : Summary) (ids : List IdentifierId) (f : Frame) :
    (ids.foldl (narrowIn s) f).returnAddressSize = f.returnAddressSize := by
  induction ids generalizing f with
  | nil => rfl
  | cons id ids ih => exact ih (narrowIn s f id)

theorem grows_foldl_narrowIn (s : Summary) (ids : List IdentifierId) (f : Frame) :
    f.Grows (ids.foldl (narrowIn s) f) := by
  refine ⟨?_, returnAddressSize_foldl_narrowIn s ids f⟩
  rw [storages_foldl_narrowIn]

/-! ## Runs -/

/-- `Adds kind b c`: the builder `c` is `b` after identifiers were appended to its frame
and parameters in storages of a kind were added. -/
structure Adds (kind : StorageKind) (b c : Builder) : Prop where
  frame : b.frame.Extends c.frame
  parameters : ∃ ids, c.parameters = b.parameters ++ ids ∧
    ∀ id ∈ ids, ∃ t, c.frame.Holds id t ∧ t.kind = kind

theorem Adds.refl (kind : StorageKind) (b : Builder) : Adds kind b b := by
  refine ⟨.refl _, [], (List.append_nil _).symm, fun id hid => ?_⟩
  cases hid

theorem Adds.trans (hbc : Adds kind b c) (hcd : Adds kind c d) : Adds kind b d := by
  obtain ⟨ids, hids, hkind⟩ := hbc.parameters
  obtain ⟨ids', hids', hkind'⟩ := hcd.parameters
  refine ⟨hbc.frame.trans hcd.frame, ids ++ ids', ?_, fun id hid => ?_⟩
  · rw [hids', hids, List.append_assoc]
  · rcases List.mem_append.1 hid with hid | hid
    · obtain ⟨t, ht, htk⟩ := hkind id hid
      exact ⟨t, hcd.frame.grows.holds ht, htk⟩
    · exact hkind' id hid

theorem Adds.of_foldlM {α : Type} {step : Builder → α → Except Error Builder} (l : List α)
    (h : ∀ b c x, step b x = .ok c → Adds kind b c) (hrun : l.foldlM step b = .ok c) :
    Adds kind b c :=
  of_foldlM_eq_ok (motive := fun _ => Adds kind b) l
    (fun _ x _ _ d e hd he => hd.trans (h d e x he)) b c (.refl kind b) hrun

theorem keepsSlots_addFlagGroup (b : Builder) (mask : Nat) :
    b.frame.KeepsSlots (b.addFlagGroup mask).frame ∧
      (b.addFlagGroup mask).parameters = b.parameters ∧
      (b.addFlagGroup mask).stackSlots = b.stackSlots ∧
      (b.addFlagGroup mask).fpuSlots = b.fpuSlots := by
  unfold addFlagGroup
  split
  · exact ⟨.refl _, rfl, rfl, rfl⟩
  · refine ⟨.ensure _ _ ?_, rfl, rfl, rfl⟩
    rintro (h | h) <;> cases h

theorem adds_addRegister (b : Builder) (index : Nat) :
    Adds .register b (b.addRegister index).2 ∧
      b.frame.KeepsSlots (b.addRegister index).2.frame := by
  unfold addRegister
  split
  · exact ⟨.refl _ b, .refl _⟩
  · next r _ =>
    split
    · exact ⟨.refl _ b, .refl _⟩
    · let i : Identifier := ⟨r.name, .word r.bitSize, r.storage⟩
      refine ⟨⟨.ensure _ i, [(b.frame.ensure i).1], rfl, fun id hid => ?_⟩, .ensure _ i ?_⟩
      · rw [List.mem_singleton.1 hid]
        exact ⟨r.storage, Frame.holds_ensure b.frame i, rfl⟩
      · rintro (h | h) <;> cases h

theorem adds_addRegisters (l : List Nat) (b : Builder) :
    Adds .register b (l.foldl (fun b i => (b.addRegister i).2) b) ∧
      b.frame.KeepsSlots (l.foldl (fun b i => (b.addRegister i).2) b).frame := by
  refine List.foldlRecOn (motive := fun c : Builder => Adds .register b c ∧
    b.frame.KeepsSlots c.frame) l _ ⟨.refl _ b, .refl _⟩ ?_
  intro c hc i _
  obtain ⟨hadds, hkeeps⟩ := adds_addRegister c i
  exact ⟨hc.1.trans hadds, hc.2.trans hkeeps⟩

/-- The identifier of a stack slot is narrowed in the frame and then offered for its slot. -/
theorem eq_of_addStackSlot {offset : Int32} (h : addStackSlot s b (offset, id) = .ok c) :
    c = { b with frame := narrowIn s b.frame id }.addStackArgument offset id := by
  unfold addStackSlot at h
  dsimp only at h
  cases hobserved : s.stackArguments.get? id with
  | none =>
    rw [hobserved] at h
    rw [narrowIn_of_unobserved hobserved]
    exact (Except.ok.inj h).symm
  | some bits =>
    rw [hobserved] at h
    obtain ⟨i, hi, h⟩ := bind_eq_ok.1 h
    rw [setDataType_narrow hobserved (Frame.identifier?_of_get hi)] at h
    exact (Except.ok.inj h).symm

/-- The run over the stack lists its slots in order and narrows their identifiers. -/
theorem of_addStackSlots (hfree : b.stackSlots.keys = [])
    (hrun : (slots b.frame .stackArgument 0).foldlM (addStackSlot s) b = .ok c) :
    c.parameters = b.parameters ++ (slots b.frame .stackArgument 0).map Prod.snd ∧
      c.frame = ((slots b.frame .stackArgument 0).map Prod.snd).foldl (narrowIn s) b.frame ∧
      c.fpuSlots = b.fpuSlots := by
  have hall := of_foldlM_eq_ok (f := addStackSlot s)
    (motive := fun done c => (c.parameters = b.parameters ++ done.map Prod.snd ∧
        c.frame = (done.map Prod.snd).foldl (narrowIn s) b.frame ∧ c.fpuSlots = b.fpuSlots) ∧
      c.stackSlots.keys = done.map Prod.fst) (slots b.frame .stackArgument 0) ?_ b c
    ⟨⟨(List.append_nil _).symm, rfl, rfl⟩, hfree⟩ hrun
  · exact hall.1
  · rintro done ⟨offset, id⟩ rest hl c d ⟨⟨hparameters, hframe, hfpu⟩, hkeys⟩ hd
    have hnew : offset ∉ c.stackSlots.keys := by
      rw [hkeys]
      exact not_mem_done_of_slots hl
    rw [eq_of_addStackSlot hd, addStackArgument, offer_of_free hnew]
    refine ⟨⟨?_, ?_, hfpu⟩, ?_⟩
    · rw [hparameters, List.map_append, List.append_assoc]
      rfl
    · rw [hframe, List.map_append, List.foldl_append]
      rfl
    · rw [keys_put_of_free hnew, hkeys, List.map_append]
      rfl

theorem of_addFpuSlots (hfree : b.fpuSlots.keys = []) :
    let c := (slots b.frame .fpuStackArgument 0).foldl
      (fun b (depth, id) => b.addFpuArgument depth id) b
    c.parameters = b.parameters ++ (slots b.frame .fpuStackArgument 0).map Prod.snd ∧
      c.frame = b.frame := by
  have hall := foldl_along (f := fun (b : Builder) (slot : Int32 × IdentifierId) =>
      b.addFpuArgument slot.1 slot.2)
    (motive := fun done c => (c.parameters = b.parameters ++ done.map Prod.snd ∧
      c.frame = b.frame) ∧ c.fpuSlots.keys = done.map Prod.fst)
    (slots b.frame .fpuStackArgument 0) ?_ b ⟨⟨(List.append_nil _).symm, rfl⟩, hfree⟩
  · exact hall.1
  · rintro done ⟨depth, id⟩ rest hl c ⟨⟨hparameters, hframe⟩, hkeys⟩
    have hnew : depth ∉ c.fpuSlots.keys := by
      rw [hkeys]
      exact not_mem_done_of_slots hl
    dsimp only
    rw [addFpuArgument, offer_of_free hnew]
    refine ⟨⟨?_, hframe⟩, ?_⟩
    · rw [hparameters, List.map_append, List.append_assoc]
      rfl
    · rw [keys_put_of_free hnew, hkeys, List.map_append]
      rfl

theorem adds_addResult (h : b.addResult id = .ok c) : Adds .outArgument b c := by
  unfold addResult at h
  split at h
  · obtain rfl := Except.ok.inj h
    exact ⟨.refl _, (Adds.refl _ b).parameters⟩
  · obtain ⟨⟨outId, frame⟩, hout, h⟩ := bind_eq_ok.1 h
    obtain ⟨i, hi, hout⟩ := bind_eq_ok.1 hout
    let out : Identifier :=
      ⟨Frame.outName i.name, .pointer i.dataType b.architecture.pointerBitSize, i.outStorage⟩
    obtain ⟨rfl, rfl⟩ : (b.frame.ensure out).1 = outId ∧ (b.frame.ensure out).2 = frame :=
      Prod.mk.inj (Except.ok.inj hout)
    obtain rfl := Except.ok.inj h
    refine ⟨.ensure b.frame out, ?_⟩
    show ∃ ids, (if b.parameters.contains (b.frame.ensure out).1 then _ else _) = _ ∧ _
    split
    · exact (Adds.refl .outArgument { b with frame := (b.frame.ensure out).2 }).parameters
    · refine ⟨[(b.frame.ensure out).1], rfl, fun id hid => ?_⟩
      rw [List.mem_singleton.1 hid]
      exact ⟨out.storage, Frame.holds_ensure b.frame out, rfl⟩

theorem adds_withFrame {i : Identifier}
    (h : Adds kind { b with frame := (b.frame.ensure i).2 } c) : Adds kind b c :=
  ⟨(Frame.Extends.ensure b.frame i).trans h.frame, h.parameters⟩

theorem adds_addRegisterResult {index : Nat} (h : addRegisterResult b index = .ok c) :
    Adds .outArgument b c := by
  unfold addRegisterResult at h
  split at h
  · rw [← Except.ok.inj h]
    exact .refl _ _
  · exact adds_withFrame (adds_addResult h)

theorem adds_addFpuResult {slot : Int32 × IdentifierId} (h : addFpuResult b slot = .ok c) :
    Adds .outArgument b c := by
  obtain ⟨depth, id⟩ := slot
  unfold addFpuResult at h
  dsimp only at h
  split at h
  · obtain ⟨i, -, h⟩ := bind_eq_ok.1 h
    exact adds_withFrame (adds_addResult h)
  · rw [← Except.ok.inj h]
    exact .refl _ _

/-! ## All of it -/

/-- What the runs of `assemble` list, starting from the frame `f`, and what they do to it:
registers, the identifiers chosen on the stack, the slots of the floating point stack, and
what hands results back. -/
structure Assembled (f : Frame) (s : Summary) (b : Builder) (chosen : List (Int32 × IdentifierId))
    (used slots backs : List IdentifierId) : Prop where
  parameters : b.parameters = used ++ chosen.map Prod.snd ++ slots ++ backs
  used : ∀ id ∈ used, ∃ t, b.frame.Holds id t ∧ t.kind = .register
  ascending : (chosen.map Prod.fst).Pairwise (· < ·)
  mem_iff : ∀ slot, slot ∈ chosen ↔ 0 ≤ slot.1 ∧ Chosen f .stackArgument slot.1 slot.2
  offsets : ∀ x, x ∈ chosen.map Prod.fst ↔ 0 ≤ x ∧ ∃ id, LiesAt f .stackArgument x id
  slots : ∃ depths : List Int32,
    List.Forall₂ (fun id d => b.frame.Holds id (.fpuStackArgument d)) slots depths ∧
    depths.Pairwise (· < ·) ∧ ∀ d, d ∈ depths ↔ 0 ≤ d ∧ .fpuStackArgument d ∈ f.storages
  backs : ∀ id ∈ backs, ∃ t, b.frame.Holds id t ∧ t.kind = .outArgument
  frame : ∀ id i, f.identifier? id = some i →
    b.frame.identifier? id = some (if id ∈ chosen.map Prod.snd then narrowed s id i else i)

theorem depths_of_slots (hfg : f.KeepsSlots g) (ids : List IdentifierId) {h : Frame}
    (hgrows : (ids.foldl (narrowIn s) g).Grows h) :
    ∃ depths : List Int32,
      List.Forall₂ (fun id d => h.Holds id (.fpuStackArgument d))
        ((slots (ids.foldl (narrowIn s) g) .fpuStackArgument 0).map Prod.snd) depths ∧
      depths.Pairwise (· < ·) ∧ ∀ d, d ∈ depths ↔ 0 ≤ d ∧ .fpuStackArgument d ∈ f.storages := by
  let found := slots (ids.foldl (narrowIn s) g) .fpuStackArgument 0
  refine ⟨found.map Prod.fst, ?_, pairwise_slots _ .fpuStackArgument 0, fun d => ?_⟩
  · rw [List.forall₂_map_left_iff, List.forall₂_map_right_iff, List.forall₂_same]
    exact fun slot hslot => hgrows.holds (holds_of_mem_depths slot hslot)
  · rw [mem_depths_iff, storages_foldl_narrowIn, hfg.mem_storages_iff (.inr rfl)]

theorem exists_assembled {fpuStackDelta fpuOutMax : Int32}
    (h : assemble a p s (.start a f fpuStackDelta fpuOutMax) = .ok b) :
    ∃ chosen used slots backs, Assembled f s b chosen used slots backs := by
  unfold assemble at h
  dsimp only at h
  let start : Builder := .start a f fpuStackDelta fpuOutMax
  obtain ⟨b₁, hb₁, hkeeps₁, hparameters₁, hstack₁, hfpu₁⟩ : ∃ b₁,
      (if s.flagsLiveOut = 0 then start else start.addFlagGroup s.flagsLiveOut) = b₁ ∧
      f.KeepsSlots b₁.frame ∧ b₁.parameters = [] ∧ b₁.stackSlots.keys = [] ∧
      b₁.fpuSlots.keys = [] := by
    obtain ⟨hkeeps, hparameters, hstack, hfpu⟩ := keepsSlots_addFlagGroup start s.flagsLiveOut
    split
    · exact ⟨start, rfl, .refl f, rfl, rfl, rfl⟩
    · refine ⟨_, rfl, hkeeps, hparameters, ?_, ?_⟩
      · rw [hstack]
        rfl
      · rw [hfpu]
        rfl
  rw [hb₁] at h
  obtain ⟨hadds₂, hkeeps₂⟩ := adds_addRegisters (listed a p s.mayUse) b₁
  obtain ⟨hstack₂, hfpu₂⟩ := slots_addRegisters (listed a p s.mayUse) b₁
  generalize (listed a p s.mayUse).foldl (fun b i => (b.addRegister i).2) b₁ = b₂
    at h hadds₂ hkeeps₂ hstack₂ hfpu₂
  have hkeeps := hkeeps₁.trans hkeeps₂
  obtain ⟨b₃, hrun₃, h⟩ := bind_eq_ok.1 h
  rw [← hstack₂] at hstack₁
  obtain ⟨hparameters₃, hframe₃, hfpu₃⟩ := of_addStackSlots hstack₁ hrun₃
  have hfree : b₃.fpuSlots.keys = [] := by rw [hfpu₃, hfpu₂, hfpu₁]
  obtain ⟨hparameters₄, hframe₄⟩ := of_addFpuSlots hfree
  obtain ⟨b₅, hrun₅, h⟩ := bind_eq_ok.1 h
  generalize (slots b₃.frame .fpuStackArgument 0).foldl
    (fun b (depth, id) => b.addFpuArgument depth id) b₃ = b₄ at hrun₅ hparameters₄ hframe₄
  have hresults : Adds .outArgument b₄ b :=
    (Adds.of_foldlM _ (fun _ _ _ => adds_addRegisterResult) hrun₅).trans
      (Adds.of_foldlM _ (fun _ _ _ => adds_addFpuResult) h)
  obtain ⟨used, hused, hregisters⟩ := hadds₂.parameters
  obtain ⟨backs, hbacks, houts⟩ := hresults.parameters
  -- from the registers on, the frame is narrowed and then grows
  have hgrows₃ : b₂.frame.Grows b₃.frame := by
    rw [hframe₃]
    exact grows_foldl_narrowIn s _ b₂.frame
  have hgrows₄ : b₃.frame.Grows b.frame := by
    rw [← hframe₄]
    exact hresults.frame.grows
  refine ⟨slots b₂.frame .stackArgument 0, used,
    (slots b₃.frame .fpuStackArgument 0).map Prod.snd, backs, ?_⟩
  constructor
  case parameters => rw [hbacks, hparameters₄, hparameters₃, hused, hparameters₁, List.nil_append]
  case used =>
    intro id hid
    obtain ⟨t, ht, hkind⟩ := hregisters id hid
    exact ⟨t, hgrows₄.holds (hgrows₃.holds ht), hkind⟩
  case ascending => exact pairwise_slots ..
  case mem_iff =>
    intro slot
    rw [mem_slots_iff_chosen, chosen_iff hkeeps (.inl rfl)]
  case offsets =>
    intro x
    simp only [mem_offsets_iff_liesAt, liesAt_iff hkeeps (.inl rfl)]
  case slots =>
    rw [hframe₃] at hgrows₄ ⊢
    exact depths_of_slots hkeeps _ hgrows₄
  case backs => exact houts
  case frame =>
    intro id i hi
    apply hresults.frame.identifier?
    rw [hframe₄, hframe₃, identifier?_foldl_narrowIn, hkeeps.appended.identifier? hi]
    split
    · rfl
    · rfl

/-- What a number becomes of an identifier whose width a summary observed: of a primitive
type of more bits the same reading of as many bits as were observed, and otherwise what it
was. -/
structure Narrows (s : Summary) (id : IdentifierId) (i i' : Identifier) : Prop where
  name : i'.name = i.name
  storage : i'.storage = i.storage
  observed : ∀ t bits, i.dataType = .primitive t → s.stackArguments.get? id = some bits →
    bits < t.bitSize → i'.dataType = .primitive ⟨t.domain, bits⟩
  unobserved : (∀ t bits, i.dataType = .primitive t → s.stackArguments.get? id = some bits →
    t.bitSize ≤ bits) → i' = i
  never_wider : i'.dataType.bitSize ≤ i.dataType.bitSize

theorem narrows_narrowed (s : Summary) (id : IdentifierId) (i : Identifier) :
    Narrows s id i (narrowed s id i) := by
  obtain ⟨name, t, storage⟩ := i
  unfold narrowed
  cases hobserved : s.stackArguments.get? id with
  | none =>
    refine ⟨rfl, rfl, fun t bits _ hbits => ?_, fun _ => rfl, Nat.le_refl _⟩
    rw [hobserved] at hbits
    cases hbits
  | some bits =>
    refine ⟨rfl, rfl, fun t' bits' ht hbits hlt => ?_, fun hwide => ?_,
      DataType.bitSize_narrow_le bits t⟩
    · obtain rfl : t = .primitive t' := ht
      obtain rfl := Option.some.inj (hobserved.symm.trans hbits)
      simp [DataType.narrow, hlt]
    · cases t with
      | pointer t n => rfl
      | primitive t =>
        have hle := hwide t bits rfl hobserved
        simp [DataType.narrow, Nat.not_lt.2 hle]

/-- How a procedure with the frame `f` takes its arguments from the stacks: its signature
over the frame `g` lists registers, then the identifiers chosen on the stack, then slots of
the floating point stack, and last what hands results back. -/
structure TakesFromStacks (f g : Frame) (s : Summary) (chosen : List (Int32 × IdentifierId))
    (registers stack slots outs : List Identifier) : Prop where
  registers : ∀ i ∈ registers, i.storage.kind = .register
  ascending : (chosen.map Prod.fst).Pairwise (· < ·)
  offsets : ∀ x, x ∈ chosen.map Prod.fst ↔ 0 ≤ x ∧ ∃ id, LiesAt f .stackArgument x id
  best : ∀ slot ∈ chosen, Chosen f .stackArgument slot.1 slot.2
  stack : List.Forall₂ (fun slot i => g.identifier? slot.2 = some i) chosen stack
  slots : ∃ depths : List Int32, slots.map Identifier.storage = depths.map .fpuStackArgument ∧
    depths.Pairwise (· < ·) ∧ ∀ d, d ∈ depths ↔ 0 ≤ d ∧ .fpuStackArgument d ∈ f.storages
  outs : ∀ i ∈ outs, i.storage.kind = .outArgument
  narrowed : ∀ slot ∈ chosen, ∀ i, f.identifier? slot.2 = some i →
    ∃ i', g.identifier? slot.2 = some i' ∧ Narrows s slot.2 i i'
  kept : ∀ id i, f.identifier? id = some i → id ∉ chosen.map Prod.snd →
    g.identifier? id = some i

theorem exists_of_build {signature : Signature} (h : b.build = .ok signature) :
    ∃ returned parameters, b.parameters.mapM b.frame.get = .ok parameters ∧
      signature = { Signature.determined returned parameters with
        fpuStackDelta := b.fpuStackDelta, fpuOutMax := b.fpuOutMax } := by
  have hread : ∃ returned, (b.parameters.mapM b.frame.get >>= fun parameters =>
      pure { Signature.determined returned parameters with
        fpuStackDelta := b.fpuStackDelta, fpuOutMax := b.fpuOutMax }) = .ok signature := by
    unfold build at h
    cases hreturn : b.returnValue with
    | none =>
      rw [hreturn] at h
      exact ⟨none, h⟩
    | some id =>
      rw [hreturn] at h
      obtain ⟨returned, -, h⟩ := bind_eq_ok.1 h
      exact ⟨returned, h⟩
  obtain ⟨returned, hread⟩ := hread
  obtain ⟨parameters, hparameters, h⟩ := bind_eq_ok.1 hread
  exact ⟨returned, parameters, hparameters, (Except.ok.inj h).symm⟩

theorem parameters_of_build {signature : Signature} (h : b.build = .ok signature) :
    List.Forall₂ (fun id i => b.frame.identifier? id = some i) b.parameters
      signature.parameters := by
  obtain ⟨returned, parameters, hparameters, rfl⟩ := exists_of_build h
  exact (forall₂_of_mapM_eq_ok hparameters).imp fun _ _ => Frame.identifier?_of_get

theorem kind_of_holds {id : IdentifierId} {i : Identifier} (hi : g.identifier? id = some i)
    (h : ∃ t, g.Holds id t ∧ t.kind = kind) : i.storage.kind = kind := by
  obtain ⟨t, ht, rfl⟩ := h
  rw [Option.some.inj ((Frame.holds_of_identifier? hi).symm.trans ht)]

theorem Assembled.takesFromStacks {chosen : List (Int32 × IdentifierId)}
    {used slots backs : List IdentifierId} {parameters : List Identifier}
    (h : Assembled f s b chosen used slots backs)
    (hread : List.Forall₂ (fun id i => b.frame.identifier? id = some i) b.parameters parameters) :
    ∃ registers stack fpu outs, parameters = registers ++ stack ++ fpu ++ outs ∧
      TakesFromStacks f b.frame s chosen registers stack fpu outs := by
  rw [h.parameters] at hread
  obtain ⟨listed, outs, rfl, hread, houts⟩ := exists_append_of_forall₂ hread
  obtain ⟨listed, fpu, rfl, hread, hfpu⟩ := exists_append_of_forall₂ hread
  obtain ⟨registers, stack, rfl, hregisters, hstack⟩ := exists_append_of_forall₂ hread
  refine ⟨registers, stack, fpu, outs, rfl, ?_⟩
  constructor
  case registers =>
    intro i hi
    obtain ⟨id, hid, hi⟩ := exists_left_of_mem hregisters hi
    exact kind_of_holds hi (h.used id hid)
  case ascending => exact h.ascending
  case offsets => exact h.offsets
  case best => exact fun slot hslot => ((h.mem_iff slot).1 hslot).2
  case stack => exact List.forall₂_map_left_iff.1 hstack
  case slots =>
    obtain ⟨depths, hholds, hsorted, hmem⟩ := h.slots
    refine ⟨depths, ?_, hsorted, hmem⟩
    -- a number holds one storage, so the identifiers read live in the slots listed
    have hstorages : List.Forall₂ b.frame.Holds slots (fpu.map Identifier.storage) :=
      List.forall₂_map_right_iff.2 (hfpu.imp fun _ _ hi => Frame.holds_of_identifier? hi)
    have hdepths : List.Forall₂ b.frame.Holds slots (depths.map .fpuStackArgument) :=
      List.forall₂_map_right_iff.2 hholds
    exact List.right_unique_forall₂' (fun _ _ _ ht hu => Option.some.inj (ht.symm.trans hu))
      hstorages hdepths
  case outs =>
    intro i hi
    obtain ⟨id, hid, hi⟩ := exists_left_of_mem houts hi
    exact kind_of_holds hi (h.backs id hid)
  case narrowed =>
    intro slot hslot i hi
    have hid : slot.2 ∈ chosen.map Prod.snd := List.mem_map_of_mem hslot
    refine ⟨_, h.frame slot.2 i hi, ?_⟩
    rw [if_pos hid]
    exact narrows_narrowed s slot.2 i
  case kept =>
    intro id i hi hid
    rw [h.frame id i hi, if_neg hid]

/-- A procedure without a valid signature is given one, and it takes its arguments from the
stacks as its frame and its summary say: at each offset from zero on at which the frame has
stack arguments the widest of them, the earliest among equals, narrowed to its observed
width, and each slot of the floating point stack from depth zero on. -/
theorem exists_ensureSignature_takes (a : Architecture) (p : Platform) (s : Summary)
    {q : Procedure} (hq : q.signature.valid = false) :
    ∃ q' s' chosen registers stack slots outs,
      ensureSignature a p q s = .ok (true, q', s') ∧
      s'.signature = some q'.signature ∧ q'.signature.valid = true ∧
      q'.signature.parameters = registers ++ stack ++ slots ++ outs ∧
      TakesFromStacks q.frame q'.frame s chosen registers stack slots outs := by
  obtain ⟨b, signature, hassemble, hbuild, hvalid, hrun, -⟩ :=
    exists_ensureSignature (a := a) (p := p) (s := s) hq
  obtain ⟨chosen, used, slots, backs, hassembled⟩ := exists_assembled hassemble
  obtain ⟨registers, stack, fpu, outs, hparameters, htakes⟩ :=
    hassembled.takesFromStacks (parameters_of_build hbuild)
  exact ⟨_, _, chosen, registers, stack, fpu, outs, hrun, rfl, hvalid, hparameters, htakes⟩

/-- A procedure with three stack arguments where its callers see offset 0: the second is
wider than the first and as wide as the third. A fourth lies at offset 4, a fifth below the
return address, and a slot of the floating point stack at depth 1. -/
def crowded : Procedure :=
  .ofGraph 0 "crowded"
    ⟨[⟨"wArg04", .word 16, .stackArgument 4 16⟩, ⟨"dwArg04", .word 32, .stackArgument 4 32⟩,
      ⟨"rArg04", .primitive ⟨.real, 32⟩, .stackArgument 4 64⟩,
      ⟨"dwArg08", .word 32, .stackArgument 8 32⟩, ⟨"dwArg00", .word 32, .stackArgument 0 32⟩,
      ⟨"rArg1", .word 64, .fpuStackArgument 1⟩], 4⟩ (.empty 0 1)

/-- Of the second argument a byte was observed, of the fourth more than it has, and of the
others widths that do not matter. -/
def crowdedSummary : Summary :=
  { Summary.empty with
    stackArguments := (((Table.empty.put 0 8).put 1 8).put 3 64).put 4 8 }

theorem exists_ensureSignature_takes_crowded :
    crowded.signature.valid = false ∧
    ∃ q' s' chosen registers stack slots outs,
      ensureSignature X86.architecture X86.windows crowded crowdedSummary = .ok (true, q', s') ∧
      q'.signature.parameters = registers ++ stack ++ slots ++ outs ∧
      TakesFromStacks crowded.frame q'.frame crowdedSummary chosen registers stack slots outs ∧
      q'.signature.parameters = [⟨"dwArg04", .word 8, .stackArgument 4 32⟩,
        ⟨"dwArg08", .word 32, .stackArgument 8 32⟩, ⟨"rArg1", .word 64, .fpuStackArgument 1⟩] := by
  obtain ⟨q', s', chosen, registers, stack, slots, outs, hrun, -, -, hparameters, htakes⟩ :=
    exists_ensureSignature_takes X86.architecture X86.windows crowdedSummary (q := crowded) rfl
  refine ⟨rfl, q', s', chosen, registers, stack, slots, outs, hrun, hparameters, htakes, ?_⟩
  have hlisted : (ensureSignature X86.architecture X86.windows crowded crowdedSummary).toOption.map
      (fun t => t.2.1.signature.parameters) = some [⟨"dwArg04", .word 8, .stackArgument 4 32⟩,
        ⟨"dwArg08", .word 32, .stackArgument 8 32⟩, ⟨"rArg1", .word 64, .fpuStackArgument 1⟩] := by
    decide +kernel
  rw [hrun] at hlisted
  exact Option.some.inj hlisted

end Recovery.Synthesis
