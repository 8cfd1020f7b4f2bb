import Recovery.Proofs.Frame
import Recovery.Proofs.Runs
import Recovery.Signature.Builder
/-
  Building a signature does not fail, and lists what the frame holds.

  A builder is `Sound` when every number it lists holds a storage in its frame
  and that storage is the architecture's own where it is a register. Each
  addition leads from a sound builder to a sound one whose frame grew out of the
  frame before (`Leads`); an addition that may fail does not, because the number
  it is given holds something. Numbers stay good while the frame grows, so what
  was listed early is still there when `exists_build` reads all of it at the end.
-/

namespace Recovery

/-- Whether every register in a storage is one that the architecture defines, at
its own width. -/
def Storage.DefinedBy (a : Architecture) : Storage → Prop
  | .register i n => ∃ j r, a.register? j = some r ∧ r.storage = .register i n
  | .outArgument _ _ referent => referent.DefinedBy a
  | _ => True

/-- What crosses a call: the return value and the parameters. -/
def Signature.values (s : Signature) : List Identifier := s.returnValue.toList ++ s.parameters

namespace Signature.Builder
variable {b c d : Builder} {id : IdentifierId}

/-- Whether a number can be listed: it holds a storage, with registers of the
architecture. -/
def Listable (b : Builder) (id : IdentifierId) : Prop :=
  ∃ s, b.frame.Holds id s ∧ s.DefinedBy b.architecture

/-- Every number the builder lists can be listed. -/
structure Sound (b : Builder) : Prop where
  returnValue : ∀ id, b.returnValue = some id → b.Listable id
  parameters : ∀ id ∈ b.parameters, b.Listable id

/-- `b.Leads c`: the builder `c` is sound, and its frame grew out of that of `b`. -/
structure Leads (b c : Builder) : Prop where
  frame : b.frame.Grows c.frame
  architecture : c.architecture = b.architecture
  fpuStackDelta : c.fpuStackDelta = b.fpuStackDelta
  fpuOutMax : c.fpuOutMax = b.fpuOutMax
  distinct : b.frame.Distinct → c.frame.Distinct
  sound : c.Sound

theorem Sound.leads (hb : b.Sound) : b.Leads b := ⟨.refl _, rfl, rfl, rfl, id, hb⟩

theorem Leads.trans (hbc : b.Leads c) (hcd : c.Leads d) : b.Leads d :=
  ⟨hbc.frame.trans hcd.frame, hcd.architecture.trans hbc.architecture,
    hcd.fpuStackDelta.trans hbc.fpuStackDelta, hcd.fpuOutMax.trans hbc.fpuOutMax,
    fun hd => hcd.distinct (hbc.distinct hd), hcd.sound⟩

theorem Listable.grow (hid : b.Listable id) (hf : b.frame.Grows c.frame)
    (ha : c.architecture = b.architecture) : c.Listable id := by
  obtain ⟨s, hs, hdef⟩ := hid
  refine ⟨s, hf.holds hs, ?_⟩
  rw [ha]
  exact hdef

theorem Sound.withFrame (hb : b.Sound) {f : Frame} (hf : b.frame.Grows f)
    (hd : b.frame.Distinct → f.Distinct) : b.Leads { b with frame := f } := by
  refine ⟨hf, rfl, rfl, rfl, hd, fun id hid => ?_, fun id hid => ?_⟩
  · exact (hb.returnValue id hid).grow hf rfl
  · exact (hb.parameters id hid).grow hf rfl

theorem Sound.ensure (hb : b.Sound) (i : Identifier) :
    b.Leads { b with frame := (b.frame.ensure i).2 } :=
  hb.withFrame (Frame.Extends.ensure _ i).grows fun hd => hd.ensure i

theorem listable_ensure {i : Identifier} (hi : i.storage.DefinedBy b.architecture) :
    { b with frame := (b.frame.ensure i).2 }.Listable (b.frame.ensure i).1 :=
  ⟨i.storage, Frame.holds_ensure _ i, hi⟩

/-! ## Additions -/

theorem leads_addFlagGroup (hb : b.Sound) (mask : Nat) : b.Leads (b.addFlagGroup mask) := by
  unfold addFlagGroup
  split
  · exact hb.leads
  · next flags _ =>
    let i : Identifier :=
      ⟨b.architecture.flagGroupName mask, .bool, .flagGroup flags.index mask⟩
    have hgrown := hb.ensure i
    refine ⟨hgrown.frame, rfl, rfl, rfl, hgrown.distinct, fun id hid => ?_,
      hgrown.sound.parameters⟩
    rw [← Option.some.inj hid]
    exact listable_ensure (i := i) trivial

theorem leads_addRegister (hb : b.Sound) (index : Nat) : b.Leads (b.addRegister index).2 := by
  unfold addRegister
  split
  · exact hb.leads
  · next r hr =>
    split
    · exact hb.leads
    · let i : Identifier := ⟨r.name, .word r.bitSize, r.storage⟩
      have hgrown := hb.ensure i
      refine ⟨hgrown.frame, rfl, rfl, rfl, hgrown.distinct, hgrown.sound.returnValue,
        fun id hid => ?_⟩
      rcases List.mem_append.1 hid with hid | hid
      · exact hgrown.sound.parameters id hid
      · rw [List.mem_singleton.1 hid]
        exact listable_ensure (i := i) ⟨index, r, hr, rfl⟩

/-- An offer lists nothing but what was listed and what is offered. -/
theorem mem_offer {f : Frame} {parameters : List IdentifierId} {slots : Table Int32 Nat}
    {slot : Int32} {offered : IdentifierId} (h : id ∈ (offer f parameters slots slot offered).1) :
    id ∈ parameters ∨ id = offered := by
  unfold offer at h
  split at h
  · rcases List.mem_append.1 h with h | h
    · exact Or.inl h
    · exact Or.inr (List.mem_singleton.1 h)
  · split at h
    · exact Or.inl h
    · split at h
      · exact List.mem_or_eq_of_mem_set h
      · exact Or.inl h

theorem leads_addStackArgument (hb : b.Sound) (offset : Int32) (hid : b.Listable id) :
    b.Leads (b.addStackArgument offset id) := by
  refine ⟨.refl _, rfl, rfl, rfl, fun hd => hd, hb.returnValue, fun other hother => ?_⟩
  rcases mem_offer hother with h | rfl
  · exact hb.parameters other h
  · exact hid

theorem leads_addFpuArgument (hb : b.Sound) (depth : Int32) (hid : b.Listable id) :
    b.Leads (b.addFpuArgument depth id) := by
  refine ⟨.refl _, rfl, rfl, rfl, fun hd => hd, hb.returnValue, fun other hother => ?_⟩
  rcases mem_offer hother with h | rfl
  · exact hb.parameters other h
  · exact hid

theorem mem_append_new {parameters : List IdentifierId} {out : IdentifierId}
    (h : id ∈ if parameters.contains out then parameters else parameters ++ [out]) :
    id ∈ parameters ∨ id = out := by
  split at h
  · exact Or.inl h
  · rcases List.mem_append.1 h with h | h
    · exact Or.inl h
    · exact Or.inr (List.mem_singleton.1 h)

theorem exists_addResult (hb : b.Sound) (hid : b.Listable id) :
    ∃ c, b.addResult id = .ok c ∧ b.Leads c := by
  unfold addResult
  split
  · refine ⟨_, rfl, .refl _, rfl, rfl, rfl, fun hd => hd, fun other hother => ?_, hb.parameters⟩
    rw [← Option.some.inj hother]
    exact hid
  · -- there is a return value already: this one is handed back through its referent
    obtain ⟨s, hs, hdef⟩ := hid
    obtain ⟨i, hi, his⟩ := Frame.holds_iff.1 hs
    let out : Identifier :=
      ⟨Frame.outName i.name, .pointer i.dataType b.architecture.pointerBitSize, i.outStorage⟩
    have hgrown := hb.ensure out
    have hout : out.storage.DefinedBy b.architecture := by
      show i.storage.DefinedBy b.architecture
      rw [his]
      exact hdef
    rw [Frame.ensureOutArgument, Frame.get_eq_ok hi]
    refine ⟨_, rfl, hgrown.frame, rfl, rfl, rfl, hgrown.distinct,
      hgrown.sound.returnValue, fun other hother => ?_⟩
    rcases mem_append_new hother with h | rfl
    · exact hgrown.sound.parameters other h
    · exact listable_ensure (i := out) hout

/-! ## The signature -/

theorem Listable.exists_get (hid : b.Listable id) :
    ∃ x, b.frame.get id = .ok x ∧ b.frame.identifier? id = some x ∧
      x.storage.DefinedBy b.architecture := by
  obtain ⟨s, hs, hdef⟩ := hid
  obtain ⟨i, hi, his⟩ := Frame.holds_iff.1 hs
  refine ⟨i, Frame.get_eq_ok hi, hi, ?_⟩
  rw [his]
  exact hdef

/-- A sound builder builds a valid signature, whose return value and parameters
are identifiers of its frame. -/
theorem exists_build (hb : b.Sound) :
    ∃ s, b.build = .ok s ∧ s.valid = true ∧ s.fpuStackDelta = b.fpuStackDelta ∧
      s.fpuOutMax = b.fpuOutMax ∧
      ∀ x ∈ s.values, (∃ id, b.frame.identifier? id = some x) ∧
        x.storage.DefinedBy b.architecture := by
  obtain ⟨xs, hxs, hparameters⟩ := exists_mapM_ok b.parameters (f := b.frame.get)
    fun id hid => (hb.parameters id hid).exists_get
  have hlisted : ∀ x ∈ xs, (∃ id, b.frame.identifier? id = some x) ∧
      x.storage.DefinedBy b.architecture := by
    intro x hx
    obtain ⟨id, -, hid, hdef⟩ := exists_left_of_mem hparameters hx
    exact ⟨⟨id, hid⟩, hdef⟩
  unfold build
  cases hr : b.returnValue with
  | none =>
    refine ⟨_, by rw [hxs]; rfl, rfl, rfl, rfl, fun x hx => hlisted x ?_⟩
    simpa [values, determined] using hx
  | some id =>
    obtain ⟨r, hget, hr', hdef⟩ := (hb.returnValue id hr).exists_get
    refine ⟨_, by rw [hxs]; simp only [hget]; rfl, rfl, rfl, rfl, fun x hx => ?_⟩
    have hx' : x = r ∨ x ∈ xs := by simpa [values, determined] using hx
    rcases hx' with rfl | hx'
    · exact ⟨⟨id, hr'⟩, hdef⟩
    · exact hlisted x hx'

end Signature.Builder
end Recovery
