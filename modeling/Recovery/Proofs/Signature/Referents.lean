import Recovery.Proofs.Signature.Narrowing
/-
  What an out-argument stands for is in the frame.

  A parameter that hands a result back carries a copy of the result's identifier. The
  copy is made of the frame as it is then, and afterwards nothing but types of stack
  arguments changes (`Frame.Retains`), so a referent anywhere else is an identifier of
  the frame from then on (`Frame.Backs`).

  `assemble_induction` says once what `assemble` is made of: what each kind of addition
  keeps, all of them together keep. Nothing is asked of the architecture or of what the
  frame held before.
-/

namespace Recovery.Frame
variable {f g h : Frame} {id : IdentifierId} {i : Identifier} {s : Storage}

/-- `f.Retains g`: the frame `g` grew from `f`, and at most types of stack arguments have
changed. -/
structure Retains (f g : Frame) : Prop where
  grows : f.Grows g
  identifier? : ∀ id i, f.identifier? id = some i → i.storage.kind ≠ .stackArgument →
    g.identifier? id = some i

theorem Retains.refl (f : Frame) : f.Retains f := ⟨.refl f, fun _ _ hi _ => hi⟩

theorem Extends.retains (hfg : f.Extends g) : f.Retains g :=
  ⟨hfg.grows, fun _ _ hi _ => hfg.identifier? hi⟩

/-- Whether the frame has the identifier whose value a storage hands back, unless that is a
stack argument. -/
def Backs (f : Frame) (s : Storage) : Prop :=
  ∀ i, s.referent? = some i → i.storage.kind ≠ .stackArgument → ∃ id, f.identifier? id = some i

theorem backs_of_kind_ne (f : Frame) (hs : s.kind ≠ .outArgument) : f.Backs s := by
  intro i hi
  cases s with
  | outArgument => exact absurd rfl hs
  | register | stackArgument | stackLocal | fpuStackArgument | flagGroup => cases hi

theorem backs_outStorage (hi : f.identifier? id = some i) : f.Backs i.outStorage := by
  intro j hj _
  rw [Storage.referent?_outStorage] at hj
  rw [← Option.some.inj hj]
  exact ⟨id, hi⟩

theorem Backs.retain (hs : f.Backs s) (hfg : f.Retains g) : g.Backs s := by
  intro i hi hkind
  obtain ⟨id, hid⟩ := hs i hi hkind
  exact ⟨id, hfg.identifier? id i hid hkind⟩

end Recovery.Frame

namespace Recovery.Synthesis
open Signature (Builder)
open Signature.Builder

variable {a : Architecture} {p : Platform} {s : Summary} {b c start : Builder} {f : Frame}
  {id : IdentifierId}

/-- What every addition keeps, making a signature keeps. The slots of both stacks are looked
up before they are added, and they still lie on the same stack then. -/
theorem assemble_induction {P : Builder → Prop} (hrun : assemble a p s start = .ok b)
    (hstart : P start) (hflags : ∀ b mask, P b → P (b.addFlagGroup mask))
    (hregister : ∀ b i, P b → P (b.addRegister i).2)
    (hstack : ∀ b c slot, P b → (∃ t, b.frame.Holds slot.2 t ∧ t.kind = .stackArgument) →
      addStackSlot s b slot = .ok c → P c)
    (hfpu : ∀ (b : Builder) (slot : Int32 × IdentifierId), P b →
      (∃ t, b.frame.Holds slot.2 t ∧ t.kind = .fpuStackArgument) →
      P (b.addFpuArgument slot.1 slot.2))
    (hpassed : ∀ b c i, P b → addRegisterResult b i = .ok c → P c)
    (hdepth : ∀ b c slot, P b → addFpuResult b slot = .ok c → P c) : P b := by
  have hslot {g : Frame} {kind : StorageKind} {first : Int32} (slot : Int32 × IdentifierId)
      (h : slot ∈ slots g kind first) : ∃ t, g.Holds slot.2 t ∧ t.kind = kind := by
    obtain ⟨i, hi, hkind, -⟩ := exists_of_mem_slots slot h
    exact ⟨i.storage, Frame.holds_of_identifier? hi, hkind⟩
  unfold assemble at hrun
  dsimp only at hrun
  have h₁ : P (if s.flagsLiveOut = 0 then start else start.addFlagGroup s.flagsLiveOut) := by
    split
    · exact hstart
    · exact hflags start _ hstart
  generalize (if s.flagsLiveOut = 0 then start else start.addFlagGroup s.flagsLiveOut) = b₁
    at h₁ hrun
  have h₂ : P ((listed a p s.mayUse).foldl (fun b i => (b.addRegister i).2) b₁) :=
    List.foldlRecOn _ _ h₁ fun c hc i _ => hregister c i hc
  generalize (listed a p s.mayUse).foldl (fun b i => (b.addRegister i).2) b₁ = b₂ at h₂ hrun
  obtain ⟨b₃, hrun₃, hrun⟩ := bind_eq_ok.1 hrun
  have h₃ : P b₃ ∧ b₂.frame.Grows b₃.frame := by
    refine of_foldlM_eq_ok (motive := fun _ c => P c ∧ b₂.frame.Grows c.frame) _ ?_ b₂ b₃
      ⟨h₂, .refl _⟩ hrun₃
    rintro done slot rest hl c d ⟨hc, hgrows⟩ hd
    obtain ⟨t, ht, hkind⟩ := hslot slot (mem_of_split hl)
    refine ⟨hstack c d slot hc ⟨t, hgrows.holds ht, hkind⟩ hd, hgrows.trans ?_⟩
    rw [eq_of_addStackSlot hd]
    exact grows_foldl_narrowIn s [slot.2] c.frame
  have h₄ : P ((slots b₃.frame .fpuStackArgument 0).foldl
      (fun b slot => b.addFpuArgument slot.1 slot.2) b₃) := by
    refine (List.foldlRecOn (motive := fun c : Builder => P c ∧ c.frame = b₃.frame) _ _
      ⟨h₃.1, rfl⟩ ?_).1
    rintro c ⟨hc, hframe⟩ slot hmem
    refine ⟨hfpu c slot hc ?_, hframe⟩
    rw [hframe]
    exact hslot slot hmem
  obtain ⟨b₅, hrun₅, hrun⟩ := bind_eq_ok.1 hrun
  have h₅ : P b₅ := of_foldlM_eq_ok (motive := fun _ => P) _
    (fun _ i _ _ c d hc hd => hpassed c d i hc hd) _ b₅ h₄ hrun₅
  exact of_foldlM_eq_ok (motive := fun _ => P) _
    (fun _ slot _ _ c d hc hd => hdepth c d slot hc hd) b₅ b h₅ hrun

/-- Whether the frame backs every parameter listed. -/
def Backed (b : Builder) : Prop := ∀ id ∈ b.parameters, ∃ t, b.frame.Holds id t ∧ b.frame.Backs t

/-- Listing what is backed, in a frame that retains the one before, keeps the builder backed. -/
theorem Backed.add (hb : Backed b) (hf : b.frame.Retains c.frame)
    (hnew : ∀ id ∈ c.parameters,
      id ∈ b.parameters ∨ ∃ t, c.frame.Holds id t ∧ c.frame.Backs t) : Backed c := by
  intro id hid
  cases hnew id hid with
  | inl hold =>
    obtain ⟨t, ht, hbacks⟩ := hb id hold
    exact ⟨t, hf.grows.holds ht, hbacks.retain hf⟩
  | inr hadded => exact hadded

theorem Backed.ensure (hb : Backed b) (i : Identifier) :
    Backed { b with frame := (b.frame.ensure i).2 } :=
  hb.add (Frame.Extends.ensure b.frame i).retains fun _ hid => Or.inl hid

theorem backed_addFlagGroup (hb : Backed b) (mask : Nat) : Backed (b.addFlagGroup mask) := by
  obtain ⟨hkeeps, hparameters, -, -⟩ := keepsSlots_addFlagGroup b mask
  apply hb.add hkeeps.appended.retains
  rw [hparameters]
  exact fun id hid => Or.inl hid

theorem backed_addRegister (hb : Backed b) (i : Nat) : Backed (b.addRegister i).2 := by
  obtain ⟨⟨hext, ids, hids, hkind⟩, -⟩ := adds_addRegister b i
  apply hb.add hext.retains
  intro id hid
  rw [hids, List.mem_append] at hid
  refine hid.imp_right fun hid => ?_
  obtain ⟨t, ht, hregister⟩ := hkind id hid
  exact ⟨t, ht, Frame.backs_of_kind_ne _ (by simp [hregister])⟩

theorem retains_narrowIn (s : Summary) (h : ∃ t, f.Holds id t ∧ t.kind = .stackArgument) :
    f.Retains (narrowIn s f id) := by
  obtain ⟨t, ht, hkind⟩ := h
  refine ⟨grows_foldl_narrowIn s [id] f, fun other i hi hother => ?_⟩
  have hne : id ≠ other := by
    intro heq
    have hholds := Frame.holds_of_identifier? hi
    rw [← heq] at hholds
    rw [Option.some.inj (hholds.symm.trans ht)] at hother
    exact hother hkind
  rw [identifier?_narrowIn, if_neg hne]
  exact hi

theorem backed_addStackSlot {slot : Int32 × IdentifierId} (hb : Backed b)
    (hslot : ∃ t, b.frame.Holds slot.2 t ∧ t.kind = .stackArgument)
    (h : addStackSlot s b slot = .ok c) : Backed c := by
  rw [eq_of_addStackSlot h]
  have hf := retains_narrowIn s hslot
  apply hb.add hf
  intro id hid
  refine (mem_offer hid).imp_right fun heq => ?_
  obtain ⟨t, ht, hkind⟩ := hslot
  rw [heq]
  exact ⟨t, hf.grows.holds ht, Frame.backs_of_kind_ne _ (by simp [hkind])⟩

theorem backed_addFpuArgument {slot : Int32 × IdentifierId} (hb : Backed b)
    (hslot : ∃ t, b.frame.Holds slot.2 t ∧ t.kind = .fpuStackArgument) :
    Backed (b.addFpuArgument slot.1 slot.2) := by
  refine hb.add (c := b.addFpuArgument slot.1 slot.2) (.refl b.frame) fun id hid => ?_
  refine (mem_offer hid).imp_right fun heq => ?_
  obtain ⟨t, ht, hkind⟩ := hslot
  rw [heq]
  exact ⟨t, ht, Frame.backs_of_kind_ne _ (by simp [hkind])⟩

/-- A result is an identifier of the frame when the parameter for it is made. -/
theorem backed_addResult (hb : Backed b) (h : b.addResult id = .ok c) : Backed c := by
  unfold addResult at h
  split at h
  · rw [← Except.ok.inj h]
    exact hb
  · obtain ⟨⟨outId, frame⟩, hout, h⟩ := bind_eq_ok.1 h
    obtain ⟨i, hi, hout⟩ := bind_eq_ok.1 hout
    let out : Identifier :=
      ⟨Frame.outName i.name, .pointer i.dataType b.architecture.pointerBitSize, i.outStorage⟩
    obtain ⟨rfl, rfl⟩ : (b.frame.ensure out).1 = outId ∧ (b.frame.ensure out).2 = frame :=
      Prod.mk.inj (Except.ok.inj hout)
    have hext := Frame.Extends.ensure b.frame out
    rw [← Except.ok.inj h]
    apply hb.add hext.retains
    intro other hother
    refine (mem_append_new hother).imp_right fun heq => ?_
    rw [heq]
    exact ⟨out.storage, Frame.holds_ensure b.frame out,
      Frame.backs_outStorage (hext.identifier? (Frame.identifier?_of_get hi))⟩

theorem backed_addRegisterResult {index : Nat} (hb : Backed b)
    (h : addRegisterResult b index = .ok c) : Backed c := by
  unfold addRegisterResult at h
  split at h
  · rw [← Except.ok.inj h]
    exact hb
  · exact backed_addResult (hb.ensure _) h

theorem backed_addFpuResult {slot : Int32 × IdentifierId} (hb : Backed b)
    (h : addFpuResult b slot = .ok c) : Backed c := by
  obtain ⟨depth, id⟩ := slot
  unfold addFpuResult at h
  dsimp only at h
  split at h
  · obtain ⟨i, -, h⟩ := bind_eq_ok.1 h
    exact backed_addResult (hb.ensure _) h
  · rw [← Except.ok.inj h]
    exact hb

theorem backed_of_assemble {fpuStackDelta fpuOutMax : Int32}
    (h : assemble a p s (.start a f fpuStackDelta fpuOutMax) = .ok b) : Backed b := by
  have hstart : Backed (.start a f fpuStackDelta fpuOutMax) := by
    intro id hid
    cases hid
  exact assemble_induction h hstart (fun _ mask hb => backed_addFlagGroup hb mask)
    (fun _ i hb => backed_addRegister hb i) (fun _ _ _ hb => backed_addStackSlot hb)
    (fun _ _ hb => backed_addFpuArgument hb) (fun _ _ _ hb => backed_addRegisterResult hb)
    (fun _ _ _ hb => backed_addFpuResult hb)

theorem Backed.of_build {signature : Signature} (hb : Backed b) (h : b.build = .ok signature) :
    ∀ x ∈ signature.parameters, b.frame.Backs x.storage := by
  intro x hx
  obtain ⟨id, hid, hread⟩ := exists_left_of_mem (parameters_of_build h) hx
  obtain ⟨t, ht, hbacks⟩ := hb id hid
  rwa [Option.some.inj ((Frame.holds_of_identifier? hread).symm.trans ht)]

end Recovery.Synthesis
