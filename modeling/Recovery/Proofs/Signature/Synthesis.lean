import Recovery.Proofs.Signature.Builder
import Recovery.Proofs.Signature.Slots
/-
  Making a signature does not fail.

  Six steps of `assemble` read the frame by number. The numbers come from a look
  at the frame just before (`exists_of_mem_slots`) or from an identifier that the
  step has just asked for, and frames grow while the steps run, so every number
  still holds what it held. `exists_assemble` chains the steps; `exists_treat`
  says what becomes of a procedure with its summary.
-/

namespace Recovery.Synthesis
open Signature (Builder)
open Signature.Builder

variable {a : Architecture} {p : Platform} {s : Summary} {b c : Builder} {f : Frame}
  {kind : StorageKind} {first : Int32} {id : IdentifierId}

/-! ## Slots -/

theorem listable_of_mem_slots (hkind : kind = .stackArgument ∨ kind = .fpuStackArgument) :
    ∀ slot ∈ slots b.frame kind first, b.Listable slot.2 := by
  intro slot h
  obtain ⟨i, hi, rfl, -⟩ := exists_of_mem_slots slot h
  refine ⟨i.storage, Frame.holds_of_identifier? hi, ?_⟩
  cases hs : i.storage with
  | register | outArgument =>
    rw [hs] at hkind
    rcases hkind with h | h <;> cases h
  | stackArgument | stackLocal | fpuStackArgument | flagGroup => trivial

/-! ## Steps -/

theorem exists_addStackSlot (hb : b.Sound) {offset : Int32} (hid : b.Listable id) :
    ∃ c, addStackSlot s b (offset, id) = .ok c ∧ b.Leads c := by
  unfold addStackSlot
  dsimp only
  cases s.stackArguments.get? id with
  | none => exact ⟨_, rfl, leads_addStackArgument hb offset hid⟩
  | some bits =>
    obtain ⟨storage, hs, hdef⟩ := hid
    obtain ⟨i, hi⟩ := hs.exists_identifier
    obtain ⟨g, hg⟩ := hs.exists_setDataType (i.dataType.narrow bits)
    have hgrows := Frame.Grows.setDataType hg
    have hdistinct : b.frame.Distinct → g.Distinct := by
      intro hd
      rw [Frame.Distinct, (Frame.storages_setDataType hg).1]
      exact hd
    -- the new type leaves every storage, so what was listed can still be listed
    have hretyped := hb.withFrame hgrows hdistinct
    have hid : { b with frame := g }.Listable id := ⟨storage, hgrows.holds hs, hdef⟩
    refine ⟨_, ?_, hretyped.trans (leads_addStackArgument hretyped.sound offset hid)⟩
    rw [Frame.get_eq_ok hi]
    show (b.frame.setDataType id (i.dataType.narrow bits) >>= fun frame =>
      pure ({ b with frame := frame }.addStackArgument offset id)) = _
    rw [hg]
    rfl

theorem exists_addRegisterResult (hb : b.Sound) (index : Nat) :
    ∃ c, addRegisterResult b index = .ok c ∧ b.Leads c := by
  unfold addRegisterResult
  split
  · exact ⟨b, rfl, hb.leads⟩
  · next r hr =>
    let i : Identifier := ⟨r.name, .word r.bitSize, r.storage⟩
    have hgrown := hb.ensure i
    have hid := listable_ensure (b := b) (i := i) ⟨index, r, hr, rfl⟩
    obtain ⟨c, hc, hleads⟩ := exists_addResult hgrown.sound hid
    exact ⟨c, hc, hgrown.trans hleads⟩

theorem exists_addFpuResult (hb : b.Sound) {depth : Int32} (hid : b.Listable id) :
    ∃ c, addFpuResult b (depth, id) = .ok c ∧ b.Leads c := by
  unfold addFpuResult
  dsimp only
  split
  · obtain ⟨storage, hs, -⟩ := hid
    obtain ⟨i, hi⟩ := hs.exists_identifier
    let slot : Identifier := ⟨"rArg" ++ toString depth, i.dataType, .fpuStackArgument depth⟩
    have hgrown := hb.ensure slot
    have hslot := listable_ensure (b := b) (i := slot) trivial
    obtain ⟨c, hc, hleads⟩ := exists_addResult hgrown.sound hslot
    refine ⟨c, ?_, hgrown.trans hleads⟩
    rw [Frame.get_eq_ok hi]
    exact hc
  · exact ⟨b, rfl, hb.leads⟩

theorem exists_foldlM_leads {α : Type} {step : Builder → α → Except Error Builder} (l : List α)
    (hb : b.Sound)
    (h : ∀ c, b.Leads c → ∀ x ∈ l, ∃ d, step c x = .ok d ∧ c.Leads d) :
    ∃ c, l.foldlM step b = .ok c ∧ b.Leads c := by
  have hstep : ∀ c, b.Leads c → ∀ x ∈ l, ∃ d, step c x = .ok d ∧ b.Leads d := by
    intro c hc x hx
    obtain ⟨d, hd, hcd⟩ := h c hc x hx
    exact ⟨d, hd, hc.trans hcd⟩
  exact exists_foldlM_ok l hstep b hb.leads

theorem leads_foldl {α : Type} {step : Builder → α → Builder} (l : List α) (hb : b.Sound)
    (h : ∀ c, b.Leads c → ∀ x ∈ l, c.Leads (step c x)) : b.Leads (l.foldl step b) :=
  List.foldlRecOn l step hb.leads fun c hc x hx => hc.trans (h c hc x hx)

theorem exists_assemble (hb : b.Sound) : ∃ c, assemble a p s b = .ok c ∧ b.Leads c := by
  unfold assemble
  dsimp only
  have h₁ : b.Leads (if s.flagsLiveOut = 0 then b else b.addFlagGroup s.flagsLiveOut) := by
    split
    · exact hb.leads
    · exact leads_addFlagGroup hb _
  generalize (if s.flagsLiveOut = 0 then b else b.addFlagGroup s.flagsLiveOut) = b₁ at h₁ ⊢
  have h₂ : b₁.Leads ((listed a p s.mayUse).foldl (fun b i => (b.addRegister i).2) b₁) :=
    leads_foldl _ h₁.sound fun c hc i _ => leads_addRegister hc.sound i
  generalize (listed a p s.mayUse).foldl (fun b i => (b.addRegister i).2) b₁ = b₂ at h₂ ⊢
  -- slots are looked up in the frame before the run, and used in the frames during it
  obtain ⟨b₃, hrun₃, h₃⟩ : ∃ c, (slots b₂.frame .stackArgument 0).foldlM (addStackSlot s) b₂ =
      .ok c ∧ b₂.Leads c :=
    exists_foldlM_leads _ h₂.sound fun c hc slot hslot => exists_addStackSlot hc.sound
      ((listable_of_mem_slots (Or.inl rfl) slot hslot).grow hc.frame hc.architecture)
  let b₄ : Builder := (slots b₃.frame .fpuStackArgument 0).foldl
    (fun b slot => b.addFpuArgument slot.1 slot.2) b₃
  have h₄ : b₃.Leads b₄ :=
    leads_foldl _ h₃.sound fun c hc slot hslot => leads_addFpuArgument hc.sound _
      ((listable_of_mem_slots (Or.inr rfl) slot hslot).grow hc.frame hc.architecture)
  obtain ⟨b₅, hrun₅, h₅⟩ : ∃ c, (listed a p s.liveOut).foldlM addRegisterResult b₄ = .ok c ∧
      b₄.Leads c :=
    exists_foldlM_leads _ h₄.sound fun c hc i _ => exists_addRegisterResult hc.sound i
  obtain ⟨b₆, hrun₆, h₆⟩ : ∃ c, (slots b₅.frame .fpuStackArgument (-b₅.fpuStackDelta)).foldlM
      addFpuResult b₅ = .ok c ∧ b₅.Leads c :=
    exists_foldlM_leads _ h₅.sound fun c hc slot hslot => exists_addFpuResult hc.sound
      ((listable_of_mem_slots (Or.inr rfl) slot hslot).grow hc.frame hc.architecture)
  refine ⟨b₆, ?_, ((((h₁.trans h₂).trans h₃).trans h₄).trans h₅).trans h₆⟩
  rw [hrun₃]
  show ((listed a p s.liveOut).foldlM addRegisterResult b₄ >>= fun b =>
    (slots b.frame .fpuStackArgument (-b.fpuStackDelta)).foldlM addFpuResult b) = _
  rw [hrun₅]
  exact hrun₆

/-! ## Procedures -/

/-- What becomes of a procedure without a valid signature: its frame grows, and
its new signature, which its summary takes too, lists identifiers of that frame. -/
structure Made (a : Architecture) (q q' : Procedure) (s' : Summary) : Prop where
  grows : q.frame.Grows q'.frame
  distinct : q'.frame.Distinct
  signature : s'.signature = some q'.signature
  fpuStackDelta : q'.signature.fpuStackDelta = q.signature.fpuStackDelta
  fpuOutMax : q'.signature.fpuOutMax = q.signature.fpuOutMax
  values : ∀ x ∈ q'.signature.values, (∃ id, q'.frame.identifier? id = some x) ∧
    x.storage.DefinedBy a

/-- What becomes of any procedure and its summary. -/
structure Treated (a : Architecture) (q : Procedure) (s : Summary) (q' : Procedure)
    (s' : Summary) : Prop where
  id : q'.id = q.id
  valid : q'.signature.valid = true
  kept : q.signature.valid = true →
    q'.signature = q.signature ∧ q'.frame = q.frame ∧ s'.signature = s.signature
  made : q.signature.valid = false → Made a q q' s'

theorem setSignature_eq_ok {q : Procedure} {signature : Signature}
    (hq : q.signature.valid = false) :
    q.setSignature signature = .ok { q with signature := signature } := by
  rw [Procedure.setSignature, hq]
  rfl

theorem exists_ensureSignature {q : Procedure} (hq : q.signature.valid = false) :
    ∃ b signature,
      assemble a p s (.start a q.frame q.signature.fpuStackDelta q.signature.fpuOutMax) = .ok b ∧
      b.build = .ok signature ∧ signature.valid = true ∧
      ensureSignature a p q s = .ok (true, { q with frame := b.frame, signature },
        { s with signature := some signature }) ∧
      (q.frame.Distinct → Made a q { q with frame := b.frame, signature }
        { s with signature := some signature }) := by
  let start : Builder := .start a q.frame q.signature.fpuStackDelta q.signature.fpuOutMax
  have hstart : start.Sound := by
    refine ⟨fun id h => ?_, fun id h => ?_⟩
    · cases h
    · cases h
  obtain ⟨b, hb, hleads⟩ := exists_assemble (a := a) (p := p) (s := s) hstart
  obtain ⟨signature, hbuild, hvalid, hdelta, hmax, hvalues⟩ := exists_build hleads.sound
  refine ⟨b, signature, hb, hbuild, hvalid, ?_, fun hd => ?_⟩
  · unfold ensureSignature
    rw [hq]
    show (assemble a p s start >>= fun b => _) = _
    rw [hb]
    show (b.build >>= fun signature => _) = _
    rw [hbuild]
    show (Procedure.setSignature { q with frame := b.frame } signature >>= fun q => _) = _
    rw [setSignature_eq_ok (q := { q with frame := b.frame }) hq]
    rfl
  · refine ⟨hleads.frame, hleads.distinct hd, rfl, hdelta.trans hleads.fpuStackDelta,
      hmax.trans hleads.fpuOutMax, fun x hx => ?_⟩
    have hdef := (hvalues x hx).2
    rw [hleads.architecture] at hdef
    exact ⟨(hvalues x hx).1, hdef⟩

theorem treat_of_valid (settings : Settings) {q : Procedure} (hq : q.signature.valid = true) :
    treat settings a p q s = .ok (q, s.narrowLiveOut) := by
  unfold treat ensureSignature
  rw [hq]
  rfl

/-- What a procedure without a valid signature becomes: it is given one, and the
uses of its out-arguments where they are asked for. -/
theorem exists_treat_of_invalid (settings : Settings) {q : Procedure}
    (hq : q.signature.valid = false) :
    ∃ b signature q' s', q' = { q with frame := b.frame, signature } ∧
      s' = { s.narrowLiveOut with signature := some signature } ∧
      assemble a p s.narrowLiveOut
        (.start a q.frame q.signature.fpuStackDelta q.signature.fpuOutMax) = .ok b ∧
      b.build = .ok signature ∧ signature.valid = true ∧
      treat settings a p q s =
        .ok (if settings.outArgumentUses then addOutArgumentUses q' else q', s') ∧
      (q.frame.Distinct → Made a q q' s') := by
  obtain ⟨b, signature, hb, hbuild, hvalid, hmake, hmade⟩ :=
    exists_ensureSignature (a := a) (p := p) (s := s.narrowLiveOut) hq
  refine ⟨b, signature, _, _, rfl, rfl, hb, hbuild, hvalid, ?_, hmade⟩
  unfold treat
  rw [hmake]
  rfl

/-- Whatever becomes of a procedure, it keeps its number and has a valid signature,
and narrowing its summary once more changes nothing. -/
theorem of_treat {settings : Settings} {q : Procedure} {t : Procedure × Summary}
    (ht : treat settings a p q s = .ok t) :
    t.1.id = q.id ∧ t.1.signature.valid = true ∧ t.2.narrowLiveOut = t.2 := by
  cases hq : q.signature.valid with
  | true =>
    rw [treat_of_valid settings hq] at ht
    cases ht
    exact ⟨rfl, hq, s.narrowLiveOut_narrowLiveOut⟩
  | false =>
    obtain ⟨b, signature, q', s', rfl, rfl, -, -, hvalid, htreat, -⟩ :=
      exists_treat_of_invalid (a := a) (p := p) (s := s) settings hq
    rw [htreat] at ht
    cases ht
    have hnarrow : { s.narrowLiveOut with signature := some signature }.narrowLiveOut =
        { s.narrowLiveOut.narrowLiveOut with signature := some signature } := rfl
    rw [hnarrow, s.narrowLiveOut_narrowLiveOut]
    cases settings.outArgumentUses with
    | true => exact ⟨rfl, hvalid, rfl⟩
    | false => exact ⟨rfl, hvalid, rfl⟩

theorem exists_treat (settings : Settings) (q : Procedure) :
    ∃ t, treat settings a p q s = .ok t ∧ (q.frame.Distinct → Treated a q s t.1 t.2) := by
  cases hq : q.signature.valid with
  | true =>
    refine ⟨_, treat_of_valid settings hq, fun _ => ⟨rfl, hq, fun _ => ⟨rfl, rfl, rfl⟩, fun h => ?_⟩⟩
    rw [hq] at h
    cases h
  | false =>
    obtain ⟨b, signature, q', s', rfl, rfl, -, -, hvalid, htreat, hmade⟩ :=
      exists_treat_of_invalid (a := a) (p := p) (s := s) settings hq
    refine ⟨_, htreat, fun hd => ?_⟩
    have hmade := hmade hd
    have hkept : ¬q.signature.valid = true := by
      rw [hq]
      exact Bool.false_ne_true
    -- the uses change neither the signature nor the frame that it reads
    cases settings.outArgumentUses with
    | true =>
      exact ⟨rfl, hvalid, fun h => absurd h hkept, fun _ =>
        ⟨hmade.grows, hmade.distinct, hmade.signature, hmade.fpuStackDelta, hmade.fpuOutMax,
          hmade.values⟩⟩
    | false => exact ⟨rfl, hvalid, fun h => absurd h hkept, fun _ => hmade⟩

theorem Treated.of_treat {settings : Settings} {q : Procedure} {t : Procedure × Summary}
    (hd : q.frame.Distinct) (ht : treat settings a p q s = .ok t) : Treated a q s t.1 t.2 := by
  obtain ⟨t', ht', htreated⟩ := exists_treat (a := a) (p := p) (s := s) settings q
  rw [Except.ok.inj (ht.symm.trans ht')]
  exact htreated hd

end Recovery.Synthesis
