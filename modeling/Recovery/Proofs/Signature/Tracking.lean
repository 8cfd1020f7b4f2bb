import Recovery.Proofs.Frame.Keyed
import Recovery.Proofs.Signature.Builder
import Recovery.Proofs.Signature.Outline
/-
  A builder keeps track of what was asked of it.

  A builder `Tracks` a log when the numbers that it lists are those for the entries of the
  outline, one by one, and its two tables say where the slots of their stack stand (`Places`).
  Only an offer for a slot writes in the middle of the list; it finds its place in a table, and
  the place is that of the slot (`Tracks.offer`). Every addition that may be asked for succeeds
  and keeps that (`exists_tracks_add`), so a sequence of them does (`exists_tracks_addAll`).

  The frame may change in between: it may grow, and types may be changed of identifiers that
  were not named yet. `Steady` is what of a frame that leaves alone.
-/

namespace Recovery

/-! ## Frames in between -/

namespace Frame
variable {f g : Frame} {ids : List IdentifierId} {id old : IdentifierId}

/-- `f.Steady ids g`: the frame `g` grew from `f`, and some identifiers are what they were. -/
structure Steady (ids : List IdentifierId) (f g : Frame) : Prop where
  grows : f.Grows g
  distinct : f.Distinct → g.Distinct
  same : ∀ id ∈ ids, ∀ i, f.identifier? id = some i → g.identifier? id = some i

theorem Steady.refl (ids : List IdentifierId) (f : Frame) : Steady ids f f :=
  ⟨.refl f, fun hd => hd, fun _ _ _ hi => hi⟩

theorem Steady.ensure (ids : List IdentifierId) (f : Frame) (i : Identifier) :
    Steady ids f (f.ensure i).2 :=
  ⟨(Extends.ensure f i).grows, fun hd => hd.ensure i,
    fun _ _ _ hi => (Extends.ensure f i).identifier? hi⟩

theorem Steady.setDataType {t : DataType} (hid : id ∉ ids) (hg : f.setDataType id t = .ok g) :
    Steady ids f g := by
  refine ⟨.setDataType hg, fun hd => ?_, fun other hother i hi => ?_⟩
  · rw [Distinct, (storages_setDataType hg).1]
    exact hd
  · have hne : id ≠ other := fun h => hid (h ▸ hother)
    unfold Frame.setDataType at hg
    split at hg
    · cases hg
      simpa [identifier?, List.getElem?_modify, hne] using hi
    · cases hg

theorem Steady.run {op : FrameOperation} (h : ∀ id t, op = .setDataType id t → id ∉ ids) :
    Steady ids f (op.run f).2 := by
  cases op with
  | ensure r =>
    rw [FrameOperation.run_ensure]
    cases r.wanted f.get with
    | error e => exact .refl ids f
    | ok i => exact .ensure ids f i
  | setDataType id t =>
    cases hg : f.setDataType id t with
    | error e =>
      simp only [FrameOperation.run, hg]
      exact .refl ids f
    | ok g =>
      simp only [FrameOperation.run, hg]
      exact .setDataType (h id t rfl) hg

theorem FirstWidest.mem (h : f.FirstWidest ids id) : id ∈ ids := by
  obtain ⟨before, after, rfl, -, -⟩ := h
  exact List.mem_append_right _ List.mem_cons_self

theorem firstWidest_singleton (f : Frame) (id : IdentifierId) : f.FirstWidest [id] id :=
  ⟨[], [], rfl, List.forall_mem_nil _, List.forall_mem_nil _⟩

theorem FirstWidest.append (h : f.FirstWidest ids old) (id : IdentifierId) :
    f.FirstWidest (ids ++ [id]) (if f.widthOf old < f.widthOf id then id else old) := by
  obtain ⟨before, after, rfl, hbefore, hafter⟩ := h
  by_cases hlt : f.widthOf old < f.widthOf id
  · rw [if_pos hlt]
    refine ⟨before ++ old :: after, [], rfl, fun other hother => ?_, List.forall_mem_nil _⟩
    rcases List.mem_append.1 hother with hother | hother
    · exact Nat.lt_trans (hbefore other hother) hlt
    · rcases List.mem_cons.1 hother with rfl | hother
      · exact hlt
      · exact Nat.lt_of_le_of_lt (hafter other hother) hlt
  · rw [if_neg hlt]
    refine ⟨before, after ++ [id], by simp, hbefore, fun other hother => ?_⟩
    rcases List.mem_append.1 hother with hother | hother
    · exact hafter other hother
    · rw [List.mem_singleton.1 hother]
      exact Nat.le_of_not_lt hlt

theorem FirstWidest.congr (h : f.FirstWidest ids id)
    (hwidth : ∀ other ∈ ids, g.widthOf other = f.widthOf other) : g.FirstWidest ids id := by
  have hid := hwidth id h.mem
  obtain ⟨before, after, rfl, hbefore, hafter⟩ := h
  refine ⟨before, after, rfl, fun other hother => ?_, fun other hother => ?_⟩
  · rw [hid, hwidth other (List.mem_append_left _ hother)]
    exact hbefore other hother
  · rw [hid, hwidth other (List.mem_append_right _ (List.mem_cons_of_mem _ hother))]
    exact hafter other hother

theorem Steady.widthOf (hfg : Steady ids f g) (hid : id ∈ ids)
    (hknown : ∃ i, f.identifier? id = some i) : g.widthOf id = f.widthOf id := by
  obtain ⟨i, hi⟩ := hknown
  rw [Frame.widthOf, Frame.widthOf, hi, hfg.same id hid i hi]

end Frame

namespace Signature.Builder
variable {a : Architecture} {f g : Frame} {log : Log} {b c : Builder} {e : Entry}
  {id : IdentifierId} {x : Addition × Bool}

/-! ## What a builder keeps track of -/

/-- Whether a number listed is the one for what it stands for. -/
def Names (a : Architecture) (f : Frame) (log : Log) : Entry → IdentifierId → Prop
  | .register index, id => ∃ r, a.register? index = some r ∧ f.Holds id r.storage
  | .stackSlot offset, id => f.FirstWidest (offered log (.stackSlot offset)) id
  | .fpuSlot depth, id => f.FirstWidest (offered log (.fpuSlot depth)) id
  | .plain other, id => id = other ∧ other ∈ arguments log
  | .result other, id =>
    other ∈ named log ∧ ∃ i, f.identifier? other = some i ∧ f.Holds id i.outStorage

/-- Whether a table says where the slots of one stack stand in a list. -/
def Places (slots : Table Int32 Nat) (slot : Int32 → Entry) (entries : List Entry) : Prop :=
  ∀ o place, slots.get? o = some place ↔ entries[place]? = some (slot o)

/-- Whether a builder is as a log of what was asked of it says. -/
structure Tracks (a : Architecture) (log : Log) (b : Builder) : Prop where
  architecture : b.architecture = a
  distinct : b.frame.Distinct
  registers : b.registers = accepted log
  returnValue : b.returnValue = (outline log).returned
  parameters : List.Forall₂ (Names a b.frame log) (outline log).entries b.parameters
  stackSlots : Places b.stackSlots .stackSlot (outline log).entries
  fpuSlots : Places b.fpuSlots .fpuSlot (outline log).entries
  known : ∀ id ∈ named log, ∃ i, b.frame.identifier? id = some i
  arguments : ∀ id ∈ arguments log, ∃ i, b.frame.identifier? id = some i ∧
    i.storage.isOutArgument = false
  answers : ∀ before x, before ++ [x] <+: log → Answered a before x

theorem tracks_start (a : Architecture) {f : Frame} (hd : f.Distinct)
    (fpuStackDelta fpuOutMax : Int32) :
    Tracks a [] (.start a f fpuStackDelta fpuOutMax) := by
  refine ⟨rfl, hd, rfl, rfl, .nil, fun o place => ?_, fun o place => ?_, List.forall_mem_nil _,
    List.forall_mem_nil _, fun before x h => ?_⟩
  · simp [start, outline, Table.get?, Table.empty]
  · simp [start, outline, Table.get?, Table.empty]
  · simp at h

/-- What a number stands for, it stands for after an addition that does not offer for it. -/
theorem Names.grow (h : Names a f log e id) (hfg : Frame.Steady (named (log ++ [x])) f g)
    (hknown : ∀ id ∈ named log, ∃ i, f.identifier? id = some i) (hoffer : x.1.offer? e = none) :
    Names a g (log ++ [x]) e id := by
  have hlater : ∀ other ∈ named log, other ∈ named (log ++ [x]) := by
    intro other hother
    rw [named_append]
    exact List.mem_append_left _ hother
  have hwidth : ∀ other ∈ offered log e, g.widthOf other = f.widthOf other := by
    intro other hother
    have hnamed := mem_named_of_mem_arguments (mem_arguments_of_mem_offered hother)
    exact hfg.widthOf (hlater other hnamed) (hknown other hnamed)
  cases e with
  | register index =>
    obtain ⟨r, hr, hid⟩ := h
    exact ⟨r, hr, hfg.grows.holds hid⟩
  | stackSlot offset =>
    have hwidest : f.FirstWidest (offered log (.stackSlot offset)) id := h
    show g.FirstWidest (offered (log ++ [x]) _) id
    rw [offered_append, hoffer, Option.toList_none, List.append_nil]
    exact hwidest.congr hwidth
  | fpuSlot depth =>
    have hwidest : f.FirstWidest (offered log (.fpuSlot depth)) id := h
    show g.FirstWidest (offered (log ++ [x]) _) id
    rw [offered_append, hoffer, Option.toList_none, List.append_nil]
    exact hwidest.congr hwidth
  | plain other =>
    refine ⟨h.1, ?_⟩
    rw [arguments_append]
    exact List.mem_append_left _ h.2
  | result other =>
    obtain ⟨hother, i, hi, hid⟩ := h
    exact ⟨hlater other hother, i, hfg.same other (hlater other hother) i hi,
      hfg.grows.holds hid⟩

/-! ## Slots -/

section
variable {slots : Table Int32 Nat} {slot : Int32 → Entry} {entries : List Entry}

theorem getElem?_append_eq_some_iff {e' : Entry} (hne : e ≠ e') (place : Nat) :
    (entries ++ [e])[place]? = some e' ↔ entries[place]? = some e' := by
  rw [List.getElem?_append]
  split
  · rfl
  · next hge =>
    rw [List.getElem?_eq_none (Nat.le_of_not_lt hge), List.getElem?_singleton]
    split
    · simp [hne]
    · rfl

theorem Places.append_other (h : Places slots slot entries) (hne : ∀ o, e ≠ slot o) :
    Places slots slot (entries ++ [e]) := by
  intro o place
  rw [getElem?_append_eq_some_iff (hne o)]
  exact h o place

theorem Places.append_slot (h : Places slots slot entries) (hinj : Function.Injective slot)
    {o : Int32} (hnew : slots.get? o = none) :
    Places (slots.put o entries.length) slot (entries ++ [slot o]) := by
  intro o' place
  rw [Table.get?_put]
  by_cases ho : o = o'
  · subst ho
    have hfresh : entries[place]? ≠ some (slot o) := by
      intro hplace
      rw [(h o place).2 hplace] at hnew
      cases hnew
    rw [if_pos rfl, Option.some.injEq, List.getElem?_append]
    split
    · next hlt =>
      constructor
      · intro heq
        omega
      · intro hplace
        exact absurd hplace hfresh
    · next hge =>
      rw [List.getElem?_singleton]
      constructor
      · intro heq
        rw [if_pos (by omega)]
      · intro hplace
        split at hplace
        · omega
        · cases hplace
  · rw [if_neg ho, getElem?_append_eq_some_iff (hinj.ne ho)]
    exact h o' place

theorem Places.share_other (h : Places slots slot entries) (hne : ∀ o, e ≠ slot o) :
    Places slots slot (if e ∈ entries then entries else entries ++ [e]) := by
  split
  · exact h
  · exact h.append_other hne

theorem Places.mem_iff (h : Places slots slot entries) (o : Int32) :
    slot o ∈ entries ↔ ∃ place, slots.get? o = some place := by
  simp only [List.mem_iff_getElem?, h o]

/-- Lists that match stay matched when one place is written, if what is said of the other
places still holds. -/
theorem forall₂_set {α β : Type} {R R' : α → β → Prop} {xs : List α} {ys : List β}
    (h : List.Forall₂ R xs ys) {place : Nat} {y : β} (hy : ∀ x, xs[place]? = some x → R' x y)
    (hother : ∀ k x y, k ≠ place → xs[k]? = some x → R x y → R' x y) :
    List.Forall₂ R' xs (ys.set place y) := by
  obtain ⟨hlength, hR⟩ := List.forall₂_iff_get.1 h
  refine List.forall₂_iff_get.2 ⟨?_, fun k hk hk' => ?_⟩
  · rw [List.length_set]
    exact hlength
  · by_cases hplace : k = place
    · subst hplace
      simpa using hy _ (List.getElem?_eq_getElem hk)
    · have hR' := hother k _ _ hplace (List.getElem?_eq_getElem hk) (hR k hk (hlength ▸ hk))
      simpa [List.getElem_set, Ne.symm hplace] using hR'

end

/-- Whether the slots of a stack are entries of their own, each for the first of the widest
identifiers that were offered for it. -/
structure IsStack (a : Architecture) (slot : Int32 → Entry) : Prop where
  injective : Function.Injective slot
  names : ∀ f log o id, Names a f log (slot o) id ↔ f.FirstWidest (offered log (slot o)) id
  times : ∀ log o, times log (slot o) = min 1 (offered log (slot o)).length

theorem isStack_stackSlot (a : Architecture) : IsStack a .stackSlot :=
  ⟨fun _ _ => Entry.stackSlot.inj, fun _ _ _ _ => Iff.rfl, fun _ _ => rfl⟩

theorem isStack_fpuSlot (a : Architecture) : IsStack a .fpuSlot :=
  ⟨fun _ _ => Entry.fpuSlot.inj, fun _ _ _ _ => Iff.rfl, fun _ _ => rfl⟩

theorem IsStack.offered_eq_nil {slot : Int32 → Entry} (hslot : IsStack a slot) {o : Int32}
    (h : slot o ∉ (outline log).entries) : offered log (slot o) = [] := by
  have hcount := count_outline log (slot o)
  rw [List.count_eq_zero.2 h, hslot.times] at hcount
  apply List.eq_nil_of_length_eq_zero
  omega

section
variable {slots : Table Int32 Nat} {slot : Int32 → Entry} {o : Int32}

/-- What does not stand for a slot stands for the same after an offer for it. -/
theorem Tracks.keep_other (h : Tracks a log b)
    (hoffer : ∀ e, x.1.offer? e = if e = slot o then some id else none) {n : IdentifierId}
    (hne : e ≠ slot o) (hn : Names a b.frame log e n) : Names a b.frame (log ++ [x]) e n := by
  refine hn.grow (.refl _ b.frame) h.known ?_
  rw [hoffer, if_neg hne]

theorem offered_append_offer (hoffer : ∀ e, x.1.offer? e = if e = slot o then some id else none) :
    offered (log ++ [x]) (slot o) = offered log (slot o) ++ [id] := by
  rw [offered_append, hoffer, if_pos rfl, Option.toList_some]

theorem Tracks.offer_new (h : Tracks a log b) (hslot : IsStack a slot)
    (hoffer : ∀ e, x.1.offer? e = if e = slot o then some id else none)
    (hnew : slot o ∉ (outline log).entries) :
    List.Forall₂ (Names a b.frame (log ++ [x])) ((outline log).entries ++ [slot o])
      (b.parameters ++ [id]) := by
  have hold : List.Forall₂ (Names a b.frame (log ++ [x])) (outline log).entries b.parameters := by
    refine ((List.forall₂_and_left _ _).2 ⟨fun e he => he, h.parameters⟩).imp ?_
    rintro e n ⟨he, hn⟩
    exact h.keep_other hoffer (fun heq => hnew (heq ▸ he)) hn
  refine List.rel_append hold (.cons ?_ .nil)
  rw [hslot.names, offered_append_offer hoffer, hslot.offered_eq_nil hnew, List.nil_append]
  exact Frame.firstWidest_singleton b.frame id

theorem Tracks.offer_taken (h : Tracks a log b) (hslot : IsStack a slot)
    (hslots : Places slots slot (outline log).entries)
    (hoffer : ∀ e, x.1.offer? e = if e = slot o then some id else none) {place : Nat}
    (hget : slots.get? o = some place) {old : IdentifierId}
    (hold : b.parameters[place]? = some old) :
    List.Forall₂ (Names a b.frame (log ++ [x])) (outline log).entries
      (b.parameters.set place (if b.frame.widthOf old < b.frame.widthOf id then id else old)) := by
  have hplace := (hslots o place).1 hget
  obtain ⟨old', hold', hnamed⟩ := exists_right_of_getElem? h.parameters hplace
  rw [hold] at hold'
  obtain rfl := Option.some.inj hold'
  have hwidest := ((hslot.names _ _ _ _).1 hnamed).append id
  rw [← offered_append_offer hoffer, ← hslot.names] at hwidest
  refine forall₂_set h.parameters (fun e he => ?_) fun k e n hk he hn => ?_
  · rw [← Option.some.inj (hplace.symm.trans he)]
    exact hwidest
  · -- the slot stands nowhere else
    refine h.keep_other hoffer (fun heq => hk ?_) hn
    rw [heq] at he
    exact Option.some.inj (((hslots o k).2 he).symm.trans hget)

/-- Offering an identifier for a slot, and what the table of its stack says after it. -/
theorem Tracks.offer (h : Tracks a log b) (hslot : IsStack a slot)
    (hslots : Places slots slot (outline log).entries)
    (hoffer : ∀ e, x.1.offer? e = if e = slot o then some id else none) :
    List.Forall₂ (Names a b.frame (log ++ [x])) ((outline log).share (slot o)).entries
        (offer b.frame b.parameters slots o id).1 ∧
      Places (offer b.frame b.parameters slots o id).2 slot
        ((outline log).share (slot o)).entries := by
  rw [Outline.entries_share]
  unfold Builder.offer
  cases hget : slots.get? o with
  | none =>
    have hnew : slot o ∉ (outline log).entries := by
      rw [hslots.mem_iff, hget]
      simp
    rw [if_neg hnew, ← h.parameters.length_eq]
    exact ⟨h.offer_new hslot hoffer hnew, hslots.append_slot hslot.injective hget⟩
  | some place =>
    have hplace := (hslots o place).1 hget
    rw [if_pos (List.mem_of_getElem? hplace)]
    obtain ⟨old, hold, -⟩ := exists_right_of_getElem? h.parameters hplace
    have hset := h.offer_taken hslot hslots hoffer hget hold
    simp only [hold]
    split
    · next hlt =>
      rw [if_pos hlt] at hset
      exact ⟨hset, hslots⟩
    · next hlt =>
      obtain ⟨hlt', rfl⟩ := List.getElem?_eq_some_iff.1 hold
      rw [if_neg hlt, List.set_getElem_self hlt'] at hset
      exact ⟨hset, hslots⟩

end

/-! ## One addition -/

section
variable {y : Addition} {before : List IdentifierId}

theorem exists_of_allowed_argument (h : y.allowed f before = true) (hid : y.argument? = some id) :
    ∃ i, f.identifier? id = some i ∧ i.storage.isOutArgument = false := by
  cases y with
  | stackArgument offset other | fpuArgument depth other | plain other =>
    obtain rfl := Option.some.inj hid
    rw [Addition.allowed] at h
    cases hi : f.identifier? other with
    | none =>
      rw [hi] at h
      cases h
    | some i =>
      rw [hi] at h
      exact ⟨i, rfl, by simpa using h⟩
  | register | result | frame => cases hid

theorem exists_of_allowed_named (h : y.allowed f before = true) (hid : id ∈ y.named) :
    ∃ i, f.identifier? id = some i := by
  cases y with
  | stackArgument offset other | fpuArgument depth other | plain other =>
    rw [List.mem_singleton.1 hid]
    obtain ⟨i, hi, -⟩ := exists_of_allowed_argument h rfl
    exact ⟨i, hi⟩
  | result other =>
    rw [List.mem_singleton.1 hid]
    exact Option.isSome_iff_exists.1 h
  | register | frame => cases hid

theorem not_mem_of_allowed_frame {op : FrameOperation}
    (h : (Addition.frame op).allowed f before = true) :
    ∀ id t, op = .setDataType id t → id ∉ before := by
  rintro id t rfl
  simpa [Addition.allowed] using h

end

/-- What every addition has to show: that the numbers listed, and the tables, are as the log
says that is longer by it. -/
theorem Tracks.add (h : Tracks a log b)
    (hallowed : x.1.allowed b.frame (named log) = true) (hanswer : Answered a log x)
    (harchitecture : c.architecture = b.architecture)
    (hframe : Frame.Steady (named (log ++ [x])) b.frame c.frame)
    (hregisters : c.registers = accepted (log ++ [x]))
    (hreturn : c.returnValue = ((outline log).note x).returned)
    (hparameters : List.Forall₂ (Names a c.frame (log ++ [x])) ((outline log).note x).entries
      c.parameters)
    (hstack : Places c.stackSlots .stackSlot ((outline log).note x).entries)
    (hfpu : Places c.fpuSlots .fpuSlot ((outline log).note x).entries) :
    Tracks a (log ++ [x]) c := by
  rw [← outline_append] at hreturn hparameters hstack hfpu
  have hknown : ∀ id ∈ named (log ++ [x]), ∃ i, b.frame.identifier? id = some i := by
    intro id hid
    rw [named_append, List.mem_append] at hid
    cases hid with
    | inl hid => exact h.known id hid
    | inr hid => exact exists_of_allowed_named hallowed hid
  refine ⟨harchitecture.trans h.architecture, hframe.distinct h.distinct, hregisters, hreturn,
    hparameters, hstack, hfpu, fun id hid => ?_, fun id hid => ?_, fun before y hy => ?_⟩
  · obtain ⟨i, hi⟩ := hknown id hid
    exact ⟨i, hframe.same id hid i hi⟩
  · obtain ⟨i, hi, hout⟩ : ∃ i, b.frame.identifier? id = some i ∧
        i.storage.isOutArgument = false := by
      have hid := hid
      rw [arguments_append, List.mem_append, Option.mem_toList] at hid
      cases hid with
      | inl hid => exact h.arguments id hid
      | inr hid => exact exists_of_allowed_argument hallowed hid
    exact ⟨i, hframe.same id (mem_named_of_mem_arguments hid) i hi, hout⟩
  · rw [List.prefix_concat_iff] at hy
    cases hy with
    | inl hlast =>
      obtain ⟨rfl, hxy⟩ := List.append_inj' hlast rfl
      rw [List.singleton_inj.1 hxy]
      exact hanswer
    | inr hearlier => exact h.answers before y hearlier

theorem Tracks.grow_parameters (h : Tracks a log b)
    (hframe : Frame.Steady (named (log ++ [x])) b.frame g) (hoffer : ∀ e, x.1.offer? e = none) :
    List.Forall₂ (Names a g (log ++ [x])) (outline log).entries b.parameters :=
  h.parameters.imp fun e _ hn => hn.grow hframe h.known (hoffer e)

theorem Tracks.skip (h : Tracks a log b) (hallowed : x.1.allowed b.frame (named log) = true)
    (hanswer : Answered a log x) (hframe : Frame.Steady (named (log ++ [x])) b.frame g)
    (hoffer : ∀ e, x.1.offer? e = none) (haccepted : accepted (log ++ [x]) = accepted log)
    (hnote : (outline log).note x = outline log) :
    Tracks a (log ++ [x]) { b with frame := g } := by
  refine h.add hallowed hanswer rfl hframe ?_ ?_ ?_ ?_ ?_
  · rw [haccepted]
    exact h.registers
  · rw [hnote]
    exact h.returnValue
  · rw [hnote]
    exact h.grow_parameters hframe hoffer
  · rw [hnote]
    exact h.stackSlots
  · rw [hnote]
    exact h.fpuSlots

theorem tracks_addRegister (h : Tracks a log b) (index : Nat) :
    Tracks a (log ++ [(.register index, (b.addRegister index).1)]) (b.addRegister index).2 := by
  have hrefused : Answered a log (.register index, false) →
      Tracks a (log ++ [(.register index, false)]) b := fun hanswer =>
    h.skip rfl hanswer (.refl _ _) (fun _ => rfl) (by simp) rfl
  unfold addRegister
  cases hr : b.architecture.register? index with
  | none =>
    apply hrefused
    rw [h.architecture] at hr
    simp [Answered, hr]
  | some r =>
    dsimp only
    split
    · next hcovered =>
      apply hrefused
      rw [h.architecture, h.registers] at hcovered
      constructor
      · intro htaken
        cases htaken
      · rintro ⟨-, hnew, hapart⟩
        rw [hapart, Bool.false_or, List.contains_iff_mem] at hcovered
        exact absurd hcovered hnew
    · next hfree =>
      rw [h.architecture, h.registers] at hfree
      rw [h.architecture] at hr
      have hanswer : Answered a log (.register index, true) := by
        refine iff_of_true rfl ⟨by simp [hr], ?_, ?_⟩
        · intro hmem
          exact hfree (by simp [hmem])
        · exact Bool.eq_false_iff.2 fun hpart => hfree (by simp [hpart])
      let i : Identifier := ⟨r.name, .word r.bitSize, r.storage⟩
      have hframe := Frame.Steady.ensure (named (log ++ [(.register index, true)])) b.frame i
      refine h.add rfl hanswer rfl hframe ?_ h.returnValue ?_
        (h.stackSlots.append_other fun _ => Entry.noConfusion)
        (h.fpuSlots.append_other fun _ => Entry.noConfusion)
      · rw [accepted_append, ← h.registers]
        rfl
      · refine List.rel_append (h.grow_parameters hframe fun _ => rfl) (.cons ?_ .nil)
        exact ⟨r, hr, Frame.holds_ensure b.frame i⟩

theorem tracks_addPlain (h : Tracks a log b)
    (hallowed : (Addition.plain id).allowed b.frame (named log) = true) :
    Tracks a (log ++ [(.plain id, true)]) (b.addPlain id) := by
  have hframe := Frame.Steady.refl (named (log ++ [(.plain id, true)])) b.frame
  refine h.add hallowed rfl rfl hframe ?_ h.returnValue ?_
    (h.stackSlots.append_other fun _ => Entry.noConfusion)
    (h.fpuSlots.append_other fun _ => Entry.noConfusion)
  · rw [accepted_append]
    exact h.registers.trans (List.append_nil _).symm
  · refine List.rel_append (h.grow_parameters hframe fun _ => rfl) (.cons ⟨rfl, ?_⟩ .nil)
    rw [arguments_append]
    exact List.mem_append_right _ (List.mem_singleton_self _)

theorem tracks_addStackArgument (h : Tracks a log b) {offset : Int32}
    (hallowed : (Addition.stackArgument offset id).allowed b.frame (named log) = true) :
    Tracks a (log ++ [(.stackArgument offset id, true)]) (b.addStackArgument offset id) := by
  obtain ⟨hparameters, hslots⟩ := h.offer (x := (.stackArgument offset id, true))
    (isStack_stackSlot a) h.stackSlots fun _ => rfl
  refine h.add hallowed rfl rfl (.refl _ b.frame) ?_ ?_ hparameters hslots ?_
  · rw [accepted_append]
    exact h.registers.trans (List.append_nil _).symm
  · exact h.returnValue.trans (Outline.returned_share _ _).symm
  · show Places b.fpuSlots .fpuSlot ((outline log).share (.stackSlot offset)).entries
    rw [Outline.entries_share]
    exact h.fpuSlots.share_other fun _ => Entry.noConfusion

theorem tracks_addFpuArgument (h : Tracks a log b) {depth : Int32}
    (hallowed : (Addition.fpuArgument depth id).allowed b.frame (named log) = true) :
    Tracks a (log ++ [(.fpuArgument depth id, true)]) (b.addFpuArgument depth id) := by
  obtain ⟨hparameters, hslots⟩ := h.offer (x := (.fpuArgument depth id, true))
    (isStack_fpuSlot a) h.fpuSlots fun _ => rfl
  refine h.add hallowed rfl rfl (.refl _ b.frame) ?_ ?_ hparameters ?_ hslots
  · rw [accepted_append]
    exact h.registers.trans (List.append_nil _).symm
  · exact h.returnValue.trans (Outline.returned_share _ _).symm
  · show Places b.stackSlots .stackSlot ((outline log).share (.fpuSlot depth)).entries
    rw [Outline.entries_share]
    exact h.stackSlots.share_other fun _ => Entry.noConfusion

theorem tracks_frame (h : Tracks a log b) {op : FrameOperation}
    (hallowed : (Addition.frame op).allowed b.frame (named log) = true) :
    Tracks a (log ++ [(.frame op, true)]) { b with frame := (op.run b.frame).2 } := by
  refine h.skip hallowed rfl (.run ?_) (fun _ => rfl) (by simp) rfl
  rw [named_append, Addition.named, List.append_nil]
  exact not_mem_of_allowed_frame hallowed

theorem eq_of_outStorage_eq {i j : Identifier} (h : i.outStorage = j.outStorage) : i = j := by
  have hreferent := congrArg Storage.referent? h
  rw [Storage.referent?_outStorage, Storage.referent?_outStorage] at hreferent
  exact Option.some.inj hreferent

theorem eq_of_holds {t : Storage} {id' : IdentifierId} (hd : f.Distinct) (h : f.Holds id t)
    (h' : f.Holds id' t) : id = id' := by
  have hfound := (Frame.find?_eq_some_iff hd).2 h
  rw [(Frame.find?_eq_some_iff hd).2 h'] at hfound
  exact (Option.some.inj hfound).symm

theorem Names.eq_result {i : Identifier} {out : IdentifierId} (h : Names a f log e out)
    (hd : f.Distinct)
    (harguments : ∀ id ∈ arguments log, ∃ i, f.identifier? id = some i ∧
      i.storage.isOutArgument = false)
    (hi : f.identifier? id = some i) (hout : f.Holds out i.outStorage) : e = .result id := by
  have hargument : out ∉ arguments log := by
    intro hmem
    obtain ⟨j, hj, hno⟩ := harguments out hmem
    rw [Option.some.inj ((Frame.holds_of_identifier? hj).symm.trans hout)] at hno
    cases hno
  cases e with
  | register index =>
    obtain ⟨r, -, hr⟩ := h
    exact Storage.noConfusion (Option.some.inj (hr.symm.trans hout))
  | stackSlot | fpuSlot =>
    exact absurd (mem_arguments_of_mem_offered (Frame.FirstWidest.mem h)) hargument
  | plain other =>
    obtain ⟨rfl, hmem⟩ := h
    exact absurd hmem hargument
  | result other =>
    obtain ⟨-, j, hj, hholds⟩ := h
    have heq := eq_of_outStorage_eq (Option.some.inj (hholds.symm.trans hout))
    rw [heq] at hj
    rw [eq_of_holds hd (Frame.holds_of_identifier? hj) (Frame.holds_of_identifier? hi)]

theorem mem_iff_mem_entries {entries : List Entry} {ids : List IdentifierId} {i : Identifier}
    {out : IdentifierId} (h : List.Forall₂ (Names a f log) entries ids) (hd : f.Distinct)
    (harguments : ∀ id ∈ arguments log, ∃ i, f.identifier? id = some i ∧
      i.storage.isOutArgument = false)
    (hi : f.identifier? id = some i) (hout : f.Holds out i.outStorage) :
    out ∈ ids ↔ .result id ∈ entries := by
  constructor
  · intro hmem
    obtain ⟨e, he, hnamed⟩ := exists_left_of_mem h hmem
    rwa [← hnamed.eq_result hd harguments hi hout]
  · intro hmem
    obtain ⟨n, hn, -, j, hj, hholds⟩ := exists_right_of_mem h hmem
    rw [hi] at hj
    obtain rfl := Option.some.inj hj
    rwa [eq_of_holds hd hout hholds]

theorem Tracks.listed_result (h : Tracks a log b) {i out : Identifier}
    (hi : b.frame.identifier? id = some i) (hstorage : out.storage = i.outStorage) :
    List.Forall₂ (Names a (b.frame.ensure out).2 (log ++ [(.result id, true)]))
      ((outline log).share (.result id)).entries
      (if b.parameters.contains (b.frame.ensure out).1 then b.parameters
        else b.parameters ++ [(b.frame.ensure out).1]) := by
  have hext := Frame.Extends.ensure b.frame out
  have hout := Frame.holds_ensure b.frame out
  rw [hstorage] at hout
  have hgrown := h.grow_parameters (x := (.result id, true))
    (Frame.Steady.ensure (named (log ++ [(.result id, true)])) b.frame out) fun _ => rfl
  have harguments : ∀ other ∈ Builder.arguments (log ++ [(.result id, true)]), ∃ j,
      (b.frame.ensure out).2.identifier? other = some j ∧ j.storage.isOutArgument = false := by
    intro other hother
    rw [arguments_append, Addition.argument?, Option.toList_none, List.append_nil] at hother
    obtain ⟨j, hj, hno⟩ := h.arguments other hother
    exact ⟨j, hext.identifier? hj, hno⟩
  have hmem := mem_iff_mem_entries hgrown (h.distinct.ensure out) harguments
    (hext.identifier? hi) hout
  rw [Outline.entries_share]
  by_cases hlisted : .result id ∈ (outline log).entries
  · rw [if_pos hlisted, if_pos (List.contains_iff_mem.2 (hmem.2 hlisted))]
    exact hgrown
  · rw [if_neg hlisted,
      if_neg fun hcontains => hlisted (hmem.1 (List.contains_iff_mem.1 hcontains))]
    refine List.rel_append hgrown (.cons ⟨?_, i, hext.identifier? hi, hout⟩ .nil)
    rw [named_append]
    exact List.mem_append_right _ (List.mem_singleton_self _)

theorem exists_tracks_addResult (h : Tracks a log b)
    (hallowed : (Addition.result id).allowed b.frame (named log) = true) :
    ∃ c, b.addResult id = .ok c ∧ Tracks a (log ++ [(.result id, true)]) c := by
  have hregisters : b.registers = accepted (log ++ [(.result id, true)]) := by
    rw [accepted_append]
    exact h.registers.trans (List.append_nil _).symm
  unfold addResult
  split
  · next hreturn =>
    -- the first result is returned, and nothing is listed for it
    have hnote : (outline log).note (.result id, true) =
        { outline log with returned := some id } := by
      rw [Outline.note, ← h.returnValue, hreturn]
    have hframe := Frame.Steady.refl (named (log ++ [(.result id, true)])) b.frame
    refine ⟨_, rfl, h.add hallowed rfl rfl hframe hregisters ?_ ?_ ?_ ?_⟩
    · rw [hnote]
    · rw [hnote]
      exact h.grow_parameters hframe fun _ => rfl
    · rw [hnote]
      exact h.stackSlots
    · rw [hnote]
      exact h.fpuSlots
  · next first hreturn =>
    obtain ⟨i, hi⟩ := Option.isSome_iff_exists.1 hallowed
    let out : Identifier :=
      ⟨Frame.outName i.name, .pointer i.dataType b.architecture.pointerBitSize, i.outStorage⟩
    let outId := (b.frame.ensure out).1
    let listed := if b.parameters.contains outId then b.parameters else b.parameters ++ [outId]
    have hnote : (outline log).note (.result id, true) = (outline log).share (.result id) := by
      rw [Outline.note, ← h.returnValue, hreturn]
    have hframe := Frame.Steady.ensure (named (log ++ [(.result id, true)])) b.frame out
    have hlisted : List.Forall₂ _ _ listed := h.listed_result hi (rfl : out.storage = i.outStorage)
    rw [Frame.ensureOutArgument, Frame.get_eq_ok hi]
    refine ⟨{ b with frame := (b.frame.ensure out).2, parameters := listed }, rfl,
      h.add hallowed rfl rfl hframe hregisters ?_ ?_ ?_ ?_⟩
    · rw [hnote, Outline.returned_share]
      exact h.returnValue
    · rw [hnote]
      exact hlisted
    · rw [hnote, Outline.entries_share]
      exact h.stackSlots.share_other fun _ => Entry.noConfusion
    · rw [hnote, Outline.entries_share]
      exact h.fpuSlots.share_other fun _ => Entry.noConfusion

/-- Whatever may be asked of a builder, it does, and keeps track of it. -/
theorem exists_tracks_add (h : Tracks a log b) {y : Addition}
    (hallowed : y.allowed b.frame (named log) = true) :
    ∃ taken c, b.add y = .ok (taken, c) ∧ Tracks a (log ++ [(y, taken)]) c := by
  cases y with
  | register index => exact ⟨_, _, rfl, tracks_addRegister h index⟩
  | stackArgument offset id => exact ⟨_, _, rfl, tracks_addStackArgument h hallowed⟩
  | fpuArgument depth id => exact ⟨_, _, rfl, tracks_addFpuArgument h hallowed⟩
  | plain id => exact ⟨_, _, rfl, tracks_addPlain h hallowed⟩
  | result id =>
    obtain ⟨c, hc, htracks⟩ := exists_tracks_addResult h hallowed
    refine ⟨true, c, ?_, htracks⟩
    rw [add, hc]
    rfl
  | frame op => exact ⟨_, _, rfl, tracks_frame h hallowed⟩

theorem exists_tracks_addAll (ys : List Addition) : ∀ {log : Log} {b : Builder},
    Tracks a log b → b.permits (named log) ys = true →
      ∃ answers c, b.addAll ys = .ok (answers, c) ∧ answers.length = ys.length ∧
        Tracks a (log ++ ys.zip answers) c := by
  induction ys with
  | nil =>
    intro log b h _
    refine ⟨[], b, rfl, rfl, ?_⟩
    rw [List.zip_nil_left, List.append_nil]
    exact h
  | cons y ys ih =>
    intro log b h hpermits
    rw [permits, Bool.and_eq_true] at hpermits
    obtain ⟨taken, c, hadd, htracks⟩ := exists_tracks_add h hpermits.1
    have hrest : c.permits (named (log ++ [(y, taken)])) ys = true := by
      have hrest := hpermits.2
      rw [hadd] at hrest
      rw [named_append]
      exact hrest
    obtain ⟨answers, d, hrun, hlength, htracks⟩ := ih htracks hrest
    refine ⟨taken :: answers, d, ?_, by simp [hlength], ?_⟩
    · rw [addAll, hadd]
      show (c.addAll ys >>= fun t => pure (taken :: t.1, t.2)) = _
      rw [hrun]
      rfl
    · rw [List.zip_cons_cons, List.append_cons]
      exact htracks

end Signature.Builder
end Recovery
