import Recovery.Architecture.X86
import Recovery.Proofs.Signature.Tracking
/-
  What a builder builds, whatever was asked of it.

  `Meets` is what a signature has to be for a log of what was asked for. A builder that tracks
  the log builds one: the numbers that it lists can be read, and a later result has one
  parameter, because nothing else that is listed can live in its place (`Names.eq_result`).
-/

namespace Recovery.Signature.Builder
variable {a : Architecture} {log : Log} {b : Builder} {e : Entry} {id : IdentifierId}

theorem Tracks.exists_standsFor (h : Tracks a log b) (hnames : Names a b.frame log e id) :
    ∃ y, b.frame.identifier? id = some y ∧ StandsFor a b.frame log e y := by
  have hbinds {t : Storage} {y : Identifier} (ht : b.frame.Holds id t)
      (hy : b.frame.identifier? id = some y) : b.frame.Binds t y :=
    ⟨id, (Frame.find?_eq_some_iff h.distinct).2 ht, hy⟩
  have hoffered {e : Entry} (hwidest : b.frame.FirstWidest (offered log e) id) :
      ∃ y, b.frame.identifier? id = some y := by
    obtain ⟨y, hy, -⟩ := h.arguments id (mem_arguments_of_mem_offered hwidest.mem)
    exact ⟨y, hy⟩
  cases e with
  | register index =>
    obtain ⟨r, hr, hholds⟩ := hnames
    obtain ⟨y, hy⟩ := hholds.exists_identifier
    exact ⟨y, hy, r, hr, hbinds hholds hy⟩
  | stackSlot offset =>
    obtain ⟨y, hy⟩ := hoffered hnames
    exact ⟨y, hy, id, hnames, hy⟩
  | fpuSlot depth =>
    obtain ⟨y, hy⟩ := hoffered hnames
    exact ⟨y, hy, id, hnames, hy⟩
  | plain other =>
    obtain ⟨rfl, hmem⟩ := hnames
    obtain ⟨y, hy, -⟩ := h.arguments id hmem
    exact ⟨y, hy, hy⟩
  | result other =>
    obtain ⟨-, i, hi, hholds⟩ := hnames
    obtain ⟨y, hy⟩ := hholds.exists_identifier
    exact ⟨y, hy, i, hi, hbinds hholds hy⟩

theorem countP_eq_count {R : Entry → Identifier → Prop} {p : Identifier → Bool}
    {entries : List Entry} {ys : List Identifier} {e : Entry} (h : List.Forall₂ R entries ys)
    (hp : ∀ e' y, R e' y → (p y = true ↔ e' = e)) : ys.countP p = entries.count e := by
  induction h with
  | nil => rfl
  | @cons e' y _ _ hR _ ih =>
    rw [List.countP_cons, List.count_cons, ih]
    by_cases he : e' = e
    · simp [he, (hp e' y hR).2 he]
    · simp [he, (hp e' y hR)]

/-- Whether a signature over a frame is right for what was asked for. By `entries` every
parameter stands for what it should, in the order of the outline; by `order` an entry is
where it was when it was first asked for, and by `times` it is there as often as it should
be. -/
structure Meets (a : Architecture) (f : Frame) (log : Log) (s : Signature) : Prop where
  valid : s.valid = true
  answers : ∀ before x, before ++ [x] <+: log → Answered a before x
  accepted : (accepted log).Pairwise fun i j => i ≠ j ∧ ∀ r r', a.register? i = some r →
    a.register? j = some r' → a.isPartOf r' r = false
  returnValue : Option.Rel (fun id x => f.identifier? id = some x) (results log).head?
    s.returnValue
  entries : List.Forall₂ (StandsFor a f log) (outline log).entries s.parameters
  order : ∀ before, before <+: log → (outline before).entries <+: (outline log).entries
  times : ∀ e, (outline log).entries.count e = times log e
  handedBack : ∀ id ∈ (results log).tail, ∃ i, f.identifier? id = some i ∧
    s.parameters.countP (fun x => x.storage = i.outStorage) = 1

theorem Tracks.exists_parameters (h : Tracks a log b) :
    ∃ xs, b.parameters.mapM b.frame.get = .ok xs ∧
      List.Forall₂ (fun e x => ∃ id, Names a b.frame log e id ∧ b.frame.identifier? id = some x)
        (outline log).entries xs := by
  obtain ⟨xs, hxs, hread⟩ := exists_mapM_ok (f := b.frame.get)
    (R := fun id x => b.frame.identifier? id = some x) b.parameters fun id hid => by
      obtain ⟨e, -, hnames⟩ := exists_left_of_mem h.parameters hid
      obtain ⟨y, hy, -⟩ := h.exists_standsFor hnames
      exact ⟨y, Frame.get_eq_ok hy, hy⟩
  refine ⟨xs, hxs, forall₂_of_common h.parameters.flip hread ?_⟩
  intro id e x hnames hx
  exact ⟨id, hnames, hx⟩

theorem Tracks.exists_returnValue (h : Tracks a log b) :
    ∃ y, Option.Rel (fun id x => b.frame.identifier? id = some x) b.returnValue y := by
  cases hreturn : b.returnValue with
  | none => exact ⟨none, .none⟩
  | some id =>
    have hfirst : (results log).head? = some id := by
      rw [← returned_outline, ← h.returnValue, hreturn]
    obtain ⟨x, hx⟩ := h.known id (mem_named_of_mem_results (List.mem_of_mem_head? hfirst))
    exact ⟨some x, .some hx⟩

theorem build_eq_ok {y : Option Identifier} {xs : List Identifier}
    (hy : Option.Rel (fun id x => b.frame.identifier? id = some x) b.returnValue y)
    (hxs : b.parameters.mapM b.frame.get = .ok xs) :
    b.build = .ok { determined y xs with
      fpuStackDelta := b.fpuStackDelta
      fpuOutMax := b.fpuOutMax } := by
  unfold build
  rw [hxs]
  cases hreturn : b.returnValue with
  | none =>
    rw [hreturn] at hy
    cases hy
    rfl
  | some id =>
    rw [hreturn] at hy
    cases hy with
    | some hx =>
      simp only [Frame.get_eq_ok hx]
      rfl

/-- A result after the first is handed back by one parameter. -/
theorem Tracks.handedBack (h : Tracks a log b) {xs : List Identifier}
    (hxs : List.Forall₂
      (fun e x => ∃ id, Names a b.frame log e id ∧ b.frame.identifier? id = some x)
      (outline log).entries xs) (hid : id ∈ (results log).tail) :
    ∃ i, b.frame.identifier? id = some i ∧
      xs.countP (fun x => x.storage = i.outStorage) = 1 := by
  obtain ⟨i, hi⟩ := h.known id (mem_named_of_mem_results (List.mem_of_mem_tail hid))
  refine ⟨i, hi, ?_⟩
  have hcount : xs.countP (fun x => x.storage = i.outStorage) =
      (outline log).entries.count (.result id) := by
    refine countP_eq_count hxs ?_
    rintro e x ⟨out, hnames, hx⟩
    rw [decide_eq_true_eq]
    constructor
    · intro hstorage
      have hout := Frame.holds_of_identifier? hx
      rw [hstorage] at hout
      exact hnames.eq_result h.distinct h.arguments hi hout
    · rintro rfl
      obtain ⟨-, j, hj, hout⟩ := hnames
      rw [hi] at hj
      rw [← Option.some.inj hj] at hout
      exact Option.some.inj ((Frame.holds_of_identifier? hx).symm.trans hout)
  have hgiven := List.count_pos_iff.2 hid
  rw [hcount, count_outline]
  show min 1 ((results log).tail.count id) = 1
  omega

/-- The signature of a builder that keeps track of a log is right for it. -/
theorem Tracks.exists_build (h : Tracks a log b) :
    ∃ s, b.build = .ok s ∧ Meets a b.frame log s := by
  obtain ⟨y, hy⟩ := h.exists_returnValue
  obtain ⟨xs, hxs, hread⟩ := h.exists_parameters
  have hreturn := hy
  rw [h.returnValue, returned_outline] at hreturn
  refine ⟨_, build_eq_ok hy hxs, rfl, h.answers, pairwise_accepted h.answers, hreturn,
    hread.imp ?_, fun _ hbefore => entries_prefix_outline log hbefore, count_outline log,
    fun id hid => h.handedBack hread hid⟩
  rintro e x ⟨id, hnames, hx⟩
  obtain ⟨x', hx', hstands⟩ := h.exists_standsFor hnames
  rw [hx] at hx'
  rw [Option.some.inj hx']
  exact hstands

/-- Whatever may be asked of a builder, in any order, it does, and the signature it builds is
right for what was asked for and how it answered. -/
theorem exists_addAll_meets (a : Architecture) {f : Frame} (hf : f.Built)
    (fpuStackDelta fpuOutMax : Int32) (ys : List Addition)
    (hpermits : (start a f fpuStackDelta fpuOutMax).permits [] ys = true) :
    ∃ answers b s, (start a f fpuStackDelta fpuOutMax).addAll ys = .ok (answers, b) ∧
      answers.length = ys.length ∧ b.build = .ok s ∧ Meets a b.frame (ys.zip answers) s := by
  have hstart := tracks_start a hf.distinct fpuStackDelta fpuOutMax
  obtain ⟨answers, b, hrun, hlength, htracks⟩ := exists_tracks_addAll ys hstart hpermits
  obtain ⟨s, hs, hmeets⟩ := htracks.exists_build
  exact ⟨answers, b, s, hrun, hlength, hs, hmeets⟩

/-- A frame with two words at one offset of the stack, the narrow one first, a word at
another offset, a slot of the floating point stack and two registers. -/
def slotted : Frame :=
  (Frame.empty 4).after
    [.ensure (.stackArgument 4 (.word 16)), .ensure (.stackArgument 4 (.word 32)),
      .ensure (.stackArgument 8 (.word 32)), .ensure (.fpuSlot 0 (.word 64)),
      .ensure (.identifier ⟨"eax", .word 32, .register 0 32⟩),
      .ensure (.identifier ⟨"edx", .word 32, .register 2 32⟩)]

/-- Additions of every kind in a mixed order. -/
def mixed : List Addition :=
  [.register 0, .register 16, .stackArgument 0 0, .result 4, .plain 2, .stackArgument 0 1,
    .frame (.ensure (.stackLocal (-4) (.word 32))), .fpuArgument 0 3, .result 5,
    .stackArgument 0 0, .register 1, .result 5, .register 0]

/-- A part of a register is refused, the wider word takes the place of the narrow one, and the
second result is handed back once. -/
theorem exists_addAll_meets_mixed :
    slotted.Built ∧ (start X86.architecture slotted 0 (-1)).permits [] mixed = true ∧
      ∃ answers b s, (start X86.architecture slotted 0 (-1)).addAll mixed = .ok (answers, b) ∧
        b.build = .ok s ∧ Meets X86.architecture b.frame (mixed.zip answers) s ∧
        answers = [true, false, true, true, true, true, true, true, true, true, true, true,
          false] ∧
        s.returnValue.map Identifier.name = some "eax" ∧
        s.parameters.map Identifier.name =
          ["eax", "dwArg04", "dwArg08", "rArg0", "edxOut", "ecx"] := by
  have hbuilt : slotted.Built := (Frame.Built.empty 4).after _
  have hpermits : (start X86.architecture slotted 0 (-1)).permits [] mixed = true := by
    decide +kernel
  obtain ⟨answers, b, s, hrun, -, hs, hmeets⟩ :=
    exists_addAll_meets X86.architecture hbuilt 0 (-1) mixed hpermits
  have hresult : ((start X86.architecture slotted 0 (-1)).addAll mixed).toOption.map (fun t =>
      (t.1, t.2.build.toOption.map fun s =>
        (s.returnValue.map Identifier.name, s.parameters.map Identifier.name))) =
      some ([true, false, true, true, true, true, true, true, true, true, true, true, false],
        some (some "eax", ["eax", "dwArg04", "dwArg08", "rArg0", "edxOut", "ecx"])) := by
    decide +kernel
  rw [hrun] at hresult
  obtain ⟨hanswers, hbuild⟩ := Prod.mk.inj (Option.some.inj hresult)
  simp only [hs] at hbuild
  obtain ⟨hreturn, hparameters⟩ := Prod.mk.inj (Option.some.inj hbuild)
  exact ⟨hbuilt, hpermits, answers, b, s, hrun, hs, hmeets, hanswers, hreturn, hparameters⟩

end Recovery.Signature.Builder
