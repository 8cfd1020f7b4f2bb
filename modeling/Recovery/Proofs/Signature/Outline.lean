import Mathlib.Data.List.Induction
import Recovery.Signature.Additions
/-
  What a signature should list, read off what was asked of its builder.

  A `Log` is what was asked for, each with its answer. `outline` says what the parameters
  should stand for and in which order: what is new is listed at the end, and what is listed
  stays where it is (`entries_prefix_outline`). `times` says how often each of them should be
  there, without regard to the order of the log, and `count_outline` that the outline lists
  everything as often as that. `StandsFor` says which identifier of a frame a parameter should
  be, and `Answered` when a register should be taken.
-/

namespace Recovery
namespace Frame

/-- Whether an identifier is the first of the widest among some. -/
def FirstWidest (f : Frame) (ids : List IdentifierId) (id : IdentifierId) : Prop :=
  ∃ before after, ids = before ++ id :: after ∧
    (∀ other ∈ before, f.widthOf other < f.widthOf id) ∧
    ∀ other ∈ after, f.widthOf other ≤ f.widthOf id

def Binds (f : Frame) (s : Storage) (x : Identifier) : Prop :=
  ∃ id, f.find? s = some id ∧ f.identifier? id = some x

end Frame

namespace Signature.Builder

/-! ## What was asked for -/

/-- What was asked of a builder, with its answers, in order. -/
abbrev Log := List (Addition × Bool)

/-- What a parameter stands for: a register, an offset on the stack, a depth of the
floating point stack, an argument as it was given, or a result handed back. -/
inductive Entry where
  | register (index : Nat)
  | stackSlot (offset : Int32)
  | fpuSlot (depth : Int32)
  | plain (id : IdentifierId)
  | result (id : IdentifierId)
  deriving DecidableEq, Repr

namespace Addition

@[simp] def argument? : Addition → Option IdentifierId
  | .stackArgument _ id | .fpuArgument _ id | .plain id => some id
  | .register _ | .result _ | .frame _ => none

@[simp] def offer? (e : Entry) : Addition → Option IdentifierId
  | .stackArgument offset id => if e = .stackSlot offset then some id else none
  | .fpuArgument depth id => if e = .fpuSlot depth then some id else none
  | .register _ | .plain _ | .result _ | .frame _ => none

@[simp] def plain? : Addition → Option IdentifierId
  | .plain id => some id
  | .register _ | .stackArgument .. | .fpuArgument .. | .result _ | .frame _ => none

@[simp] def result? : Addition → Option IdentifierId
  | .result id => some id
  | .register _ | .stackArgument .. | .fpuArgument .. | .plain _ | .frame _ => none

@[simp] def register? : Addition → Option Nat
  | .register index => some index
  | .stackArgument .. | .fpuArgument .. | .plain _ | .result _ | .frame _ => none

end Addition

def accepted (log : Log) : List Nat :=
  log.filterMap fun x => if x.2 then x.1.register? else none

def arguments (log : Log) : List IdentifierId := log.filterMap fun x => x.1.argument?

def offered (log : Log) (e : Entry) : List IdentifierId := log.filterMap fun x => x.1.offer? e

def plains (log : Log) : List IdentifierId := log.filterMap fun x => x.1.plain?

def results (log : Log) : List IdentifierId := log.filterMap fun x => x.1.result?

def named (log : Log) : List IdentifierId := log.flatMap fun x => x.1.named

/-- What a signature lists: the first result, and what its parameters stand for. -/
structure Outline where
  returned : Option IdentifierId
  entries : List Entry

namespace Outline

def append (o : Outline) (e : Entry) : Outline := { o with entries := o.entries ++ [e] }

def share (o : Outline) (e : Entry) : Outline := if e ∈ o.entries then o else o.append e

/-- What is listed after one more addition: a register that is taken and a plain argument
each time, a slot and a result that is handed back the first time. -/
def note (o : Outline) : Addition × Bool → Outline
  | (.register index, taken) => if taken then o.append (.register index) else o
  | (.stackArgument offset _, _) => o.share (.stackSlot offset)
  | (.fpuArgument depth _, _) => o.share (.fpuSlot depth)
  | (.plain id, _) => o.append (.plain id)
  | (.result id, _) =>
    match o.returned with
    | none => { o with returned := some id }
    | some _ => o.share (.result id)
  | (.frame _, _) => o

end Outline

/-- What a signature lists after everything that was asked for. -/
def outline (log : Log) : Outline := log.foldl Outline.note ⟨none, []⟩

/-- How often something is listed: a register each time that it was taken, a plain argument
each time that it was given, and a slot or a later result once if it was asked for at all. -/
def times (log : Log) : Entry → Nat
  | .register index => (accepted log).count index
  | .stackSlot offset => min 1 (offered log (.stackSlot offset)).length
  | .fpuSlot depth => min 1 (offered log (.fpuSlot depth)).length
  | .plain id => (plains log).count id
  | .result id => min 1 ((results log).tail.count id)

/-- Whether a parameter is the one for what it stands for. -/
def StandsFor (a : Architecture) (f : Frame) (log : Log) : Entry → Identifier → Prop
  | .register index, x => ∃ r, a.register? index = some r ∧ f.Binds r.storage x
  | .stackSlot offset, x =>
    ∃ id, f.FirstWidest (offered log (.stackSlot offset)) id ∧ f.identifier? id = some x
  | .fpuSlot depth, x =>
    ∃ id, f.FirstWidest (offered log (.fpuSlot depth)) id ∧ f.identifier? id = some x
  | .plain id, x => f.identifier? id = some x
  | .result id, x => ∃ i, f.identifier? id = some i ∧ f.Binds i.outStorage x

/-- Whether an answer is right after others: a register is taken if it is defined, was not
taken before and is no part of one taken before, and anything else is taken. -/
def Answered (a : Architecture) (before : Log) : Addition × Bool → Prop
  | (.register index, taken) => taken = true ↔ (a.register? index).isSome = true ∧
      index ∉ accepted before ∧ a.isPartOfAny index (accepted before) = false
  | (_, taken) => taken = true

/-! ## Logs that grow -/

section
variable (log : Log) (x : Addition × Bool)

theorem filterMap_append_singleton {α β : Type} (g : α → Option β) (l : List α) (x : α) :
    (l ++ [x]).filterMap g = l.filterMap g ++ (g x).toList := by
  rw [List.filterMap_append]
  cases h : g x with
  | none => simp [h]
  | some y => simp [h]

@[simp] theorem accepted_append :
    accepted (log ++ [x]) = accepted log ++ (if x.2 then x.1.register? else none).toList :=
  filterMap_append_singleton _ log x

@[simp] theorem arguments_append :
    arguments (log ++ [x]) = arguments log ++ x.1.argument?.toList :=
  filterMap_append_singleton _ log x

@[simp] theorem offered_append (e : Entry) :
    offered (log ++ [x]) e = offered log e ++ (x.1.offer? e).toList :=
  filterMap_append_singleton _ log x

@[simp] theorem plains_append : plains (log ++ [x]) = plains log ++ x.1.plain?.toList :=
  filterMap_append_singleton _ log x

@[simp] theorem results_append : results (log ++ [x]) = results log ++ x.1.result?.toList :=
  filterMap_append_singleton _ log x

@[simp] theorem named_append : named (log ++ [x]) = named log ++ x.1.named := by
  simp [named]

@[simp] theorem outline_append : outline (log ++ [x]) = (outline log).note x := by
  simp [outline]

theorem Outline.entries_prefix_note (o : Outline) : o.entries <+: (o.note x).entries := by
  have hshare (e : Entry) : o.entries <+: (o.share e).entries := by
    unfold share
    split
    · exact List.prefix_refl _
    · exact List.prefix_append _ _
  obtain ⟨addition, taken⟩ := x
  cases addition with
  | register index =>
    cases taken with
    | true => exact List.prefix_append _ _
    | false => exact List.prefix_refl _
  | stackArgument offset id => exact hshare (.stackSlot offset)
  | fpuArgument depth id => exact hshare (.fpuSlot depth)
  | plain id => exact List.prefix_append _ _
  | result id =>
    rw [note]
    cases o.returned with
    | none => exact List.prefix_refl _
    | some first => exact hshare (.result id)
  | frame op => exact List.prefix_refl _

/-- What is listed stays where it was listed first. -/
theorem entries_prefix_outline {before : Log} (h : before <+: log) :
    (outline before).entries <+: (outline log).entries := by
  induction log using List.reverseRecOn with
  | nil =>
    obtain rfl := List.prefix_nil.1 h
    exact List.prefix_refl _
  | append_singleton log x ih =>
    rw [List.prefix_concat_iff] at h
    cases h with
    | inl heq =>
      subst heq
      exact List.prefix_refl _
    | inr hearlier =>
      rw [outline_append]
      exact (ih hearlier).trans ((outline log).entries_prefix_note x)

theorem Outline.returned_share (o : Outline) (e : Entry) : (o.share e).returned = o.returned := by
  unfold share
  split
  · rfl
  · rfl

theorem Outline.entries_share (o : Outline) (e : Entry) :
    (o.share e).entries = if e ∈ o.entries then o.entries else o.entries ++ [e] := by
  unfold share
  split
  · rfl
  · rfl

theorem returned_outline : (outline log).returned = (results log).head? := by
  induction log using List.reverseRecOn with
  | nil => rfl
  | append_singleton log x ih =>
    obtain ⟨addition, taken⟩ := x
    rw [outline_append, results_append]
    cases addition with
    | register index =>
      cases taken with
      | true => simpa [Outline.note, Outline.append] using ih
      | false => simpa [Outline.note] using ih
    | stackArgument offset id =>
      simpa [Outline.note, Outline.returned_share] using ih
    | fpuArgument depth id =>
      simpa [Outline.note, Outline.returned_share] using ih
    | plain id => simpa [Outline.note, Outline.append] using ih
    | result id =>
      cases hresults : results log with
      | nil =>
        rw [hresults] at ih
        simp [Outline.note, ih]
      | cons first rest =>
        rw [hresults] at ih
        simp [Outline.note, ih, Outline.returned_share]
    | frame op => simpa [Outline.note] using ih

theorem count_append (o : Outline) (e e' : Entry) :
    (o.append e).entries.count e' = o.entries.count e' + if e = e' then 1 else 0 := by
  simp [Outline.append, List.count_append, List.count_singleton]

theorem count_share (o : Outline) (e e' : Entry) (h : o.entries.count e ≤ 1) :
    (o.share e).entries.count e' = if e = e' then 1 else o.entries.count e' := by
  rw [Outline.entries_share]
  by_cases hmem : e ∈ o.entries
  · have hone := List.count_pos_iff.2 hmem
    by_cases heq : e = e'
    · subst heq
      simp only [hmem, if_true]
      omega
    · simp [hmem, heq]
  · by_cases heq : e = e'
    · subst heq
      simp [hmem, List.count_eq_zero.2 hmem]
    · simp [hmem, heq, List.count_append]

theorem count_share_outline {log : Log} {shared : Entry}
    (h : ∀ e, (outline log).entries.count e = times log e) (hone : times log shared ≤ 1)
    (e : Entry) : ((outline log).share shared).entries.count e =
      if shared = e then 1 else times log e := by
  rw [← h] at hone
  rw [count_share _ _ _ hone, h]

/-- Everything is listed as often as it should be. -/
theorem count_outline (e : Entry) : (outline log).entries.count e = times log e := by
  induction log using List.reverseRecOn generalizing e with
  | nil => cases e <;> rfl
  | append_singleton log x ih =>
    obtain ⟨addition, taken⟩ := x
    rw [outline_append]
    cases addition with
    | register index =>
      cases taken with
      | true =>
        rw [Outline.note, if_pos rfl, count_append, ih]
        cases e <;> simp [times, List.count_append, List.count_singleton]
      | false =>
        rw [Outline.note, if_neg Bool.false_ne_true, ih]
        cases e <;> simp [times]
    | stackArgument offset id =>
      rw [Outline.note, count_share_outline ih (Nat.min_le_left _ _)]
      cases e with
      | stackSlot o =>
        by_cases ho : offset = o
        · simp [times, ho]
        · simp [times, ho, Ne.symm ho]
      | register | fpuSlot | plain | result =>
        simp [times]
    | fpuArgument depth id =>
      rw [Outline.note, count_share_outline ih (Nat.min_le_left _ _)]
      cases e with
      | fpuSlot d =>
        by_cases hd : depth = d
        · simp [times, hd]
        · simp [times, hd, Ne.symm hd]
      | register | stackSlot | plain | result =>
        simp [times]
    | plain id =>
      rw [Outline.note, count_append, ih]
      cases e <;> simp [times, List.count_append, List.count_singleton]
    | result id =>
      have hreturned := returned_outline log
      cases hresults : results log with
      | nil =>
        -- the first result becomes the return value and is not listed
        rw [hresults] at hreturned
        simp only [Outline.note, hreturned, List.head?_nil]
        rw [ih]
        cases e <;> simp [times, hresults]
      | cons first rest =>
        rw [hresults] at hreturned
        simp only [Outline.note, hreturned, List.head?_cons]
        rw [count_share_outline ih (Nat.min_le_left _ _)]
        cases e with
        | result other =>
          by_cases hother : id = other
          · simp [times, hresults, hother]
          · simp [times, hresults, hother, List.count_append]
        | register | stackSlot | fpuSlot | plain =>
          simp [times]
    | frame op =>
      rw [Outline.note, ih]
      cases e <;> simp [times]

end

theorem mem_arguments_of_mem_offered {log : Log} {e : Entry} {id : IdentifierId}
    (h : id ∈ offered log e) : id ∈ arguments log := by
  obtain ⟨⟨addition, taken⟩, hx, hoffer⟩ := List.mem_filterMap.1 h
  refine List.mem_filterMap.2 ⟨_, hx, ?_⟩
  cases addition with
  | stackArgument offset other | fpuArgument depth other =>
    simp only [Addition.offer?, Option.ite_none_right_eq_some] at hoffer
    exact hoffer.2
  | register | plain | result | frame => cases hoffer

theorem mem_named_of_mem_arguments {log : Log} {id : IdentifierId} (h : id ∈ arguments log) :
    id ∈ named log := by
  obtain ⟨⟨addition, taken⟩, hx, hargument⟩ := List.mem_filterMap.1 h
  refine List.mem_flatMap.2 ⟨_, hx, ?_⟩
  cases addition with
  | stackArgument | fpuArgument | plain =>
    rw [Option.some.inj hargument.symm]
    exact List.mem_singleton_self _
  | register | result | frame => cases hargument

theorem mem_named_of_mem_results {log : Log} {id : IdentifierId} (h : id ∈ results log) :
    id ∈ named log := by
  obtain ⟨⟨addition, taken⟩, hx, hresult⟩ := List.mem_filterMap.1 h
  refine List.mem_flatMap.2 ⟨_, hx, ?_⟩
  cases addition with
  | result other =>
    rw [Option.some.inj hresult]
    exact List.mem_singleton_self _
  | register | stackArgument | fpuArgument | plain | frame => cases hresult

/-- Of the registers taken, no two are the same and none is a part of one taken before. -/
theorem pairwise_accepted {a : Architecture} {log : Log}
    (h : ∀ before x, before ++ [x] <+: log → Answered a before x) :
    (accepted log).Pairwise fun i j => i ≠ j ∧ ∀ r r', a.register? i = some r →
      a.register? j = some r' → a.isPartOf r' r = false := by
  induction log using List.reverseRecOn with
  | nil => exact .nil
  | append_singleton log x ih =>
    have hbefore := ih fun before y hy => h before y (hy.trans (List.prefix_append _ _))
    have hlast := h log x (List.prefix_refl _)
    obtain ⟨addition, taken⟩ := x
    rw [accepted_append]
    cases addition with
    | register index =>
      cases taken with
      | false => simpa using hbefore
      | true =>
        obtain ⟨-, hnew, hapart⟩ := hlast.1 rfl
        refine List.pairwise_append.2 ⟨hbefore, List.pairwise_singleton _ _, ?_⟩
        intro i hi j hj
        obtain rfl : j = index := List.mem_singleton.1 hj
        refine ⟨fun heq => hnew (heq ▸ hi), fun r r' hr hr' => ?_⟩
        rw [Architecture.isPartOfAny, hr', List.any_eq_false] at hapart
        simpa [hr] using hapart i hi
    | stackArgument | fpuArgument | plain | result | frame =>
      simpa using hbefore

end Signature.Builder
end Recovery
