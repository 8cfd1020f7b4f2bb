import Mathlib.Data.Finset.Max
import Recovery.Proofs.Binding
/-
  Which registers of a set a signature lists.

  `Architecture.Outermost` says it without a program: in ascending order, the
  registers of a set that are no part of another register of it, whatever the
  architecture takes for a part (`outermost_listedRegisters`).

  Where being a part is told by bits, these registers also cover the set
  (`Architecture.Selects`, `selects_listedRegisters`). Being a part is then a strict
  order (`Register.isPartOf_trans`), along which widths grow, so each register left
  out lies in a widest one that is not (`exists_whole`). This asks that registers
  stand under their own index: two registers of one index are never parts of each
  other, so with them being a part would not be transitive.
-/

namespace Recovery

/-- Parts of parts are parts, when the outer two are not of one index. -/
theorem Register.isPartOf_trans {r s t : Register} (hrs : r.isPartOf s = true)
    (hst : s.isPartOf t = true) (hne : r.index ≠ t.index) : r.isPartOf t = true := by
  obtain ⟨-, hdomain, hsize, hlow, hhigh⟩ := isPartOf_iff.1 hrs
  obtain ⟨-, hdomain', hsize', hlow', hhigh'⟩ := isPartOf_iff.1 hst
  exact isPartOf_iff.2 ⟨hne, hdomain.trans hdomain', by omega, by omega, by omega⟩

namespace Architecture
variable {a : Architecture} {s : RegisterSet} {r r' : Register}

/-- Whether a register is the definition of a member of a set. -/
def Defines (a : Architecture) (s : RegisterSet) (r : Register) : Prop :=
  ∃ i, s.contains i = true ∧ a.register? i = some r

/-- Whether being a part is told by the bits that registers take. -/
def PartsByBits (a : Architecture) : Prop := a.isPartOf = Register.isPartOf

/-- The registers of a set that are no part of another one of it, in ascending order. -/
structure Outermost (a : Architecture) (s : RegisterSet) (rs : List Register) : Prop where
  ascending : (rs.map Register.index).Pairwise (· < ·)
  mem_iff : ∀ r, r ∈ rs ↔
    a.Defines s r ∧ ∀ whole, a.Defines s whole → a.isPartOf r whole = false

/-- A selection of a set's registers: those that are no part of another one. Each
register of the set is selected or a part of a selected one. -/
structure Selects (a : Architecture) (s : RegisterSet) (rs : List Register) : Prop
    extends a.Outermost s rs where
  covers : ∀ r, a.Defines s r → ∃ whole ∈ rs, r = whole ∨ a.isPartOf r whole = true
  apart : ∀ r ∈ rs, ∀ r' ∈ rs, a.isPartOf r r' = false

theorem Defines.eq_of_index_eq (ha : a.Indexed) (hr : a.Defines s r) (hr' : a.Defines s r')
    (h : r.index = r'.index) : r = r' := by
  obtain ⟨i, -, hi⟩ := hr
  obtain ⟨j, -, hj⟩ := hr'
  rw [ha i r hi, ha j r' hj] at h
  rw [h, hj] at hi
  exact (Option.some.inj hi).symm

theorem Defines.isPartOf_trans {whole : Register} (ha : a.Indexed) (hr : a.Defines s r)
    (hwhole : a.Defines s whole) (hrr' : r.isPartOf r' = true)
    (hrw : r'.isPartOf whole = true) : r.isPartOf whole = true := by
  refine Register.isPartOf_trans hrr' hrw fun hindex => ?_
  -- with one index they would be one register, which is not narrower than itself
  obtain rfl := hr.eq_of_index_eq ha hwhole hindex
  obtain ⟨-, -, hsize, -⟩ := Register.isPartOf_iff.1 hrr'
  obtain ⟨-, -, hsize', -⟩ := Register.isPartOf_iff.1 hrw
  exact Nat.lt_asymm hsize hsize'

/-- The registers of a set, in ascending order of the members. -/
def registersOf (a : Architecture) (s : RegisterSet) : List Register :=
  s.toList.filterMap a.register?

theorem mem_registersOf_iff : r ∈ a.registersOf s ↔ a.Defines s r := by
  simp only [registersOf, List.mem_filterMap, RegisterSet.mem_toList, Defines]

/-- Each register of a set is, or is a part of, one that is no part of another. -/
theorem exists_whole (ha : a.Indexed) (hr : a.Defines s r) :
    ∃ whole, a.Defines s whole ∧ (∀ w, a.Defines s w → whole.isPartOf w = false) ∧
      (r = whole ∨ r.isPartOf whole = true) := by
  let around := ((a.registersOf s).filter fun w => r = w ∨ r.isPartOf w = true).toFinset
  have hmem (w : Register) :
      w ∈ around ↔ a.Defines s w ∧ (r = w ∨ r.isPartOf w = true) := by
    simp only [around, List.mem_toFinset, List.mem_filter, mem_registersOf_iff,
      decide_eq_true_eq]
  obtain ⟨whole, hwhole, hwidest⟩ :=
    around.exists_max_image Register.bitSize ⟨r, (hmem r).2 ⟨hr, Or.inl rfl⟩⟩
  obtain ⟨hdefined, haround⟩ := (hmem whole).1 hwhole
  refine ⟨whole, hdefined, fun w hw => ?_, haround⟩
  cases hpart : whole.isPartOf w with
  | false => rfl
  | true =>
    -- a register around the widest one is around `r` as well, and wider
    have hrw : r.isPartOf w = true := by
      rcases haround with rfl | h
      · exact hpart
      · exact hr.isPartOf_trans ha hw h hpart
    have hle := hwidest w ((hmem w).2 ⟨hw, Or.inr hrw⟩)
    obtain ⟨-, -, hlt, -⟩ := Register.isPartOf_iff.1 hpart
    omega

theorem Outermost.nodup_storages {rs : List Register} (h : a.Outermost s rs) :
    (rs.map Register.storage).Nodup := by
  have hascending := h.ascending
  rw [List.pairwise_map] at hascending
  rw [List.Nodup, List.pairwise_map]
  refine hascending.imp fun hlt heq => ?_
  rw [(Storage.register.inj heq).1] at hlt
  exact Nat.lt_irrefl _ hlt

end Architecture

namespace Synthesis
variable {a : Architecture} {p : Platform} {s : RegisterSet} {r : Register} {i : Nat}

/-- The registers that a signature lists of a set; an index without definition
stands for none. -/
def listedRegisters (a : Architecture) (p : Platform) (s : RegisterSet) : List Register :=
  (listed a p s).filterMap a.register?

theorem isPartOfAny_eq_false_iff {among : List Nat} (hi : a.register? i = some r) :
    a.isPartOfAny i among = false ↔
      ∀ j ∈ among, ∀ whole, a.register? j = some whole → a.isPartOf r whole = false := by
  simp only [Architecture.isPartOfAny, hi, List.any_eq_false, Bool.not_eq_true,
    Option.any_eq_false]

theorem mem_listed_iff (hi : a.register? i = some r) :
    i ∈ listed a p s ↔ (s \ p.implicitRegisters).contains i = true ∧
      ∀ whole, a.Defines (s \ p.implicitRegisters) whole → a.isPartOf r whole = false := by
  simp only [listed, List.mem_filter, RegisterSet.mem_toList, Bool.not_eq_true',
    isPartOfAny_eq_false_iff hi]
  refine and_congr_right fun _ => ⟨fun h whole hwhole => ?_, fun h j hj whole hwhole => ?_⟩
  · obtain ⟨j, hj, hwhole⟩ := hwhole
    exact h j hj whole hwhole
  · exact h whole ⟨j, hj, hwhole⟩

theorem isPartOfAny_of_listed {among : List Nat} (hi : a.register? i = some r)
    (hlisted : i ∈ listed a p s) (hamong : ∀ j ∈ among, j ∈ listed a p s) :
    a.isPartOfAny i among = false := by
  rw [isPartOfAny_eq_false_iff hi]
  intro j hj whole hwhole
  obtain ⟨-, hlargest⟩ := (mem_listed_iff hi).1 hlisted
  obtain ⟨hcontains, -⟩ := (mem_listed_iff hwhole).1 (hamong j hj)
  exact hlargest whole ⟨j, hcontains, hwhole⟩

theorem pairwise_listed (a : Architecture) (p : Platform) (s : RegisterSet) :
    (listed a p s).Pairwise (· < ·) :=
  (List.pairwise_lt_range.filter _).filter _

/-- A signature lists the outermost registers of a set, those left out that are passed
as a matter of course. -/
theorem outermost_listedRegisters (ha : a.Indexed) :
    a.Outermost (s \ p.implicitRegisters) (listedRegisters a p s) where
  ascending := by
    rw [List.pairwise_map, listedRegisters, List.pairwise_filterMap]
    refine (pairwise_listed a p s).imp fun {i j} hij r hr r' hr' => ?_
    rw [ha i r hr, ha j r' hr']
    exact hij
  mem_iff r := by
    rw [listedRegisters, List.mem_filterMap]
    constructor
    · rintro ⟨i, hi, hr⟩
      obtain ⟨hcontains, hlargest⟩ := (mem_listed_iff hr).1 hi
      exact ⟨⟨i, hcontains, hr⟩, hlargest⟩
    · rintro ⟨⟨i, hcontains, hr⟩, hlargest⟩
      exact ⟨i, (mem_listed_iff hr).2 ⟨hcontains, hlargest⟩, hr⟩

/-- Where being a part is told by bits, they are a selection. -/
theorem selects_listedRegisters (ha : a.Indexed) (hbits : a.PartsByBits) :
    a.Selects (s \ p.implicitRegisters) (listedRegisters a p s) where
  toOutermost := outermost_listedRegisters ha
  covers r hr := by
    obtain ⟨whole, hdefined, hlargest, haround⟩ := Architecture.exists_whole ha hr
    rw [hbits]
    refine ⟨whole, ((outermost_listedRegisters ha).mem_iff whole).2 ⟨hdefined, ?_⟩, haround⟩
    rw [hbits]
    exact hlargest
  apart r hr r' hr' :=
    (((outermost_listedRegisters ha).mem_iff r).1 hr).2 r'
      (((outermost_listedRegisters ha).mem_iff r').1 hr').1

end Synthesis
end Recovery
