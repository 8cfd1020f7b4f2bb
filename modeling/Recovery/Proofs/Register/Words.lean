import Mathlib.Algebra.Group.Nat.Defs
import Mathlib.Data.List.Sort
import Recovery.Register.Words
/-
  A row of words is a register set.

  A row and the set that it stands for (`WordRow.toSet`) have the same members and the
  same room, which is all that a set is (`RegisterSet.ext_contains`). So every
  operation on rows is the operation on sets, and every question about a row has the
  answer that the set gives.

    1. A word is looked at bit by bit: `getLsbD_mask` says which bit a mask has, and
       `getLsbD_clear_lowest` what is left of a word without its lowest bit.
    2. Each operation says what it does to the words (`word_grow`, `word_zipWith`), and
       from that to the members (`contains_insert`, `contains_union` and the others).
    3. `Cursor.left` are the members that a cursor has not read yet. One call answers the
       first of them and leaves the rest (`Cursor.next_left`), so the calls read the
       members in ascending order and then answer nothing, however often they are
       repeated (`answer_cursor`).
-/

namespace Recovery

theorem RegisterSet.equals_iff {s t : RegisterSet} :
    s.equals t = true ↔ ∀ i, s.contains i = t.contains i := by
  rw [equals, beq_iff_eq]
  constructor
  · intro h i
    rw [contains, contains, h]
  · exact Nat.eq_of_testBit_eq

theorem RegisterSet.ext_contains {s t : RegisterSet} (hwords : s.words = t.words)
    (h : ∀ i, s.contains i = t.contains i) : s = t := by
  have hbits : s.bits = t.bits := Nat.eq_of_testBit_eq h
  cases s
  cases t
  simp only [RegisterSet.mk.injEq]
  exact ⟨hbits, hwords⟩

namespace WordRow
variable {r s : WordRow} {w : BitVec 64} {i j n : Nat}

/-! ## Words bit by bit -/

theorem getLsbD_mask (i j : Nat) : (mask i).getLsbD j = decide (i % 64 = j) := by
  have hlt : i % 64 < 64 := Nat.mod_lt _ (by decide)
  show (BitVec.twoPow 64 (i % 64)).getLsbD j = _
  rw [BitVec.getLsbD_twoPow, decide_eq_true hlt, Bool.true_and]

theorem and_mask_ne_zero (w : BitVec 64) (i : Nat) :
    (w &&& mask i != 0) = w.getLsbD (i % 64) := by
  have hlt : i % 64 < 64 := Nat.mod_lt _ (by decide)
  have hpow : BitVec.twoPow 64 (i % 64) ≠ 0 := by
    intro h
    have hbit : (BitVec.twoPow 64 (i % 64)).getLsbD (i % 64) = false := by
      rw [h]
      exact BitVec.getLsbD_zero
    rw [BitVec.getLsbD_twoPow, decide_eq_true hlt, decide_eq_true rfl] at hbit
    contradiction
  show (w &&& BitVec.twoPow 64 (i % 64) != 0) = _
  rw [BitVec.and_twoPow]
  cases w.getLsbD (i % 64) with
  | true => simpa using hpow
  | false => simp

theorem toNat_eq_lowest (hw : w ≠ 0) :
    ∃ above, w.toNat = 2 ^ (w.ctz.toNat + 1) * above + 2 ^ w.ctz.toNat := by
  have hmod : w.toNat % 2 ^ (w.ctz.toNat + 1) = 2 ^ w.ctz.toNat := by
    apply Nat.eq_of_testBit_eq
    intro j
    rw [Nat.testBit_mod_two_pow, Nat.testBit_two_pow]
    rcases Nat.lt_trichotomy j w.ctz.toNat with hj | rfl | hj
    · have hbit : w.toNat.testBit j = false := BitVec.getLsbD_false_of_lt_ctz hj
      simp [hbit, Nat.ne_of_gt hj]
    · have hbit : w.toNat.testBit w.ctz.toNat = true := BitVec.getLsbD_true_ctz_of_ne_zero hw
      simp [hbit]
    · simp [Nat.not_lt.2 hj, Nat.ne_of_lt hj]
  refine ⟨w.toNat / 2 ^ (w.ctz.toNat + 1), ?_⟩
  rw [← hmod, Nat.div_add_mod]

theorem getLsbD_clear_lowest (hw : w ≠ 0) (j : Nat) :
    (w &&& (w - 1)).getLsbD j = (w.getLsbD j && decide (j ≠ w.ctz.toNat)) := by
  obtain ⟨above, habove⟩ := toNat_eq_lowest hw
  have hbelow : ∀ j < w.ctz.toNat, w.getLsbD j = false :=
    fun j hj => BitVec.getLsbD_false_of_lt_ctz hj
  generalize w.ctz.toNat = t at habove hbelow ⊢
  have hpos : 0 < 2 ^ t := Nat.two_pow_pos t
  have hdouble : 2 ^ (t + 1) = 2 * 2 ^ t := by rw [Nat.pow_succ, Nat.mul_comm]
  have hpred : (w - 1).toNat = 2 ^ (t + 1) * above + (2 ^ t - 1) := by
    have hle : 1 ≤ w := by
      rw [BitVec.le_def, habove]
      exact Nat.le_trans hpos (Nat.le_add_left _ _)
    have hone : (1 : BitVec 64).toNat = 1 := rfl
    rw [BitVec.toNat_sub_of_le hle, hone, habove]
    omega
  have hbits (b : Nat) (hb : b < 2 ^ (t + 1)) (x : BitVec 64)
      (hx : x.toNat = 2 ^ (t + 1) * above + b) :
      x.getLsbD j = if j < t + 1 then b.testBit j else above.testBit (j - (t + 1)) := by
    rw [← BitVec.testBit_toNat, hx, Nat.testBit_two_pow_mul_add above hb]
  have hword := hbits (2 ^ t) (by omega) w habove
  have hother := hbits (2 ^ t - 1) (by omega) (w - 1) hpred
  rw [BitVec.getLsbD_and]
  rcases Nat.lt_trichotomy j t with hj | rfl | hj
  · rw [hbelow j hj, Bool.false_and, Bool.false_and]
  · rw [hother, if_pos (Nat.lt_succ_self j), Nat.testBit_two_pow_sub_one]
    simp
  · rw [hword, hother, if_neg (by omega), if_neg (by omega), Bool.and_self]
    simp [Nat.ne_of_gt hj]

/-! ## Members -/

theorem contains_eq (r : WordRow) (i : Nat) :
    r.contains i = (r.word (i / 64)).getLsbD (i % 64) :=
  and_mask_ne_zero _ i

theorem testBit_value (ws : List (BitVec 64)) (i : Nat) :
    (value ws).testBit i = (ws[i / 64]?.getD 0).getLsbD (i % 64) := by
  induction ws generalizing i with
  | nil => simp [value]
  | cons w ws ih =>
    rw [value, Nat.testBit_two_pow_mul_add _ w.isLt]
    split
    · next hi =>
      rw [Nat.div_eq_of_lt hi, Nat.mod_eq_of_lt hi]
      rfl
    · next hi =>
      have hplace : i / 64 = (i - 64) / 64 + 1 := by omega
      have hbit : i % 64 = (i - 64) % 64 := by omega
      rw [ih, hplace, hbit, List.getElem?_cons_succ]

@[simp] theorem contains_toSet (r : WordRow) (i : Nat) : r.toSet.contains i = r.contains i := by
  rw [contains_eq]
  exact testBit_value r.words i

@[simp] theorem words_toSet (r : WordRow) : r.toSet.words = r.words.length := rfl

theorem toSet_eq {t : RegisterSet} (hwords : r.words.length = t.words)
    (h : ∀ i, r.contains i = t.contains i) : r.toSet = t :=
  RegisterSet.ext_contains hwords fun i => (contains_toSet r i).trans (h i)

theorem lt_room_of_contains (h : r.contains i = true) : i < r.room := by
  rw [← contains_toSet] at h
  exact RegisterSet.lt_room_of_contains h

/-! ## Operations -/

theorem toSet_withRoom (count : Nat) : (withRoom count).toSet = .withRoom count := by
  apply toSet_eq
  · exact List.length_replicate
  · intro i
    rw [contains_eq, RegisterSet.contains_withRoom, word, withRoom, List.getElem?_replicate]
    split
    · exact BitVec.getLsbD_zero
    · exact BitVec.getLsbD_zero

/-- Growing adds zero words, which were there before for all that can be asked. -/
theorem word_grow (r : WordRow) (count j : Nat) : (r.grow count).word j = r.word j := by
  rw [word, grow, List.getElem?_append]
  split
  · rfl
  · next hj =>
    rw [word, List.getElem?_eq_none (Nat.le_of_not_lt hj), List.getElem?_replicate]
    split
    · rfl
    · rfl

theorem length_grow (r : WordRow) (count : Nat) :
    (r.grow count).words.length = max r.words.length count := by
  rw [grow, List.length_append, List.length_replicate]
  omega

theorem word_modify (change : BitVec 64 → BitVec 64) (hj : j < r.words.length) (k : Nat) :
    word ⟨r.words.modify j change⟩ k = if j = k then change (r.word j) else r.word k := by
  rw [word, List.getElem?_modify]
  by_cases hjk : j = k
  · subst hjk
    simp [word, List.getElem?_eq_getElem hj]
  · simp [word, hjk]

theorem eq_iff_place (i j : Nat) : i = j ↔ i / 64 = j / 64 ∧ i % 64 = j % 64 := by
  omega

theorem contains_insert (r : WordRow) (i j : Nat) :
    (r.insert i).2.contains j =
      (r.contains j || (decide (i < RegisterSet.indexLimit) && decide (i = j))) := by
  unfold insert
  by_cases hi : RegisterSet.indexLimit ≤ i
  · simp [hi, Nat.not_lt.2 hi]
  · have hplace : i / 64 < (r.grow (i / 64 + 1)).words.length := by
      rw [length_grow]
      omega
    rw [if_neg hi, contains_eq, contains_eq, word_modify _ hplace, word_grow, word_grow]
    by_cases hword : i / 64 = j / 64
    · simp [hword, getLsbD_mask, Nat.not_le.1 hi, eq_iff_place i j]
    · simp [hword, eq_iff_place i j]

theorem length_insert (r : WordRow) (i : Nat) :
    (r.insert i).2.words.length =
      if i < RegisterSet.indexLimit then max r.words.length (i / 64 + 1) else r.words.length := by
  unfold insert
  by_cases hi : RegisterSet.indexLimit ≤ i
  · rw [if_pos hi, if_neg (Nat.not_lt.2 hi)]
  · rw [if_neg hi, if_pos (Nat.not_le.1 hi), List.length_modify, length_grow]

theorem toSet_insert (r : WordRow) (i : Nat) : (r.insert i).2.toSet = r.toSet.insert i := by
  apply toSet_eq
  · rw [length_insert, RegisterSet.insert]
    split
    · rfl
    · rfl
  · intro j
    rw [contains_insert, RegisterSet.contains_insert, contains_toSet]

theorem fst_insert (r : WordRow) (i : Nat) : (r.insert i).1 = (r.toSet.insertNew i).1 := by
  have hnew (w : BitVec 64) : (w &&& mask i == 0) = !w.getLsbD (i % 64) := by
    rw [← and_mask_ne_zero, bne, Bool.not_not]
  unfold insert RegisterSet.insertNew
  by_cases hi : RegisterSet.indexLimit ≤ i
  · simp [hi, Nat.not_lt.2 hi]
  · rw [if_neg hi, decide_eq_true (Nat.not_le.1 hi), Bool.true_and, contains_toSet, contains_eq]
    show ((r.grow (i / 64 + 1)).word (i / 64) &&& mask i == 0) = _
    rw [hnew, word_grow]

theorem contains_erase (r : WordRow) (i j : Nat) :
    (r.erase i).2.contains j = (r.contains j && decide (i ≠ j)) := by
  unfold erase
  cases hi : r.contains i with
  | true =>
    have hplace : i / 64 < r.words.length := by
      have hlt := lt_room_of_contains hi
      unfold room at hlt
      omega
    rw [if_pos rfl, contains_eq, contains_eq, word_modify _ hplace]
    by_cases hword : i / 64 = j / 64
    · have hbit : j % 64 < 64 := Nat.mod_lt _ (by decide)
      simp only [hword, eq_iff_place i j, if_true, BitVec.getLsbD_and, BitVec.getLsbD_not,
        getLsbD_mask, hbit, decide_true, Bool.true_and, true_and, ne_eq, decide_not]
    · simp [hword, eq_iff_place i j]
  | false =>
    by_cases hij : i = j
    · subst hij
      simp [hi]
    · simp [hij]

theorem length_erase (r : WordRow) (i : Nat) :
    (r.erase i).2.words.length = r.words.length := by
  unfold erase
  split
  · exact List.length_modify ..
  · rfl

theorem toSet_erase (r : WordRow) (i : Nat) : (r.erase i).2.toSet = r.toSet.erase i := by
  apply toSet_eq
  · rw [length_erase, RegisterSet.erase]
    split
    · rfl
    · rfl
  · intro j
    rw [contains_erase, RegisterSet.contains_erase, contains_toSet]

theorem fst_erase (r : WordRow) (i : Nat) : (r.erase i).1 = (r.toSet.eraseOld i).1 := by
  unfold erase RegisterSet.eraseOld
  rw [contains_toSet]
  cases r.contains i with
  | true => rfl
  | false => rfl

theorem toSet_clear (r : WordRow) : r.clear.toSet = r.toSet.clear := by
  apply toSet_eq
  · exact List.length_map ..
  · intro i
    rw [contains_eq, RegisterSet.contains_clear, word, clear, List.getElem?_map]
    cases r.words[i / 64]? with
    | none => exact BitVec.getLsbD_zero
    | some w => exact BitVec.getLsbD_zero

theorem toSet_insertAll (r : WordRow) (is : List Nat) :
    (r.insertAll is).toSet = r.toSet.insertAll is := by
  induction is generalizing r with
  | nil => rfl
  | cons i is ih =>
    show ((r.insert i).2.insertAll is).toSet = (r.toSet.insert i).insertAll is
    rw [ih, toSet_insert]

theorem toSet_ofList (is : List Nat) : (ofList is).toSet = .ofList is := by
  rw [ofList, toSet_insertAll, toSet_withRoom]
  rfl

/-! ## Two rows together -/

theorem word_of_le (h : r.words.length ≤ j) : r.word j = 0 := by
  rw [word, List.getElem?_eq_none h]
  rfl

theorem word_zipWith {op : BitVec 64 → BitVec 64 → BitVec 64} (hop : op 0 0 = 0)
    (r s : WordRow) (j : Nat) : (zipWith op r s).word j = op (r.word j) (s.word j) := by
  rcases Nat.lt_or_ge j (max r.words.length s.words.length) with hj | hj
  · rw [word, zipWith, List.getElem?_map, List.getElem?_range hj]
    rfl
  · have hnone : (zipWith op r s).word j = 0 := by
      apply word_of_le
      rw [zipWith, List.length_map, List.length_range]
      exact hj
    rw [hnone, word_of_le (by omega), word_of_le (by omega), hop]

theorem length_zipWith (op : BitVec 64 → BitVec 64 → BitVec 64) (r s : WordRow) :
    (zipWith op r s).words.length = max r.words.length s.words.length := by
  rw [zipWith, List.length_map, List.length_range]

theorem toSet_union (r s : WordRow) : (r.union s).toSet = r.toSet.union s.toSet := by
  refine toSet_eq (length_zipWith _ r s) fun i => ?_
  rw [RegisterSet.contains_union, contains_toSet, contains_toSet]
  simp [contains_eq, union, word_zipWith]

theorem toSet_inter (r s : WordRow) : (r.inter s).toSet = r.toSet.inter s.toSet := by
  refine toSet_eq (length_zipWith _ r s) fun i => ?_
  rw [RegisterSet.contains_inter, contains_toSet, contains_toSet]
  simp [contains_eq, inter, word_zipWith]

theorem toSet_diff (r s : WordRow) : (r.diff s).toSet = r.toSet.diff s.toSet := by
  refine toSet_eq (length_zipWith _ r s) fun i => ?_
  have hbit : i % 64 < 64 := Nat.mod_lt _ (by decide)
  rw [RegisterSet.contains_diff, contains_toSet, contains_toSet]
  have hword : (r.diff s).word (i / 64) = r.word (i / 64) &&& ~~~s.word (i / 64) :=
    word_zipWith rfl r s (i / 64)
  simp only [contains_eq, hword, BitVec.getLsbD_and, BitVec.getLsbD_not, hbit, decide_true,
    Bool.true_and]

/-! ## Questions -/

theorem value_eq_zero (ws : List (BitVec 64)) : value ws = 0 ↔ ∀ w ∈ ws, w = 0 := by
  induction ws with
  | nil => simp [value]
  | cons w ws ih =>
    have hw : w.toNat = 0 ↔ w = 0 := by
      rw [BitVec.toNat_eq]
      rfl
    have hpow : Nat.pow 2 64 ≠ 0 := Nat.ne_of_gt (Nat.two_pow_pos 64)
    rw [value, List.forall_mem_cons, ← ih, ← hw, Nat.add_eq_zero_iff, Nat.mul_eq_zero,
      or_iff_right hpow, and_comm]

theorem isEmpty_eq (r : WordRow) : r.isEmpty = r.toSet.isEmpty := by
  rw [Bool.eq_iff_iff, isEmpty, RegisterSet.isEmpty, List.all_eq_true, beq_iff_eq]
  simp only [beq_iff_eq]
  exact (value_eq_zero r.words).symm

theorem subset_eq (r s : WordRow) : r.subset s = r.toSet.subset s.toSet := by
  rw [subset, isEmpty_eq, toSet_diff]
  rfl

theorem equals_iff (r s : WordRow) : r.equals s = true ↔ ∀ i, r.contains i = s.contains i := by
  have hwords : r.equals s = true ↔
      ∀ j < max r.words.length s.words.length, r.word j = s.word j := by
    simp [equals]
  rw [hwords]
  constructor
  · intro h i
    rw [contains_eq, contains_eq]
    rcases Nat.lt_or_ge (i / 64) (max r.words.length s.words.length) with hi | hi
    · rw [h _ hi]
    · rw [word_of_le (by omega), word_of_le (by omega)]
  · intro h j _
    apply BitVec.eq_of_getLsbD_eq
    intro k hk
    have hbit := h (64 * j + k)
    have hplace : (64 * j + k) / 64 = j := by omega
    have hrest : (64 * j + k) % 64 = k := by omega
    rwa [contains_eq, contains_eq, hplace, hrest] at hbit

theorem equals_eq (r s : WordRow) : r.equals s = r.toSet.equals s.toSet := by
  rw [Bool.eq_iff_iff, equals_iff, RegisterSet.equals_iff]
  simp only [contains_toSet]

/-! ## Members in ascending order -/

/-- The places of the bits of a word, the lowest first. -/
def bitsOf (w : BitVec 64) : List Nat := (List.range 64).filter w.getLsbD

/-- The members that a list of words holds when its first word is the one at `place`. -/
def members : (place : Nat) → List (BitVec 64) → List Nat
  | _, [] => []
  | place, w :: ws => (bitsOf w).map (64 * place + ·) ++ members (place + 1) ws

theorem mem_bitsOf : i ∈ bitsOf w ↔ w.getLsbD i = true := by
  simp only [bitsOf, List.mem_filter, List.mem_range, and_iff_right_iff_imp]
  exact BitVec.lt_of_getLsbD

theorem pairwise_bitsOf (w : BitVec 64) : (bitsOf w).Pairwise (· < ·) :=
  List.pairwise_lt_range.filter _

@[simp] theorem bitsOf_zero : bitsOf 0 = [] := by
  apply List.eq_nil_iff_forall_not_mem.2
  intro i hi
  rw [mem_bitsOf] at hi
  exact absurd hi (by simp)

theorem bitsOf_eq_cons (hw : w ≠ 0) : bitsOf w = w.ctz.toNat :: bitsOf (w &&& (w - 1)) := by
  have hrest (j : Nat) : j ∈ bitsOf (w &&& (w - 1)) ↔ w.getLsbD j = true ∧ j ≠ w.ctz.toNat := by
    rw [mem_bitsOf, getLsbD_clear_lowest hw, Bool.and_eq_true, decide_eq_true_eq]
  have hlowest (j : Nat) (hj : w.getLsbD j = true) : w.ctz.toNat ≤ j := by
    by_contra hlt
    have hbit : w.getLsbD j = false := BitVec.getLsbD_false_of_lt_ctz (Nat.not_le.1 hlt)
    rw [hj] at hbit
    contradiction
  apply List.Pairwise.eq_of_mem_iff (pairwise_bitsOf w)
  · apply List.Pairwise.cons _ (pairwise_bitsOf _)
    intro j hj
    have hj' := (hrest j).1 hj
    exact Nat.lt_of_le_of_ne (hlowest j hj'.1) hj'.2.symm
  · intro j
    rw [List.mem_cons, hrest, mem_bitsOf]
    constructor
    · intro hj
      by_cases hlow : j = w.ctz.toNat
      · exact .inl hlow
      · exact .inr ⟨hj, hlow⟩
    · rintro (rfl | hj)
      · exact BitVec.getLsbD_true_ctz_of_ne_zero hw
      · exact hj.1

theorem length_bitsOf (w : BitVec 64) : (bitsOf w).length = w.cpop.toNat := by
  have hcount (k : Nat) : w.cpopNatRec k 0 = ((List.range k).filter w.getLsbD).length := by
    induction k with
    | zero => rfl
    | succ k ih =>
      rw [BitVec.cpopNatRec_succ, BitVec.cpopNatRec_add, ih, List.range_succ, List.filter_append,
        List.length_append]
      cases hbit : w.getLsbD k with
      | true => simp [hbit]
      | false => simp [hbit]
  rw [BitVec.toNat_cpop, hcount, bitsOf]

theorem length_members (place : Nat) (ws : List (BitVec 64)) :
    (members place ws).length = card ⟨ws⟩ := by
  induction ws generalizing place with
  | nil => rfl
  | cons w ws ih =>
    rw [members, List.length_append, List.length_map, length_bitsOf, ih]
    rfl

/-- The members of a list of words are the bits of its number. -/
theorem members_eq (place : Nat) (ws : List (BitVec 64)) :
    members place ws =
      ((List.range (64 * ws.length)).filter (value ws).testBit).map (64 * place + ·) := by
  induction ws generalizing place with
  | nil => rfl
  | cons w ws ih =>
    have hfirst : (List.range 64).filter (value (w :: ws)).testBit = bitsOf w := by
      apply List.filter_congr
      intro i hi
      rw [value, Nat.testBit_two_pow_mul_add _ w.isLt, if_pos (List.mem_range.1 hi)]
      rfl
    have hlater (i : Nat) : (value (w :: ws)).testBit (64 + i) = (value ws).testBit i := by
      rw [value, Nat.testBit_two_pow_mul_add _ w.isLt, if_neg (by omega), Nat.add_sub_cancel_left]
    have hcount : 64 * (w :: ws).length = 64 + 64 * ws.length := by
      rw [List.length_cons, Nat.mul_succ, Nat.add_comm]
    have hshift : (fun i => 64 * place + (64 + i)) = fun i => 64 * (place + 1) + i := by
      funext i
      omega
    rw [members, ih, hcount, List.range_add, List.filter_append, hfirst, List.filter_map,
      List.map_append, List.map_map]
    simp only [Function.comp_def, hlater, hshift]

theorem members_words (r : WordRow) : members 0 r.words = r.toSet.toList := by
  rw [members_eq]
  show r.toSet.toList.map (64 * 0 + ·) = r.toSet.toList
  simp only [Nat.mul_zero, Nat.zero_add, List.map_id']

theorem card_eq (r : WordRow) : r.card = r.toSet.card := by
  rw [RegisterSet.card, ← members_words, length_members]

namespace Cursor

def left (c : Cursor) : List Nat :=
  (bitsOf c.current).map (64 * c.place + ·) ++ members (c.place + 1) (c.words.drop (c.place + 1))

/-- A call answers the first member that is left, if there is one, and leaves the rest. -/
theorem next_left (c : Cursor) : c.next.1 = c.left.head? ∧ c.next.2.left = c.left.tail := by
  fun_induction Cursor.next c with
  | case1 c hzero w hw ih =>
    -- the word at hand is used up: what is left begins in the next word
    have hdrop : c.words.drop (c.place + 1) = w :: c.words.drop (c.place + 1 + 1) :=
      (List.drop_eq_getElem?_toList_append ..).trans (by rw [hw]; rfl)
    have hleft : c.left = Cursor.left { c with place := c.place + 1, current := w } := by
      rw [left, hzero, bitsOf_zero, hdrop]
      rfl
    rw [hleft]
    exact ih
  | case2 c hzero hnone =>
    have hend : c.words.length ≤ c.place + 1 := List.getElem?_eq_none_iff.1 hnone
    have hleft : c.left = [] := by
      rw [left, hzero, bitsOf_zero, List.drop_eq_nil_of_le hend]
      rfl
    have hafter : Cursor.left { c with place := c.place + 1 } = [] := by
      rw [left, hzero, bitsOf_zero, List.drop_eq_nil_of_le (Nat.le_succ_of_le hend)]
      rfl
    rw [hleft, hafter]
    exact ⟨rfl, rfl⟩
  | case3 c hne =>
    rw [left, bitsOf_eq_cons hne]
    exact ⟨rfl, rfl⟩

theorem answer_eq (c : Cursor) (n : Nat) : c.answer n = c.left[n]? := by
  induction n generalizing c with
  | zero => rw [answer, (next_left c).1, List.head?_eq_getElem?]
  | succ n ih => rw [answer, ih, (next_left c).2, List.getElem?_tail]

end Cursor

/-- A cursor over a row reads the members of its set in order. -/
theorem answer_cursor (r : WordRow) (n : Nat) : r.cursor.answer n = r.toSet.toList[n]? := by
  have hleft : r.cursor.left = members 0 r.words := by
    rcases r with ⟨_ | ⟨w, ws⟩⟩
    · show (bitsOf 0).map _ ++ _ = []
      rw [bitsOf_zero]
      rfl
    · rfl
  rw [Cursor.answer_eq, hleft, members_words]

end WordRow
end Recovery
