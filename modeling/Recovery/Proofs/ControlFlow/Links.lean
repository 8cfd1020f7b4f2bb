import Recovery.ControlFlow.Dominators
import Recovery.Proofs.ControlFlow.Walk
import Recovery.Proofs.Vectors
/-
  Tables of links as trees.

  A table is a tree (`IsTree`) when the root links to itself and every other link
  leads to an earlier place that has a link too. Then every chain of a linked
  place goes up to the root, through places that are on the chains of those before
  them (`pairwise_chain`), and `meet` answers the place whose chain is what both
  chains share (`mem_chain_meet`).

  `mixed new old i` is the table a pass works on when it comes to place `i`: the
  links before `i` are new, the others are old. `get_pass` says that a pass
  is nothing else than relinking each place in that table, so the order in which
  a pass runs appears nowhere after this module.
-/

namespace Recovery.DominatorLinks
variable {n : Nat} {links : DominatorLinks n} {root i j x y : Fin n}

/-- Whether a place has a link. -/
def Linked (links : DominatorLinks n) (i : Fin n) : Prop := ∃ d, links.get i = some d

theorem isSome_iff_linked : (links.get i).isSome = true ↔ links.Linked i := Option.isSome_iff_exists

/-! ## Chains -/

theorem mem_chain_iff :
    x ∈ links.chain i ↔ x = i ∨ ∃ d, links.get i = some d ∧ d < i ∧ x ∈ links.chain d := by
  rw [chain, List.mem_cons]
  cases h : links.get i with
  | none => simp
  | some d =>
    by_cases hd : d < i
    · simp [hd]
    · simp [hd]

theorem self_mem_chain (links : DominatorLinks n) (i : Fin n) : i ∈ links.chain i :=
  mem_chain_iff.2 (Or.inl rfl)

theorem mem_chain_link {d : Fin n} (h : links.get i = some d) (hd : d < i) :
    x ∈ links.chain i ↔ x = i ∨ x ∈ links.chain d := by
  rw [mem_chain_iff]
  simp [h, hd]

/-- Places are reached by going up one at a time. -/
theorem upwards {motive : Fin n → Prop} (step : ∀ i, (∀ j, j < i → motive j) → motive i)
    (i : Fin n) : motive i :=
  step i fun j _ => upwards step j
termination_by i.val

theorem le_of_mem_chain (h : x ∈ links.chain i) : x ≤ i := by
  induction i using upwards with
  | step i ih =>
    rcases mem_chain_iff.1 h with rfl | ⟨d, -, hd, hx⟩
    · exact Fin.le_refl _
    · exact Fin.le_of_lt (Fin.lt_of_le_of_lt (ih d hd hx) hd)

theorem mem_chain_trans (hx : x ∈ links.chain y) (hy : y ∈ links.chain i) : x ∈ links.chain i := by
  induction i using upwards with
  | step i ih =>
    rcases mem_chain_iff.1 hy with rfl | ⟨d, hl, hd, hy⟩
    · exact hx
    · exact (mem_chain_link hl hd).2 (Or.inr (ih d hd hy))

/-- A chain goes up: each place on it is later than those after it, and they are
on its own chain. -/
theorem pairwise_chain (links : DominatorLinks n) (i : Fin n) :
    (links.chain i).Pairwise fun a c => c < a ∧ c ∈ links.chain a := by
  induction i using upwards with
  | step i ih =>
    cases hl : links.get i with
    | none =>
      rw [chain, hl]
      exact List.pairwise_singleton _ _
    | some d =>
      by_cases hd : d < i
      · rw [chain, hl]
        simp only [hd, if_true]
        refine List.pairwise_cons.2 ⟨fun c hc => ⟨?_, ?_⟩, ih d hd⟩
        · exact Fin.lt_of_le_of_lt (le_of_mem_chain hc) hd
        · exact (mem_chain_link hl hd).2 (Or.inr hc)
      · rw [chain, hl]
        simp only [hd, if_false]
        exact List.pairwise_singleton _ _

theorem getElem?_one_chain {d : Fin n} :
    (links.chain i)[1]? = some d ↔
      d ∈ links.chain i ∧ d ≠ i ∧ ∀ a ∈ links.chain i, a ≠ i → a ∈ links.chain d := by
  by_cases h : ∃ e, links.get i = some e ∧ e < i
  · obtain ⟨e, hl, he⟩ := h
    have hsecond : (links.chain i)[1]? = some e := by
      rw [chain, hl]
      simp only [he, if_true]
      rw [chain]
      rfl
    have hmem (x : Fin n) : x ∈ links.chain i ↔ x = i ∨ x ∈ links.chain e := mem_chain_link hl he
    rw [hsecond, Option.some.injEq]
    constructor
    · intro hed
      subst hed
      refine ⟨(hmem _).2 (Or.inr (self_mem_chain _ _)), by omega, fun a ha hne => ?_⟩
      exact ((hmem a).1 ha).resolve_left hne
    · intro ⟨hd, hne, hall⟩
      have hde := le_of_mem_chain (((hmem d).1 hd).resolve_left hne)
      have hed := le_of_mem_chain (hall e ((hmem e).2 (Or.inr (self_mem_chain _ _))) (by omega))
      omega
  · have halone : links.chain i = [i] := by
      rw [chain]
      cases hl : links.get i with
      | none => rfl
      | some e =>
        have he : ¬ e < i := fun he => h ⟨e, hl, he⟩
        simp only [he, if_false]
    rw [halone]
    constructor
    · intro hd
      cases hd
    · intro ⟨hd, hne, _⟩
      exact absurd (List.mem_singleton.1 hd) hne

/-! ## Trees -/

/-- The root links to itself, every other link to an earlier place with a link. -/
structure IsTree (links : DominatorLinks n) (root : Fin n) : Prop where
  root_link : links.get root = some root
  link_lt : ∀ {i d : Fin n}, links.get i = some d → i ≠ root → d < i
  link_linked : ∀ {i d : Fin n}, links.get i = some d → links.Linked d

namespace IsTree

theorem chain_root (t : IsTree links root) : links.chain root = [root] := by
  rw [chain, t.root_link]
  simp

theorem linked_of_mem_chain (t : IsTree links root) (hi : links.Linked i)
    (h : x ∈ links.chain i) : links.Linked x := by
  induction i using upwards with
  | step i ih =>
    rcases mem_chain_iff.1 h with rfl | ⟨d, hl, hd, hx⟩
    · exact hi
    · exact ih d hd (t.link_linked hl) hx

theorem root_mem_chain (t : IsTree links root) (hi : links.Linked i) : root ∈ links.chain i := by
  induction i using upwards with
  | step i ih =>
    by_cases hr : i = root
    · rw [hr]
      exact self_mem_chain _ _
    · obtain ⟨d, hl⟩ := hi
      have hd := t.link_lt hl hr
      exact (mem_chain_link hl hd).2 (Or.inr (ih d hd (t.link_linked hl)))

theorem getLast?_chain (t : IsTree links root) (hi : links.Linked i) :
    (links.chain i).getLast? = some root := by
  induction i using upwards with
  | step i ih =>
    by_cases hr : i = root
    · rw [hr, t.chain_root]
      rfl
    · obtain ⟨d, hl⟩ := hi
      have hd := t.link_lt hl hr
      rw [chain, hl]
      simp only [hd, if_true]
      rw [List.getLast?_cons, ih d hd (t.link_linked hl)]
      rfl

theorem root_le (t : IsTree links root) (hi : links.Linked i) : root ≤ i :=
  le_of_mem_chain (t.root_mem_chain hi)

theorem link_lt_of_lt (t : IsTree links root) {a b d : Fin n} (hb : links.Linked b)
    (hba : b < a) (hl : links.get a = some d) : d < a := by
  apply t.link_lt hl
  intro hr
  have := t.root_le hb
  omega

/-- The meeting point of two linked places is linked, and its chain holds what
both their chains hold. -/
theorem mem_chain_meet (t : IsTree links root) (a b : Fin n) (ha : links.Linked a)
    (hb : links.Linked b) :
    links.Linked (links.meet a b) ∧
      ∀ x, x ∈ links.chain (links.meet a b) ↔ x ∈ links.chain a ∧ x ∈ links.chain b := by
  fun_induction meet links a b with
  | case1 a => exact ⟨ha, fun x => (and_self_iff).symm⟩
  | case2 a b hab hba d hl hd ih =>
    obtain ⟨hm, hx⟩ := ih (t.link_linked hl) hb
    refine ⟨hm, fun x => ?_⟩
    rw [hx, mem_chain_link hl hd]
    refine ⟨fun h => ⟨Or.inr h.1, h.2⟩, fun h => ⟨h.1.resolve_left ?_, h.2⟩⟩
    rintro rfl
    have := le_of_mem_chain h.2
    omega
  | case3 a b hab hba d hl hd => exact absurd (t.link_lt_of_lt hb hba hl) hd
  | case4 a b hab hba hl =>
    obtain ⟨d, hl'⟩ := ha
    simp [hl] at hl'
  | case5 a b hab hba d hl hd ih =>
    obtain ⟨hm, hx⟩ := ih ha (t.link_linked hl)
    refine ⟨hm, fun x => ?_⟩
    rw [hx, mem_chain_link hl hd]
    refine ⟨fun h => ⟨h.1, Or.inr h.2⟩, fun h => ⟨h.1, h.2.resolve_left ?_⟩⟩
    rintro rfl
    have := le_of_mem_chain h.1
    omega
  | case6 a b hab hba d hl hd => exact absurd (t.link_lt_of_lt ha (by omega) hl) hd
  | case7 a b hab hba hl =>
    obtain ⟨d, hl'⟩ := hb
    simp [hl] at hl'

theorem mem_chain_foldl_meet (t : IsTree links root) (rest : List (Fin n)) :
    ∀ first, links.Linked first → (∀ p ∈ rest, links.Linked p) →
      links.Linked (rest.foldl links.meet first) ∧
        ∀ x, x ∈ links.chain (rest.foldl links.meet first) ↔
          ∀ p ∈ first :: rest, x ∈ links.chain p := by
  induction rest with
  | nil => exact fun first hf _ => ⟨hf, by simp⟩
  | cons p rest ih =>
    intro first hf hr
    obtain ⟨hm, hx⟩ := t.mem_chain_meet first p hf (hr p List.mem_cons_self)
    obtain ⟨hl, hall⟩ := ih (links.meet first p) hm fun q hq => hr q (List.mem_cons_of_mem _ hq)
    refine ⟨hl, fun x => ?_⟩
    rw [List.foldl_cons, hall]
    simp [hx, and_assoc]

end IsTree

/-! ## Relinking one place -/

section
variable {preds : Fin n → List (Fin n)}

theorem get_relink_of_ne (hji : j ≠ i) : (relink preds root links i).get j = links.get j := by
  unfold relink
  split
  · rfl
  · split
    · rfl
    · rw [get_set, if_neg (Ne.symm hji)]

theorem get_relink_of_none (h : i = root ∨ ∀ p ∈ preds i, ¬ links.Linked p) :
    (relink preds root links i).get i = links.get i := by
  unfold relink
  split
  · rfl
  · next hr =>
    split
    · rfl
    · next first rest hf =>
      have hmem : first ∈ (preds i).filter fun p => (links.get p).isSome := by
        rw [hf]
        exact List.mem_cons_self
      rw [List.mem_filter, isSome_iff_linked] at hmem
      exact absurd hmem.2 (h.resolve_left hr first hmem.1)

/-- Any place but the root is linked to where the chains of its linked predecessors meet. -/
theorem get_relink (t : IsTree links root) (hr : i ≠ root) {q : Fin n} (hq : q ∈ preds i)
    (hl : links.Linked q) :
    ∃ m, (relink preds root links i).get i = some m ∧ links.Linked m ∧
      ∀ x, x ∈ links.chain m ↔ ∀ p ∈ preds i, links.Linked p → x ∈ links.chain p := by
  have hmem : ∀ p, p ∈ (preds i).filter (fun p => (links.get p).isSome) ↔
      p ∈ preds i ∧ links.Linked p :=
    fun p => by rw [List.mem_filter, isSome_iff_linked]
  unfold relink
  rw [if_neg hr]
  split
  · next hf =>
    have hq' := (hmem q).2 ⟨hq, hl⟩
    rw [hf] at hq'
    exact absurd hq' List.not_mem_nil
  · next first rest hf =>
    rw [hf] at hmem
    obtain ⟨hm, hx⟩ := t.mem_chain_foldl_meet rest first ((hmem first).1 List.mem_cons_self).2
      fun p hp => ((hmem p).1 (List.mem_cons_of_mem _ hp)).2
    refine ⟨rest.foldl links.meet first, by rw [get_set, if_pos rfl], hm, fun x => ?_⟩
    rw [hx]
    exact ⟨fun h p hp hl => h p ((hmem p).2 ⟨hp, hl⟩),
      fun h p hp => h p ((hmem p).1 hp).1 ((hmem p).1 hp).2⟩

/-! ## A pass -/

/-- The table that is `new` before a place and `old` from it on. -/
def mixed (new old : DominatorLinks n) (i : Fin n) : DominatorLinks n :=
  .ofFn fun v => if v < i then new.get v else old.get v

theorem get_mixed (new old : DominatorLinks n) (i j : Fin n) :
    (mixed new old i).get j = if j < i then new.get j else old.get j := by
  rw [mixed, get_ofFn]

theorem get_foldl_relink (places : List (Fin n)) (hj : j ∉ places) :
    ∀ links, (places.foldl (relink preds root) links).get j = links.get j := by
  induction places with
  | nil => exact fun _ => rfl
  | cons i places ih =>
    intro links
    rw [List.mem_cons, not_or] at hj
    rw [List.foldl_cons, ih hj.2, get_relink_of_ne hj.1]

theorem pass_split (links : DominatorLinks n) (i : Nat) :
    pass preds root links =
      ((List.finRange n).drop i).foldl (relink preds root)
        (((List.finRange n).take i).foldl (relink preds root) links) := by
  rw [pass, ← List.foldl_append, List.take_append_drop]

theorem mem_take_finRange {v : Fin n} : v ∈ (List.finRange n).take i ↔ v < i := by
  rw [List.mem_take_iff_getElem]
  constructor
  · rintro ⟨j, hj, rfl⟩
    rw [List.getElem_finRange]
    exact Nat.lt_of_lt_of_le hj (Nat.min_le_left _ _)
  · intro h
    refine ⟨v, ?_, ?_⟩
    · rw [List.length_finRange]
      exact Nat.lt_min.2 ⟨h, v.isLt⟩
    · rw [List.getElem_finRange]
      rfl

/-- When a pass comes to a place, those before it are done and the others untouched. -/
theorem foldl_relink_take (links : DominatorLinks n) (i : Fin n) :
    ((List.finRange n).take i).foldl (relink preds root) links =
      mixed (pass preds root links) links i := by
  have hnodup : ((List.finRange n).take i ++ (List.finRange n).drop i).Nodup := by
    rw [List.take_append_drop]
    exact List.nodup_finRange n
  have hapart := (List.nodup_append.1 hnodup).2.2
  apply ext_get
  intro v
  rw [get_mixed]
  split
  · next hlt =>
    rw [pass_split links i]
    exact (get_foldl_relink _ (fun h => hapart v (mem_take_finRange.2 hlt) v h rfl) _).symm
  · next hge => exact get_foldl_relink _ (fun h => hge (mem_take_finRange.1 h)) links

theorem get_pass (links : DominatorLinks n) (i : Fin n) :
    (pass preds root links).get i =
      (relink preds root (mixed (pass preds root links) links i) i).get i := by
  have hdrop : (List.finRange n).drop i = i :: (List.finRange n).drop (i + 1) := by
    rw [List.drop_eq_getElem_cons (by simp), List.getElem_finRange]
    rfl
  have hi : i ∉ (List.finRange n).drop (i + 1) := by
    have hnodup := (List.nodup_finRange n).sublist (List.drop_sublist i (List.finRange n))
    rw [hdrop] at hnodup
    exact (List.nodup_cons.1 hnodup).1
  calc (pass preds root links).get i
      = ((i :: (List.finRange n).drop (i + 1)).foldl (relink preds root)
          (((List.finRange n).take i).foldl (relink preds root) links)).get i := by
        rw [pass_split links i, hdrop]
    _ = (relink preds root (((List.finRange n).take i).foldl (relink preds root) links) i).get i := by
        rw [List.foldl_cons, get_foldl_relink _ hi]
    _ = _ := by rw [foldl_relink_take]

end
end Recovery.DominatorLinks
