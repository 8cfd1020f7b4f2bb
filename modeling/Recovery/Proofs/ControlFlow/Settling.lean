import Mathlib.Algebra.Order.BigOperators.Group.Finset
import Recovery.Proofs.ControlFlow.Links
/-
  Passes over dominator links settle, and settle at the guards of each place.

  `Ascending` is all that is used of the order of the places: each place the root
  reaches, but the root, has a predecessor before it that the root reaches too.
  `parent` names one such predecessor; nothing is said of the other edges, which
  may lead back, into the root, or from places the root does not reach.

  `Sound` is what holds of the links after each pass. Two of its clauses do the
  work. `stale` says that a link is never above what the predecessors agree on
  now, so the next pass can only move it up; since a link is a place and moves to
  earlier ones, passes settle (`settle_sound`). `guards` says that no guard of
  a place is ever lost from its chain, so what they settle at is the greatest
  solution and not any other (`mem_chain_compute`). Both are kept for one reason,
  stated once in `descend`: what holds of a place holds, as far up as it is
  concerned, of everything on the chain of that place.
-/

namespace Recovery.DominatorLinks
variable {n : Nat} {preds : Fin n → List (Fin n)} {root : Fin n} {parent : Fin n → Fin n}

/-- The edges between places, told by the predecessors of each. -/
def Edge (preds : Fin n → List (Fin n)) (p i : Fin n) : Prop := p ∈ preds i

/-- Every place but the root that the root reaches has an earlier predecessor,
its parent, that the root reaches. -/
structure Ascending (preds : Fin n → List (Fin n)) (root : Fin n) (parent : Fin n → Fin n) :
    Prop where
  parent_mem : ∀ {i : Fin n}, Reaches (Edge preds) root i → i ≠ root → parent i ∈ preds i
  parent_reached : ∀ {i : Fin n}, Reaches (Edge preds) root i → i ≠ root →
    Reaches (Edge preds) root (parent i)
  parent_lt : ∀ {i : Fin n}, Reaches (Edge preds) root i → i ≠ root → parent i < i

/-- What holds of the links between two passes. -/
structure Sound (preds : Fin n → List (Fin n)) (root : Fin n) (parent : Fin n → Fin n)
    (links : DominatorLinks n) : Prop where
  root_link : links.get root = some root
  reached : ∀ {i : Fin n}, links.Linked i → Reaches (Edge preds) root i
  parent_linked : ∀ {i : Fin n}, links.Linked i → i ≠ root → links.Linked (parent i)
  link_linked : ∀ {i d : Fin n}, links.get i = some d → links.Linked d
  link_mem : ∀ {i d : Fin n}, links.get i = some d → i ≠ root → d ∈ links.chain (parent i)
  stale : ∀ {i d x : Fin n}, links.get i = some d → i ≠ root → x < i →
    (∀ p ∈ preds i, links.Linked p → x ∈ links.chain p) → x ∈ links.chain d
  guards : ∀ {i x : Fin n}, links.Linked i → Guards (Edge preds) root x i → x ∈ links.chain i

namespace Sound
variable {links : DominatorLinks n} {i x : Fin n}

theorem isTree (A : Ascending preds root parent) (S : Sound preds root parent links) :
    links.IsTree root where
  root_link := S.root_link
  link_lt h hr := Fin.lt_of_le_of_lt (le_of_mem_chain (S.link_mem h hr))
    (A.parent_lt (S.reached ⟨_, h⟩) hr)
  link_linked := S.link_linked

/-- What holds of a place and is passed on to parents, as far as it concerns
places from `x` on, holds of all the chain of that place from `x` on. -/
theorem descend (A : Ascending preds root parent) (S : Sound preds root parent links)
    {P : Fin n → Prop} {f p : Fin n}
    (hP : ∀ q, Reaches (Edge preds) root q → q ≠ root → x ≠ q → P q → P (parent q))
    (hp : links.Linked p) (hf : f ∈ links.chain p) (hxf : x ≤ f) (h : P p) : P f := by
  induction p using upwards with
  | step p ih =>
    rcases mem_chain_iff.1 hf with rfl | ⟨d, hl, hd, hfd⟩
    · exact h
    · have hr : p ≠ root := by
        rintro rfl
        rw [S.root_link] at hl
        simp only [Option.some.injEq] at hl
        omega
      have hxp : x ≠ p := by
        have := le_of_mem_chain hfd
        omega
      have hreach := S.reached hp
      exact ih (parent p) (A.parent_lt hreach hr) (S.parent_linked hp hr)
        (mem_chain_trans hfd (S.link_mem hl hr)) (hP p hreach hr hxp h)

end Sound

/-! ## Chains of a table that is half done -/

section
variable {new old : DominatorLinks n} {i p x : Fin n}

theorem chain_mixed_of_lt (hp : p < i) : (mixed new old i).chain p = new.chain p := by
  induction p using upwards with
  | step p ih =>
    rw [chain, chain, get_mixed, if_pos hp]
    cases new.get p with
    | none => rfl
    | some d =>
      by_cases hd : d < p
      · simp only [hd, if_true, ih d hd (Fin.lt_trans hd hp)]
      · simp only [hd, if_false]

/-- A place of an old chain stays on it if no place below it that is new leaves it out. -/
theorem mem_chain_mixed (hx : x ∈ old.chain p) (hxi : x < i)
    (h : ∀ f ∈ old.chain p, f < i → x ≤ f → x ∈ new.chain f) :
    x ∈ (mixed new old i).chain p := by
  induction p using upwards with
  | step p ih =>
    by_cases hp : p < i
    · rw [chain_mixed_of_lt hp]
      exact h p (self_mem_chain _ _) hp (le_of_mem_chain hx)
    · rcases mem_chain_iff.1 hx with rfl | ⟨d, hl, hd, hxd⟩
      · exact absurd hxi hp
      · have hl' : (mixed new old i).get p = some d := by rw [get_mixed, if_neg hp, hl]
        refine (mem_chain_link hl' hd).2 (Or.inr (ih d hd hxd fun f hf => h f ?_))
        exact (mem_chain_link hl hd).2 (Or.inr hf)

theorem mem_chain_of_mixed (h : ∀ f ∈ old.chain p, f < i → ∀ y ∈ new.chain f, y ∈ old.chain f)
    (hx : x ∈ (mixed new old i).chain p) : x ∈ old.chain p := by
  induction p using upwards with
  | step p ih =>
    by_cases hp : p < i
    · rw [chain_mixed_of_lt hp] at hx
      exact h p (self_mem_chain _ _) hp x hx
    · rcases mem_chain_iff.1 hx with rfl | ⟨d, hl, hd, hxd⟩
      · exact self_mem_chain _ _
      · rw [get_mixed, if_neg hp] at hl
        refine (mem_chain_link hl hd).2 (Or.inr (ih d hd (fun f hf => h f ?_) hxd))
        exact (mem_chain_link hl hd).2 (Or.inr hf)

theorem linked_mixed : (mixed new old i).Linked p ↔ if p < i then new.Linked p else old.Linked p := by
  simp only [Linked, get_mixed]
  split <;> rfl

end

/-! ## One pass -/

/-- What a pass has made of one place, compared with the table before it. -/
structure Renewed (preds : Fin n → List (Fin n)) (root : Fin n) (parent : Fin n → Fin n)
    (old new : DominatorLinks n) (v : Fin n) : Prop where
  linked_iff : new.Linked v ↔ Reaches (Edge preds) root v
  link_le : ∀ {d : Fin n}, new.get v = some d → d ≤ v
  link_linked : ∀ {d : Fin n}, new.get v = some d → new.Linked d
  link_mem : ∀ {d : Fin n}, new.get v = some d → v ≠ root → d ∈ new.chain (parent v)
  chain_sub : old.Linked v → ∀ x ∈ new.chain v, x ∈ old.chain v
  guards : Reaches (Edge preds) root v → ∀ x, Guards (Edge preds) root x v → x ∈ new.chain v

section
variable {old : DominatorLinks n} {v : Fin n}

/-- The table a pass works on at a place is a tree, if the places before it are renewed. -/
theorem isTree_mixed (A : Ascending preds root parent) (S : Sound preds root parent old)
    {new : DominatorLinks n} (hroot : new.get root = some root)
    (h : ∀ j, j < v → Renewed preds root parent old new j) : (mixed new old v).IsTree root where
  root_link := by
    rw [get_mixed]
    split
    · exact hroot
    · exact S.root_link
  link_lt {i d} hl hr := by
    rw [get_mixed] at hl
    split at hl
    · next hi =>
      have hreach := (h i hi).linked_iff.1 ⟨d, hl⟩
      exact Fin.lt_of_le_of_lt (le_of_mem_chain ((h i hi).link_mem hl hr)) (A.parent_lt hreach hr)
    · exact (S.isTree A).link_lt hl hr
  link_linked {i d} hl := by
    rw [linked_mixed]
    rw [get_mixed] at hl
    split at hl
    · next hi =>
      rw [if_pos (Fin.lt_of_le_of_lt ((h i hi).link_le hl) hi)]
      exact (h i hi).link_linked hl
    · have hd := S.link_linked hl
      split
      · next hdv => exact (h d hdv).linked_iff.2 (S.reached hd)
      · exact hd

theorem get_pass_root (S : Sound preds root parent old) :
    (pass preds root old).get root = some root := by
  rw [get_pass, get_relink_of_none (Or.inl rfl), get_mixed, if_neg (by omega),
    S.root_link]

theorem linked_mixed_iff {new : DominatorLinks n}
    (h : ∀ j, j < v → Renewed preds root parent old new j) {p : Fin n} :
    (mixed new old v).Linked p ↔ if p < v then Reaches (Edge preds) root p else old.Linked p := by
  rw [linked_mixed]
  split
  · next hp => exact (h p hp).linked_iff
  · exact Iff.rfl

/-- A pass links a reached place to where the chains of its predecessors meet in
the half-done table, which is before the place. -/
theorem pass_link (A : Ascending preds root parent) (S : Sound preds root parent old)
    (hr : v ≠ root) (hreach : Reaches (Edge preds) root v)
    (h : ∀ j, j < v → Renewed preds root parent old (pass preds root old) j) :
    ∃ m, (pass preds root old).get v = some m ∧ m < v ∧
      (pass preds root old).Linked m ∧
      ∀ x, x ∈ (pass preds root old).chain m ↔
        ∀ p ∈ preds v, (mixed (pass preds root old) old v).Linked p →
          x ∈ (mixed (pass preds root old) old v).chain p := by
  have hplt := A.parent_lt hreach hr
  have hpl : (mixed (pass preds root old) old v).Linked (parent v) := by
    rw [linked_mixed_iff h, if_pos hplt]
    exact A.parent_reached hreach hr
  have ht := isTree_mixed A S (get_pass_root S) h
  obtain ⟨m, hm, hml, hx⟩ := get_relink ht hr (A.parent_mem hreach hr) hpl
  have hmv : m < v := Fin.lt_of_le_of_lt
    (le_of_mem_chain ((hx m).1 (self_mem_chain _ _) _ (A.parent_mem hreach hr) hpl)) hplt
  rw [linked_mixed, if_pos hmv] at hml
  refine ⟨m, by rw [get_pass, hm], hmv, hml, fun x => ?_⟩
  rw [← hx, chain_mixed_of_lt hmv]

theorem mem_chain_of_mem_mixed (A : Ascending preds root parent) (S : Sound preds root parent old)
    {new : DominatorLinks n} (h : ∀ j, j < v → Renewed preds root parent old new j)
    {p x : Fin n} (hp : old.Linked p) (hx : x ∈ (mixed new old v).chain p) : x ∈ old.chain p :=
  mem_chain_of_mixed
    (fun f hf hfv => (h f hfv).chain_sub ((S.isTree A).linked_of_mem_chain hp hf)) hx

theorem mem_mixed_of_guards (A : Ascending preds root parent) (S : Sound preds root parent old)
    {new : DominatorLinks n} (h : ∀ j, j < v → Renewed preds root parent old new j)
    {p x : Fin n} (hp : (mixed new old v).Linked p) (hxv : x < v)
    (hx : Guards (Edge preds) root x p) : x ∈ (mixed new old v).chain p := by
  rw [linked_mixed_iff h] at hp
  by_cases hpv : p < v
  · rw [if_pos hpv] at hp
    rw [chain_mixed_of_lt hpv]
    exact (h p hpv).guards hp x hx
  · rw [if_neg hpv] at hp
    apply mem_chain_mixed (S.guards hp hx) hxv
    intro f hf hfv hxf
    have hfg : Guards (Edge preds) root x f :=
      S.descend A (fun q hq hqr hxq hg => hg.of_edge hxq (A.parent_mem hq hqr)) hp hf hxf hx
    exact (h f hfv).guards (S.reached ((S.isTree A).linked_of_mem_chain hp hf)) x hfg

theorem renewed_root (S : Sound preds root parent old) :
    Renewed preds root parent old (pass preds root old) root := by
  have hl := get_pass_root S
  have hchain : (pass preds root old).chain root = [root] := by
    rw [chain, hl]
    simp
  constructor
  case linked_iff => exact ⟨fun _ => .refl root, fun _ => ⟨root, hl⟩⟩
  case link_le =>
    intro d hd
    rw [hl] at hd
    exact Fin.le_of_eq (Option.some.inj hd).symm
  case link_linked =>
    intro d hd
    rw [hl] at hd
    exact ⟨root, Option.some.inj hd ▸ hl⟩
  case link_mem => exact fun _ h => absurd rfl h
  case chain_sub =>
    intro _ x hx
    rw [hchain, List.mem_singleton] at hx
    rw [hx]
    exact self_mem_chain _ _
  case guards =>
    intro _ x hx
    rw [hchain]
    exact hx [root] (.stop root)

/-- A pass that relinks a place shrinks its chain: the new link is on the chain
of the old one, since that one is not stale. -/
theorem chain_pass_sub (A : Ascending preds root parent) (S : Sound preds root parent old)
    (hr : v ≠ root) (h : ∀ j, j < v → Renewed preds root parent old (pass preds root old) j)
    (ho : old.Linked v) : ∀ x ∈ (pass preds root old).chain v, x ∈ old.chain v := by
  intro x hxv
  obtain ⟨m, hm, hmv, -, hx⟩ := pass_link A S hr (S.reached ho) h
  obtain ⟨d, hd⟩ := ho
  have hmd : m ∈ old.chain d := by
    apply S.stale hd hr hmv
    intro p hp hpo
    refine mem_chain_of_mem_mixed A S h hpo ((hx m).1 (self_mem_chain _ _) p hp ?_)
    rw [linked_mixed_iff h]
    split
    · exact S.reached hpo
    · exact hpo
  have hmo : m ∈ old.chain v :=
    (mem_chain_link hd ((S.isTree A).link_lt hd hr)).2 (Or.inr hmd)
  rcases (mem_chain_link hm hmv).1 hxv with rfl | hxm
  · exact self_mem_chain _ _
  · have hmlo := (S.isTree A).linked_of_mem_chain (S.link_linked hd) hmd
    exact mem_chain_trans ((h m hmv).chain_sub hmlo x hxm) hmo

theorem mem_pass_of_guards (A : Ascending preds root parent) (S : Sound preds root parent old)
    (hr : v ≠ root) (hreach : Reaches (Edge preds) root v)
    (h : ∀ j, j < v → Renewed preds root parent old (pass preds root old) j) {x : Fin n}
    (hg : Guards (Edge preds) root x v) : x ∈ (pass preds root old).chain v := by
  obtain ⟨m, hm, hmv, -, hx⟩ := pass_link A S hr hreach h
  have hmem := A.parent_mem hreach hr
  have hplt := A.parent_lt hreach hr
  rw [mem_chain_link hm hmv]
  by_cases hxv : x = v
  · exact Or.inl hxv
  · have hxp := (h _ hplt).guards (A.parent_reached hreach hr) x (hg.of_edge hxv hmem)
    have hxlt : x < v := Fin.lt_of_le_of_lt (le_of_mem_chain hxp) hplt
    exact Or.inr ((hx x).2 fun p hp hpm =>
      mem_mixed_of_guards A S h hpm hxlt (hg.of_edge hxv hp))

theorem renewed_of_reached (A : Ascending preds root parent) (S : Sound preds root parent old)
    (hr : v ≠ root) (hreach : Reaches (Edge preds) root v)
    (h : ∀ j, j < v → Renewed preds root parent old (pass preds root old) j) :
    Renewed preds root parent old (pass preds root old) v := by
  obtain ⟨m, hm, hmv, hml, hx⟩ := pass_link A S hr hreach h
  have hplt := A.parent_lt hreach hr
  have hpl : (mixed (pass preds root old) old v).Linked (parent v) := by
    rw [linked_mixed_iff h, if_pos hplt]
    exact A.parent_reached hreach hr
  have hmp : m ∈ (pass preds root old).chain (parent v) := by
    rw [← chain_mixed_of_lt hplt]
    exact (hx m).1 (self_mem_chain _ _) _ (A.parent_mem hreach hr) hpl
  have eq_of {d : Fin n} (hd : (pass preds root old).get v = some d) : m = d :=
    Option.some.inj (hm.symm.trans hd)
  refine ⟨⟨fun _ => hreach, fun _ => ⟨m, hm⟩⟩, fun hd => ?_, fun hd => ?_, fun hd _ => ?_,
    chain_pass_sub A S hr h, fun _ x hg => mem_pass_of_guards A S hr hreach h hg⟩
  · exact eq_of hd ▸ Fin.le_of_lt hmv
  · exact eq_of hd ▸ hml
  · exact eq_of hd ▸ hmp

theorem renewed_of_not_reached (S : Sound preds root parent old)
    (hreach : ¬ Reaches (Edge preds) root v)
    (h : ∀ j, j < v → Renewed preds root parent old (pass preds root old) j) :
    Renewed preds root parent old (pass preds root old) v := by
  -- nothing that leads to an unreached place is linked
  have hno : ∀ p ∈ preds v, ¬ (mixed (pass preds root old) old v).Linked p := by
    intro p hp hl
    rw [linked_mixed_iff h] at hl
    split at hl
    · exact hreach (hl.snoc hp)
    · exact hreach ((S.reached hl).snoc hp)
  have hold : ¬ old.Linked v := fun hl => hreach (S.reached hl)
  have hnew : (pass preds root old).get v = old.get v := by
    rw [get_pass, get_relink_of_none (Or.inr hno), get_mixed, if_neg (by omega)]
  have hnl : ¬ (pass preds root old).Linked v := by
    rw [Linked, hnew]
    exact hold
  exact ⟨⟨fun h => absurd h hnl, fun h => absurd h hreach⟩, fun h => absurd ⟨_, h⟩ hnl,
    fun h => absurd ⟨_, h⟩ hnl, fun h => absurd ⟨_, h⟩ hnl, fun h => absurd h hold,
    fun h => absurd h hreach⟩

theorem renewed (A : Ascending preds root parent) (S : Sound preds root parent old) (v : Fin n) :
    Renewed preds root parent old (pass preds root old) v := by
  induction v using upwards with
  | step v ih =>
    by_cases hr : v = root
    · rw [hr]
      exact renewed_root S
    · by_cases hreach : Reaches (Edge preds) root v
      · exact renewed_of_reached A S hr hreach ih
      · exact renewed_of_not_reached S hreach ih

theorem Sound.pass (A : Ascending preds root parent) (S : Sound preds root parent old) :
    Sound preds root parent (pass preds root old) := by
  have R := renewed A S
  refine ⟨get_pass_root S, fun h => (R _).linked_iff.1 h, fun h hr => ?_,
    fun h => (R _).link_linked h, fun h => (R _).link_mem h, ?_,
    fun h hg => (R _).guards ((R _).linked_iff.1 h) _ hg⟩
  · exact (R _).linked_iff.2 (A.parent_reached ((R _).linked_iff.1 h) hr)
  · intro i d x hd hr hxi h
    obtain ⟨m, hm, hmv, -, hx⟩ :=
      pass_link A S hr ((R i).linked_iff.1 ⟨d, hd⟩) fun j _ => R j
    obtain rfl : m = d := Option.some.inj (hm.symm.trans hd)
    apply (hx x).2
    intro p hp hpm
    rw [linked_mixed_iff fun j _ => R j] at hpm
    by_cases hpi : p < i
    · rw [if_pos hpi] at hpm
      rw [chain_mixed_of_lt hpi]
      exact h p hp ((R p).linked_iff.2 hpm)
    · rw [if_neg hpi] at hpm
      have hxp := h p hp ((R p).linked_iff.2 (S.reached hpm))
      apply mem_chain_mixed ((R p).chain_sub hpm x hxp) hxi
      intro f hf hfi hxf
      -- a new chain holds, together with a place, all of it that is on the place's parent's
      refine S.descend A (P := fun q => x ∈ (DominatorLinks.pass preds root old).chain q)
        (fun q hq hqr hxq hxc => ?_) hpm hf hxf hxp
      obtain ⟨e, he⟩ := (R q).linked_iff.2 hq
      have heq := (R q).link_mem he hqr
      have hlt := Fin.lt_of_le_of_lt (le_of_mem_chain heq) (A.parent_lt hq hqr)
      exact mem_chain_trans (((mem_chain_link he hlt).1 hxc).resolve_left hxq) heq

end

/-! ## Passes settle -/

/-- How far down a link is; a place without one counts as below every place. -/
def depth (links : DominatorLinks n) (i : Fin n) : Nat :=
  match links.get i with
  | some d => d
  | none => n

def weight (links : DominatorLinks n) : Nat := ∑ i, links.depth i

theorem depth_le (links : DominatorLinks n) (i : Fin n) : links.depth i ≤ n := by
  unfold depth
  cases links.get i with
  | none => exact Nat.le_refl n
  | some d => exact Nat.le_of_lt d.isLt

theorem weight_le (links : DominatorLinks n) : links.weight ≤ n * n := by
  have := Finset.sum_le_card_nsmul Finset.univ links.depth n fun i _ => links.depth_le i
  simpa [weight] using this

theorem eq_of_depth_eq {old new : DominatorLinks n} (h : ∀ i, new.depth i = old.depth i) :
    new = old := by
  apply ext_get
  intro i
  have hd := h i
  simp only [depth] at hd
  cases hn : new.get i with
  | none =>
    cases ho : old.get i with
    | none => rfl
    | some e =>
      simp only [hn, ho] at hd
      omega
  | some d =>
    cases ho : old.get i with
    | none =>
      simp only [hn, ho] at hd
      omega
    | some e =>
      simp only [hn, ho] at hd
      rw [Fin.ext hd]

theorem weight_lt_of_depth_le {old new : DominatorLinks n} (hle : ∀ i, new.depth i ≤ old.depth i)
    (hne : new ≠ old) : new.weight < old.weight := by
  apply Finset.sum_lt_sum (fun i _ => hle i)
  by_contra hno
  push Not at hno
  exact hne (eq_of_depth_eq fun i => Nat.le_antisymm (hle i) (hno i (Finset.mem_univ i)))

section
variable {links : DominatorLinks n}

theorem depth_pass_le (A : Ascending preds root parent) (S : Sound preds root parent links)
    (i : Fin n) : (pass preds root links).depth i ≤ links.depth i := by
  have R := renewed A S i
  cases ho : links.get i with
  | none =>
    have : links.depth i = n := by rw [depth, ho]
    rw [this]
    exact depth_le _ i
  | some d =>
    obtain ⟨m, hm⟩ := R.linked_iff.2 (S.reached ⟨d, ho⟩)
    simp only [depth, ho, hm]
    by_cases hr : i = root
    · subst hr
      obtain rfl : i = m := Option.some.inj ((get_pass_root S).symm.trans hm)
      obtain rfl : i = d := Option.some.inj (S.root_link.symm.trans ho)
      exact Nat.le_refl _
    · have hmi : m < i := Fin.lt_of_le_of_lt (le_of_mem_chain (R.link_mem hm hr))
        (A.parent_lt (S.reached ⟨d, ho⟩) hr)
      have hmo := R.chain_sub ⟨d, ho⟩ m ((mem_chain_link hm hmi).2 (Or.inr (self_mem_chain _ _)))
      rcases (mem_chain_link ho ((S.isTree A).link_lt ho hr)).1 hmo with rfl | hmd
      · omega
      · exact le_of_mem_chain hmd

theorem weight_pass_lt (A : Ascending preds root parent) (S : Sound preds root parent links)
    (h : pass preds root links ≠ links) : (pass preds root links).weight < links.weight :=
  weight_lt_of_depth_le (depth_pass_le A S) h

theorem settle_sound (A : Ascending preds root parent) (passes : Nat) :
    ∀ links, Sound preds root parent links → links.weight < passes →
      Sound preds root parent (settle preds root passes links) ∧
        pass preds root (settle preds root passes links) = settle preds root passes links := by
  induction passes with
  | zero => exact fun _ _ h => absurd h (Nat.not_lt_zero _)
  | succ passes ih =>
    intro links S h
    rw [settle]
    split
    · next hfix => exact ⟨S, hfix⟩
    · next hne =>
      have := weight_pass_lt A S hne
      exact ih _ (S.pass A) (by omega)

theorem sound_start : Sound preds root parent (start root) := by
  have hget (i : Fin n) : (start root).get i = if root = i then some root else none := by
    rw [start, get_set, get_replicate]
  have hroot {i d : Fin n} (h : (start root).get i = some d) : i = root ∧ d = root := by
    rw [hget] at h
    split at h
    · next hi => exact ⟨hi.symm, (Option.some.inj h).symm⟩
    · cases h
  have hlink : (start root).get root = some root := by rw [hget, if_pos rfl]
  constructor
  case root_link => exact hlink
  case reached =>
    intro i ⟨d, h⟩
    rw [(hroot h).1]
    exact .refl root
  case parent_linked =>
    intro i ⟨d, h⟩ hr
    exact absurd (hroot h).1 hr
  case link_linked =>
    intro i d h
    rw [(hroot h).2]
    exact ⟨root, hlink⟩
  case link_mem =>
    intro i d h hr
    exact absurd (hroot h).1 hr
  case stale =>
    intro i d x h hr
    exact absurd (hroot h).1 hr
  case guards =>
    intro i x ⟨d, h⟩ hg
    rw [(hroot h).1] at hg ⊢
    have hx := hg [root] (.stop root)
    rw [List.mem_singleton] at hx
    rw [hx]
    exact self_mem_chain _ _

/-- The settled links are sound, and one more pass would not change them. -/
theorem compute_sound (A : Ascending preds root parent) :
    Sound preds root parent (compute preds root) ∧
      pass preds root (compute preds root) = compute preds root := by
  apply settle_sound A _ _ sound_start
  have := weight_le (start root)
  have : n * n ≤ n * (n + 1) := Nat.mul_le_mul_left n (Nat.le_succ n)
  omega

/-! ## What they settle at -/

theorem linked_compute (A : Ascending preds root parent) {i : Fin n} :
    (compute preds root).Linked i ↔ Reaches (Edge preds) root i := by
  obtain ⟨S, hfix⟩ := compute_sound A
  have := (renewed A S i).linked_iff
  rwa [hfix] at this

theorem mem_chain_start (A : Ascending preds root parent) {u v x : Fin n} {vs : List (Fin n)}
    (h : Walk (Edge preds) u v vs) (hu : Reaches (Edge preds) root u) (hx : x ∉ vs)
    (hxv : x ∈ (compute preds root).chain v) : x ∈ (compute preds root).chain u := by
  obtain ⟨S, hfix⟩ := compute_sound A
  induction h with
  | stop v => exact hxv
  | @step u v w vs e hw ih =>
    rw [List.mem_cons, not_or] at hx
    have hv := hu.snoc e
    have hxv' := ih hv hx.2 hxv
    have hne : x ≠ v := fun h => hx.2 (h ▸ hw.start_mem)
    by_cases hr : v = root
    · subst hr
      rw [(S.isTree A).chain_root, List.mem_singleton] at hxv'
      exact absurd hxv' hne
    · obtain ⟨m, hm, hmv, -, hmem⟩ := pass_link A S hr hv fun j _ => renewed A S j
      have hsame : mixed (compute preds root) (compute preds root) v = compute preds root :=
        ext_get fun j => by rw [get_mixed, ite_self]
      simp only [hfix, hsame] at hm hmem
      have hxm := ((mem_chain_link hm hmv).1 hxv').resolve_left hne
      exact (hmem x).1 hxm u e ((linked_compute A).2 hu)

/-- **Exactness.** The settled chain of a reached place holds its guards and
nothing else. -/
theorem mem_chain_compute (A : Ascending preds root parent) {i x : Fin n}
    (h : Reaches (Edge preds) root i) :
    x ∈ (compute preds root).chain i ↔ Guards (Edge preds) root x i := by
  obtain ⟨S, -⟩ := compute_sound A
  refine ⟨fun hx vs hw => ?_, S.guards ((linked_compute A).2 h)⟩
  by_contra hno
  have := mem_chain_start A hw (.refl root) hno hx
  rw [(S.isTree A).chain_root, List.mem_singleton] at this
  exact hno (this ▸ hw.start_mem)

end
end Recovery.DominatorLinks
