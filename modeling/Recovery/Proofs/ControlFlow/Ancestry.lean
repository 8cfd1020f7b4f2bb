import Mathlib.Data.List.Basic
import Recovery.Proofs.ControlFlow.DepthFirst
/-
  What hangs below what in a depth-first forest.

  `Below` is a fact about the shape of a forest. This module says how it can be
  told otherwise:

    1. stamps tell it, in both directions (`encloses_stampsIn`, `below_of_encloses`);
    2. the vertices above a given one stand in a line (`Below.comparable`);
    3. what hangs below a vertex is reached from it along at least one edge and
       without leaving what is below it (`DepthFirst.exists_walk_of_below`), so
       without coming back to what is above it (`DepthFirst.bypasses_of_below`);
    4. an edge leads to a vertex left earlier, or back up to one that its source
       hangs below (`DepthFirst.left_before_or_below`). Only the first is possible
       where no walk leads back (`DepthFirst.left_before_of_not_reaches`).
-/

namespace Recovery.Forest
variable {α : Type} {f : Forest α} {u v w x : α}

theorem Below.mem_left (h : f.Below v x) : v ∈ f.preorder := by
  induction h with
  | root _ => exact List.mem_cons_self
  | child _ ih => exact List.mem_cons_of_mem _ (List.mem_append_left _ ih)
  | sibling _ ih => exact List.mem_cons_of_mem _ (List.mem_append_right _ ih)

theorem Below.mem_right (h : f.Below v x) : x ∈ f.preorder := by
  induction h with
  | root hx => exact List.mem_cons_of_mem _ (List.mem_append_left _ hx)
  | child _ ih => exact List.mem_cons_of_mem _ (List.mem_append_left _ ih)
  | sibling _ ih => exact List.mem_cons_of_mem _ (List.mem_append_right _ ih)

theorem Below.comparable (hf : f.preorder.Nodup) (hv : f.Below v x) (hw : f.Below w x) :
    v = w ∨ f.Below v w ∨ f.Below w v := by
  induction f with
  | nil => cases hv
  | node r c s ihc ihs =>
    simp only [preorder, List.nodup_cons, List.nodup_append] at hf
    obtain ⟨-, hc, hs, hcs⟩ := hf
    have apart {y : α} (h₁ : y ∈ c.preorder) (h₂ : y ∈ s.preorder) : False := hcs y h₁ y h₂ rfl
    cases hv with
    | root hxc => cases hw with
      | root _ => exact Or.inl rfl
      | child hw => exact Or.inr (Or.inl (.root hw.mem_left))
      | sibling hw => exact absurd hw.mem_right (apart hxc)
    | child hv => cases hw with
      | root _ => exact Or.inr (Or.inr (.root hv.mem_left))
      | child hw => exact (ihc hc hv hw).imp_right (Or.imp .child .child)
      | sibling hw => exact absurd hw.mem_right (apart hv.mem_right)
    | sibling hv => cases hw with
      | root hxc => exact absurd hv.mem_right (apart hxc)
      | child hw => exact absurd hv.mem_right (apart hw.mem_right)
      | sibling hw => exact (ihs hs hv hw).imp_right (Or.imp .sibling .sibling)

/-! ## Stamps -/

section
variable [DecidableEq α]

theorem stampsIn_le (hv : v ∈ f.preorder) :
    (stampsIn f.events v).1 ≤ f.events.length ∧ (stampsIn f.events v).2 ≤ f.events.length :=
  ⟨List.idxOf_lt_length_of_mem ((f.mem_events v).1.2 hv),
    List.idxOf_lt_length_of_mem ((f.mem_events v).2.2 hv)⟩

theorem stampsIn_root {c s : Forest α} (hv : v ∉ c.preorder) :
    stampsIn (node v c s).events v = (1, c.events.length + 2) := by
  have hl : .leave v ∉ c.events := fun h => hv ((c.mem_events v).2.1 h)
  rw [stampsIn, events, List.idxOf_cons_self, List.idxOf_cons_ne _ (by simp), List.idxOf_append,
    if_neg hl, List.idxOf_cons_self]
  simp only [Nat.zero_add]

theorem stampsIn_child {r : α} {c s : Forest α} (hr : r ≠ v) (hv : v ∈ c.preorder) :
    stampsIn (node r c s).events v =
      ((stampsIn c.events v).1 + 1, (stampsIn c.events v).2 + 1) := by
  have he := (c.mem_events v).1.2 hv
  have hl := (c.mem_events v).2.2 hv
  rw [stampsIn, events, List.idxOf_cons_ne _ (by simp [hr]), List.idxOf_append, if_pos he,
    List.idxOf_cons_ne _ (by simp), List.idxOf_append, if_pos hl, stampsIn]

theorem stampsIn_sibling {r : α} {c s : Forest α} (hr : r ≠ v) (hv : v ∉ c.preorder) :
    stampsIn (node r c s).events v =
      ((stampsIn s.events v).1 + (c.events.length + 2),
        (stampsIn s.events v).2 + (c.events.length + 2)) := by
  have he : .enter v ∉ c.events := fun h => hv ((c.mem_events v).1.1 h)
  have hl : .leave v ∉ c.events := fun h => hv ((c.mem_events v).2.1 h)
  rw [stampsIn, events, List.idxOf_cons_ne _ (by simp [hr]), List.idxOf_append, if_neg he,
    List.idxOf_cons_ne _ (by simp), List.idxOf_cons_ne _ (by simp), List.idxOf_append, if_neg hl,
    List.idxOf_cons_ne _ (by simp [hr]), stampsIn]
  simp only [Prod.mk.injEq]
  omega

theorem below_of_encloses (hf : f.preorder.Nodup) (hv : v ∈ f.preorder) (hx : x ∈ f.preorder)
    (henter : (stampsIn f.events v).1 < (stampsIn f.events x).1)
    (hleave : (stampsIn f.events x).2 < (stampsIn f.events v).2) : f.Below v x := by
  induction f with
  | nil => cases hv
  | node r c s ihc ihs =>
    simp only [preorder, List.nodup_cons, List.mem_append, not_or, List.nodup_append] at hf
    obtain ⟨⟨hrc, hrs⟩, hc, hs, hcs⟩ := hf
    have apart {y : α} (h₁ : y ∈ s.preorder) : r ≠ y ∧ y ∉ c.preorder :=
      ⟨fun h => hrs (h ▸ h₁), fun h₂ => hcs y h₂ y h₁ rfl⟩
    have inside {y : α} (h₁ : y ∈ c.preorder) : r ≠ y := fun h => hrc (h ▸ h₁)
    simp only [preorder, List.mem_cons, List.mem_append] at hv hx
    rcases hx with rfl | hx | hx
    · -- nothing is entered before the root
      rw [stampsIn_root hrc, stampsIn] at henter
      simp only at henter
      omega
    · rw [stampsIn_child (inside hx) hx] at henter hleave
      rcases hv with rfl | hv | hv
      · exact .root hx
      · rw [stampsIn_child (inside hv) hv] at henter hleave
        exact .child (ihc hc hv hx (Nat.lt_of_add_lt_add_right henter)
          (Nat.lt_of_add_lt_add_right hleave))
      · -- siblings are entered after all children
        rw [stampsIn_sibling (apart hv).1 (apart hv).2] at henter
        have := (stampsIn_le hx).1
        simp only at henter
        omega
    · rw [stampsIn_sibling (apart hx).1 (apart hx).2] at henter hleave
      rcases hv with rfl | hv | hv
      · rw [stampsIn_root hrc] at hleave
        simp only at hleave
        omega
      · -- children are left before any sibling is
        rw [stampsIn_child (inside hv) hv] at hleave
        have := (stampsIn_le hv).2
        simp only at hleave
        omega
      · rw [stampsIn_sibling (apart hv).1 (apart hv).2] at henter hleave
        exact .sibling (ihs hs hv hx (Nat.lt_of_add_lt_add_right henter)
          (Nat.lt_of_add_lt_add_right hleave))

end

/-! ## Edges -/

namespace DepthFirst
variable {next : α → List α} {pending seen seen' : List α}

theorem eq_nil_of_pending (h : DepthFirst next pending seen f seen')
    (hp : ∀ v ∈ pending, v ∈ seen) : f = nil := by
  induction h with
  | done seen => rfl
  | skip _ _ ih => exact ih fun v hv => hp v (List.mem_cons_of_mem _ hv)
  | visit hv _ _ _ _ => exact absurd (hp _ List.mem_cons_self) hv

/-- A vertex leads to what hangs below it, by at least one edge and from then on below it. -/
theorem exists_walk_of_below (h : DepthFirst next pending seen f seen') (hb : f.Below v x) :
    ∃ w ∈ next v, ∃ vs, Walk (Along next) w x vs ∧ ∀ y ∈ vs, f.Below v y := by
  induction h with
  | done seen => cases hb
  | skip _ _ ih => exact ih hb
  | visit _ hc _ ihc ihs =>
    cases hb with
    | root hx =>
      obtain ⟨w, hw, vs, hvs, hbranch⟩ := hc.branch hx
      refine ⟨w, hw, vs, hvs, fun y hy => .root ?_⟩
      rcases hbranch y hy with rfl | hyx
      · exact hx
      · exact hyx.mem_left
    | child hb =>
      obtain ⟨w, hw, vs, hvs, hbelow⟩ := ihc hb
      exact ⟨w, hw, vs, hvs, fun y hy => .child (hbelow y hy)⟩
    | sibling hb =>
      obtain ⟨w, hw, vs, hvs, hbelow⟩ := ihs hb
      exact ⟨w, hw, vs, hvs, fun y hy => .sibling (hbelow y hy)⟩

theorem exists_step_of_below (h : DepthFirst next pending seen f seen') (hb : f.Below v x) :
    ∃ w ∈ next v, Reaches (Along next) w x := by
  obtain ⟨w, hw, vs, hvs, -⟩ := h.exists_walk_of_below hb
  exact ⟨w, hw, vs, hvs⟩

theorem bypasses_of_below [DecidableEq α] (h : DepthFirst next pending seen f seen')
    (huv : f.Below u v) (hvx : f.Below v x) : Bypasses (Along next) u v x := by
  have asymm {y : α} (huy : f.Below u y) (hyu : f.Below y u) : False := by
    have henter := (encloses_stampsIn h.nodup_preorder huy).1
    have henter' := (encloses_stampsIn h.nodup_preorder hyu).1
    omega
  obtain ⟨w, hw, vs, hvs, hbelow⟩ := h.exists_walk_of_below hvx
  refine ⟨v :: vs, .step hw hvs, fun hu => ?_⟩
  rcases List.mem_cons.1 hu with rfl | hu
  · exact asymm huv huv
  · exact asymm huv (hbelow u hu)

/-- An edge leads to a vertex marked before, to one left earlier, or back up. -/
theorem left_before_or_below (h : DepthFirst next pending seen f seen') (hv : v ∈ f.preorder)
    (hw : w ∈ next v) :
    w ∈ seen ∨ w = v ∨ f.Below w v ∨ [w, v].Sublist f.postorder := by
  induction h with
  | done seen => cases hv
  | skip _ _ ih => exact ih hv
  | @visit u pending seen mid seen' c s _ hc hs ihc ihs =>
    have hchildren {l : List α} (hl : l.Sublist c.postorder) :
        l.Sublist (node u c s).postorder := hl.trans (List.sublist_append_left _ _)
    have hsiblings {l : List α} (hl : l.Sublist s.postorder) :
        l.Sublist (node u c s).postorder :=
      hl.trans ((List.sublist_cons_self _ _).trans (List.sublist_append_right _ _))
    have mem_left {y : α} (hy : y ∈ c.preorder) : [y].Sublist c.postorder :=
      List.singleton_sublist.2 (c.postorder_perm_preorder.mem_iff.2 hy)
    simp only [preorder, List.mem_cons, List.mem_append] at hv
    rcases hv with rfl | hv | hv
    · rcases (hc.mem_seen w).1 (hc.seen_of_pending hw) with hwc | hws
      · exact Or.inr (Or.inr (Or.inr ((mem_left hwc).append
          (List.singleton_sublist.2 List.mem_cons_self))))
      · rcases List.mem_cons.1 hws with rfl | hws
        · exact Or.inr (Or.inl rfl)
        · exact Or.inl hws
    · rcases ihc hv with hws | rfl | hb | hsub
      · rcases List.mem_cons.1 hws with rfl | hws
        · exact Or.inr (Or.inr (Or.inl (.root hv)))
        · exact Or.inl hws
      · exact Or.inr (Or.inl rfl)
      · exact Or.inr (Or.inr (Or.inl (.child hb)))
      · exact Or.inr (Or.inr (Or.inr (hchildren hsub)))
    · -- all that the tree of `u` holds is left before its siblings are
      have hvs : [v].Sublist s.postorder :=
        List.singleton_sublist.2 (s.postorder_perm_preorder.mem_iff.2 hv)
      rcases ihs hv with hws | rfl | hb | hsub
      · rcases (hc.mem_seen w).1 hws with hwc | hws
        · exact Or.inr (Or.inr (Or.inr ((mem_left hwc).append (.cons _ hvs))))
        · rcases List.mem_cons.1 hws with rfl | hws
          · exact Or.inr (Or.inr (Or.inr ((hvs.cons_cons w).trans
              (List.sublist_append_right _ _))))
          · exact Or.inl hws
      · exact Or.inr (Or.inl rfl)
      · exact Or.inr (Or.inr (Or.inl (.sibling hb)))
      · exact Or.inr (Or.inr (Or.inr (hsiblings hsub)))

theorem left_before_of_not_reaches (h : DepthFirst next pending [] f seen') (hv : v ∈ f.preorder)
    (hw : w ∈ next v) (hback : ¬ Reaches (Along next) w v) : [w, v].Sublist f.postorder := by
  rcases h.left_before_or_below hv hw with hs | rfl | hb | hsub
  · cases hs
  · exact absurd (.refl w) hback
  · obtain ⟨y, hy, hreach⟩ := h.exists_step_of_below hb
    exact absurd (.step hy hreach) hback
  · exact hsub

end DepthFirst
end Recovery.Forest
