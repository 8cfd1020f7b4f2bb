import Recovery.ControlFlow.DepthFirst
import Recovery.Proofs.ControlFlow.Walk
/-
  What a depth-first search guarantees.

  `DepthFirst` says of a forest that it is what a search grows, with no bound on
  its depth; `depthFirst_grow` shows that the bounded search grows such a forest
  whenever its depth is at least the number of vertices not yet seen. Everything
  else is by induction on `DepthFirst`:

    1. the forest holds each vertex once, and exactly the vertices that its roots
       reach through vertices not marked before (`mem_preorder_iff_unmarked`);
    2. a vertex that is no root stands below a predecessor that is left later
       (`DepthFirst.parent`);
    3. the tree path down to a vertex is a walk whose other vertices all have it
       below them (`DepthFirst.branch`), and stamps tell what is below what
       (`encloses_stampsIn`).
-/

namespace Recovery.Forest
variable {α : Type}

/-- `f.Below v x`: in the forest `f`, the vertex `x` hangs below `v`. -/
inductive Below : Forest α → α → α → Prop
  | root {v x : α} {c s : Forest α} : x ∈ c.preorder → Below (node v c s) v x
  | child {r v x : α} {c s : Forest α} : Below c v x → Below (node r c s) v x
  | sibling {r v x : α} {c s : Forest α} : Below s v x → Below (node r c s) v x

/-- `DepthFirst next pending seen f seen'`: taking the pending vertices in turn,
with `seen` marked before, grows the forest `f` and leaves `seen'` marked. -/
inductive DepthFirst (next : α → List α) : List α → List α → Forest α → List α → Prop
  | done (seen : List α) : DepthFirst next [] seen nil seen
  | skip {v : α} {pending seen seen' : List α} {f : Forest α} :
      v ∈ seen → DepthFirst next pending seen f seen' →
      DepthFirst next (v :: pending) seen f seen'
  | visit {v : α} {pending seen mid seen' : List α} {c s : Forest α} :
      v ∉ seen → DepthFirst next (next v) (v :: seen) c mid →
      DepthFirst next pending mid s seen' →
      DepthFirst next (v :: pending) seen (node v c s) seen'

/-! ## The bounded search is a depth-first search -/

section
variable [DecidableEq α] {next : α → List α} {vertices : List α}

/-- How many vertices of a list are not marked yet. -/
def unseen (vertices seen : List α) : Nat := vertices.countP fun v => decide (v ∉ seen)

theorem unseen_le_length (seen : List α) : unseen vertices seen ≤ vertices.length :=
  List.countP_le_length

theorem unseen_le {s t : List α} (h : ∀ x ∈ s, x ∈ t) : unseen vertices t ≤ unseen vertices s := by
  apply List.countP_mono_left
  intro x _ hx
  simp only [decide_eq_true_eq] at hx ⊢
  exact fun hs => hx (h x hs)

theorem unseen_cons_lt {v : α} {seen : List α} (hv : v ∈ vertices) (hs : v ∉ seen) :
    unseen vertices (v :: seen) < unseen vertices seen := by
  obtain ⟨l, r, rfl⟩ := List.append_of_mem hv
  have hl : unseen l (v :: seen) ≤ unseen l seen := unseen_le fun x hx => List.mem_cons_of_mem _ hx
  have hr : unseen r (v :: seen) ≤ unseen r seen := unseen_le fun x hx => List.mem_cons_of_mem _ hx
  have h₀ : decide (v ∉ v :: seen) = false := by simp
  have h₁ : decide (v ∉ seen) = true := by simp [hs]
  simp only [unseen, List.countP_append, List.countP_cons, h₀, h₁, if_true, Bool.false_eq_true,
    if_false] at hl hr ⊢
  omega

theorem mem_of_unseen_eq_zero {v : α} {seen : List α} (h : unseen vertices seen = 0)
    (hv : v ∈ vertices) : v ∈ seen := by
  have := List.countP_eq_zero.1 h v hv
  simpa using this

/-- A search as deep as there are unmarked vertices is a depth-first search. -/
theorem depthFirst_grow (hclosed : ∀ v ∈ vertices, ∀ w ∈ next v, w ∈ vertices) (depth : Nat) :
    ∀ (pending seen : List α), (∀ v ∈ pending, v ∈ vertices) → unseen vertices seen ≤ depth →
      DepthFirst next pending seen (grow next depth pending seen).1
        (grow next depth pending seen).2 := by
  -- on the depth for the children, and within it on the pending vertices for the siblings
  induction depth with
  | zero =>
    intro pending seen hp hd
    induction pending with
    | nil => exact .done seen
    | cons v pending ih =>
      have hv := mem_of_unseen_eq_zero (Nat.le_zero.1 hd) (hp v List.mem_cons_self)
      exact .skip hv (ih fun w hw => hp w (List.mem_cons_of_mem _ hw))
  | succ depth ihd =>
    intro pending
    induction pending with
    | nil => exact fun seen _ _ => .done seen
    | cons v pending ih =>
      intro seen hp hd
      have hp' : ∀ w ∈ pending, w ∈ vertices := fun w hw => hp w (List.mem_cons_of_mem _ hw)
      have hv := hp v List.mem_cons_self
      simp only [grow, sweep] at ih ⊢
      split
      · next hs => exact .skip hs (ih seen hp' hd)
      · next hs =>
        have hlt := unseen_cons_lt hv hs
        -- the sibling search starts with all that the children have marked
        refine .visit hs (ihd (next v) (v :: seen) (hclosed v hv) (by omega)) (ih _ hp' ?_)
        refine Nat.le_trans (unseen_le fun x hx => ?_) hd
        rw [mem_seen_grow]
        exact Or.inr (List.mem_cons_of_mem _ hx)

end

/-! ## Which vertices the forest holds -/

namespace DepthFirst
variable {next : α → List α} {pending seen seen' : List α} {f : Forest α}

theorem mem_seen (h : DepthFirst next pending seen f seen') (x : α) :
    x ∈ seen' ↔ x ∈ f.preorder ∨ x ∈ seen := by
  induction h with
  | done seen => simp [preorder]
  | skip _ _ ih => exact ih
  | visit _ _ _ ihc ihs =>
    simp only [ihs, ihc, preorder, List.mem_cons, List.mem_append]
    constructor
    · rintro (hx | hx | hx | hx) <;> simp [hx]
    · rintro ((hx | hx | hx) | hx) <;> simp [hx]

theorem fresh (h : DepthFirst next pending seen f seen') {x : α} (hx : x ∈ f.preorder) :
    x ∉ seen := by
  induction h with
  | done seen => simp [preorder] at hx
  | skip _ _ ih => exact ih hx
  | visit hv hc _ ihc ihs =>
    simp only [preorder, List.mem_cons, List.mem_append] at hx
    rcases hx with rfl | hx | hx
    · exact hv
    · exact fun hs => ihc hx (List.mem_cons_of_mem _ hs)
    · exact fun hs => ihs hx ((hc.mem_seen _).2 (Or.inr (List.mem_cons_of_mem _ hs)))

theorem nodup_preorder (h : DepthFirst next pending seen f seen') : f.preorder.Nodup := by
  induction h with
  | done seen => exact List.nodup_nil
  | skip _ _ ih => exact ih
  | visit hv hc hs ihc ihs =>
    simp only [preorder, List.nodup_cons, List.mem_append, not_or, List.nodup_append]
    refine ⟨⟨fun hx => hc.fresh hx List.mem_cons_self, fun hx => hs.fresh hx ?_⟩, ihc, ihs, ?_⟩
    · exact (hc.mem_seen _).2 (Or.inr List.mem_cons_self)
    · intro a ha b hb hab
      exact hs.fresh hb ((hc.mem_seen _).2 (Or.inl (hab ▸ ha)))

theorem seen_of_pending (h : DepthFirst next pending seen f seen') {v : α} (hv : v ∈ pending) :
    v ∈ seen' := by
  induction h with
  | done seen => simp at hv
  | skip hs h ih =>
    rcases List.mem_cons.1 hv with rfl | hv
    · exact (h.mem_seen _).2 (Or.inr hs)
    · exact ih hv
  | visit _ hc hs _ ihs =>
    rcases List.mem_cons.1 hv with rfl | hv
    · exact (hs.mem_seen _).2 (Or.inr ((hc.mem_seen _).2 (Or.inr List.mem_cons_self)))
    · exact ihs hv

theorem seen_of_next (h : DepthFirst next pending seen f seen') {v w : α}
    (hv : v ∈ f.preorder) (hw : w ∈ next v) : w ∈ seen' := by
  induction h with
  | done seen => simp [preorder] at hv
  | skip _ _ ih => exact ih hv
  | visit _ hc hs ihc ihs =>
    simp only [preorder, List.mem_cons, List.mem_append] at hv
    rcases hv with rfl | hv | hv
    · exact (hs.mem_seen _).2 (Or.inr (hc.seen_of_pending hw))
    · exact (hs.mem_seen _).2 (Or.inr (ihc hv))
    · exact ihs hv

theorem holds_of_closed (h : DepthFirst next pending seen f seen') {C : α → Prop}
    (hpending : ∀ v ∈ pending, v ∈ seen ∨ C v)
    (hclosed : ∀ v, C v → ∀ w ∈ next v, w ∈ seen ∨ C w) : ∀ x ∈ f.preorder, C x := by
  induction h with
  | done seen => exact fun x hx => nomatch hx
  | skip _ _ ih => exact ih (fun v hv => hpending v (List.mem_cons_of_mem _ hv)) hclosed
  | @visit v _ seen mid _ _ _ hv hc _ ihc ihs =>
    have hCv := (hpending v List.mem_cons_self).resolve_left hv
    intro x hx
    simp only [preorder, List.mem_cons, List.mem_append] at hx
    rcases hx with rfl | hx | hx
    · exact hCv
    · refine ihc (fun w hw => ?_) (fun u hu w hw => ?_) x hx
      · exact (hclosed v hCv w hw).imp_left (List.mem_cons_of_mem v)
      · exact (hclosed u hu w hw).imp_left (List.mem_cons_of_mem v)
    · have hmid (w : α) (hw : w ∈ seen) : w ∈ mid :=
        (hc.mem_seen w).2 (Or.inr (List.mem_cons_of_mem v hw))
      refine ihs (fun w hw => ?_) (fun u hu w hw => ?_) x hx
      · exact (hpending w (List.mem_cons_of_mem v hw)).imp_left (hmid w)
      · exact (hclosed u hu w hw).imp_left (hmid w)

/-! ## Tree paths -/

theorem parent (h : DepthFirst next pending seen f seen') {x : α} (hx : x ∈ f.preorder) :
    x ∈ pending ∨ ∃ p ∈ f.preorder, x ∈ next p ∧ [x, p].Sublist f.postorder := by
  induction h with
  | done seen => simp [preorder] at hx
  | skip _ _ ih => exact (ih hx).imp_left (List.mem_cons_of_mem _)
  | @visit v pending seen mid seen' c s _ _ _ ihc ihs =>
    simp only [preorder, List.mem_cons, List.mem_append, postorder] at hx ⊢
    rcases hx with rfl | hx | hx
    · exact Or.inl (Or.inl rfl)
    · -- a root among the children is left before `v`, the vertex that leads to it
      right
      rcases ihc hx with hp | ⟨p, hp, hxp, hsub⟩
      · refine ⟨v, Or.inl rfl, hp, ?_⟩
        have hxc : [x].Sublist c.postorder :=
          List.singleton_sublist.2 (c.postorder_perm_preorder.mem_iff.2 hx)
        exact hxc.append (List.singleton_sublist.2 List.mem_cons_self)
      · exact ⟨p, Or.inr (Or.inl hp), hxp, hsub.trans (List.sublist_append_left _ _)⟩
    · rcases ihs hx with hp | ⟨p, hp, hxp, hsub⟩
      · exact Or.inl (Or.inr hp)
      · refine Or.inr ⟨p, Or.inr (Or.inr hp), hxp, hsub.trans ?_⟩
        exact (List.sublist_cons_self _ _).trans (List.sublist_append_right _ _)

/-- The tree path from a root down to a vertex is a walk, and the vertex hangs
below all the others on it. -/
theorem branch (h : DepthFirst next pending seen f seen') {x : α} (hx : x ∈ f.preorder) :
    ∃ r ∈ pending, ∃ vs, Walk (Along next) r x vs ∧ ∀ v ∈ vs, v = x ∨ f.Below v x := by
  induction h with
  | done seen => simp [preorder] at hx
  | skip _ _ ih =>
    obtain ⟨r, hr, vs, hw, hb⟩ := ih hx
    exact ⟨r, List.mem_cons_of_mem _ hr, vs, hw, hb⟩
  | @visit v _ _ _ _ c s _ _ _ ihc ihs =>
    simp only [preorder, List.mem_cons, List.mem_append] at hx
    rcases hx with rfl | hx | hx
    · exact ⟨x, List.mem_cons_self, [x], .stop x, by simp⟩
    · obtain ⟨r, hr, vs, hw, hb⟩ := ihc hx
      refine ⟨v, List.mem_cons_self, v :: vs, .step hr hw, fun u hu => ?_⟩
      rcases List.mem_cons.1 hu with rfl | hu
      · exact Or.inr (.root hx)
      · exact (hb u hu).imp_right .child
    · obtain ⟨r, hr, vs, hw, hb⟩ := ihs hx
      exact ⟨r, List.mem_cons_of_mem _ hr, vs, hw, fun u hu => (hb u hu).imp_right .sibling⟩

/-- A forest holds what its unmarked roots reach through unmarked vertices. -/
theorem mem_preorder_iff_unmarked (h : DepthFirst next pending seen f seen') (x : α) :
    x ∈ f.preorder ↔ ∃ r ∈ pending, r ∉ seen ∧ Reaches (AlongTo next (· ∉ seen)) r x := by
  constructor
  · -- what is reached so is closed under edges to unmarked vertices
    let C (v : α) : Prop := ∃ r ∈ pending, r ∉ seen ∧ Reaches (AlongTo next (· ∉ seen)) r v
    refine h.holds_of_closed (C := C) (fun v hv => ?_) (fun v hv w hw => ?_) x
    · exact Classical.or_iff_not_imp_left.2 fun hs => ⟨v, hv, hs, .refl v⟩
    · obtain ⟨r, hr, hrs, hreach⟩ := hv
      exact Classical.or_iff_not_imp_left.2 fun hs => ⟨r, hr, hrs, hreach.snoc ⟨hw, hs⟩⟩
  · intro ⟨r, hr, hrs, hreach⟩
    -- so is the forest: all that is marked and was not before is in it
    have hroot : r ∈ f.preorder := ((h.mem_seen r).1 (h.seen_of_pending hr)).resolve_right hrs
    refine hreach.closed (fun v w hv e => ?_) hroot
    exact ((h.mem_seen w).1 (h.seen_of_next hv e.1)).resolve_right e.2

theorem mem_preorder_iff (h : DepthFirst next pending [] f seen') (x : α) :
    x ∈ f.preorder ↔ ∃ r ∈ pending, Reaches (Along next) r x := by
  have hall : AlongTo next (fun _ => True) = Along next := by
    funext u v
    exact propext ⟨And.left, fun h => ⟨h, trivial⟩⟩
  simp only [h.mem_preorder_iff_unmarked, List.not_mem_nil, not_false_eq_true, true_and, hall]

end DepthFirst

/-! ## Stamps -/

theorem mem_events (f : Forest α) (v : α) :
    (.enter v ∈ f.events ↔ v ∈ f.preorder) ∧ (.leave v ∈ f.events ↔ v ∈ f.preorder) := by
  induction f with
  | nil => simp [events, preorder]
  | node r c s ihc ihs =>
    simp only [events, preorder, List.mem_cons, List.mem_append, ihc, ihs, Visit.enter.injEq,
      Visit.leave.injEq, reduceCtorEq, false_or]
    exact ⟨trivial, or_left_comm⟩

theorem nodup_events {f : Forest α} (h : f.preorder.Nodup) : f.events.Nodup := by
  induction f with
  | nil => exact List.nodup_nil
  | node r c s ihc ihs =>
    simp only [preorder, List.nodup_cons, List.mem_append, not_or, List.nodup_append] at h
    obtain ⟨⟨hrc, hrs⟩, hc, hs, hcs⟩ := h
    have disjoint : ∀ a ∈ c.events, ∀ b ∈ s.events, a ≠ b := by
      intro a ha b hb hab
      subst hab
      cases a with
      | enter v => exact hcs v ((c.mem_events v).1.1 ha) v ((s.mem_events v).1.1 hb) rfl
      | leave v => exact hcs v ((c.mem_events v).2.1 ha) v ((s.mem_events v).2.1 hb) rfl
    simp only [events, List.nodup_cons, List.mem_append, List.mem_cons, not_or, List.nodup_append,
      mem_events, hrc, hrs, not_false_eq_true, reduceCtorEq, true_and, ihc hc, ihs hs]
    intro a ha b hb hab
    rcases hb with rfl | hb
    · subst hab
      exact hrc ((c.mem_events r).2.1 ha)
    · exact disjoint a ha b hb hab

theorem Below.events_sublist {f : Forest α} {v x : α} (h : f.Below v x) :
    [.enter v, .enter x].Sublist f.events ∧ [.leave x, .leave v].Sublist f.events := by
  induction h with
  | @root v x c s hx =>
    have he : [Visit.enter x].Sublist c.events :=
      List.singleton_sublist.2 ((c.mem_events x).1.2 hx)
    have hl : [Visit.leave x].Sublist c.events :=
      List.singleton_sublist.2 ((c.mem_events x).2.2 hx)
    simp only [events]
    refine ⟨(he.trans (List.sublist_append_left _ _)).cons_cons _, .cons _ ?_⟩
    exact hl.append (List.singleton_sublist.2 List.mem_cons_self)
  | child _ ih =>
    have hsub {l : List (Visit α)} (a b : Visit α) (t : List (Visit α)) :
        l.Sublist (a :: (l ++ b :: t)) := .cons _ (List.sublist_append_left _ _)
    exact ⟨ih.1.trans (hsub ..), ih.2.trans (hsub ..)⟩
  | sibling _ ih =>
    have hsub {l : List (Visit α)} (a b : Visit α) (t : List (Visit α)) :
        l.Sublist (a :: (t ++ b :: l)) :=
      .cons _ ((List.sublist_cons_self _ _).trans (List.sublist_append_right _ _))
    exact ⟨ih.1.trans (hsub ..), ih.2.trans (hsub ..)⟩

theorem idxOf_lt_of_sublist {β : Type} [DecidableEq β] {l : List β} {a b : β} (hl : l.Nodup)
    (h : [a, b].Sublist l) : l.idxOf a < l.idxOf b := by
  obtain ⟨l₁, l₂, rfl, ha, hb⟩ := List.cons_sublist_iff.1 h
  rw [List.singleton_sublist] at hb
  have hb' : b ∉ l₁ := fun hb₁ => (List.nodup_append.1 hl).2.2 b hb₁ b hb rfl
  rw [List.idxOf_append, if_pos ha, List.idxOf_append, if_neg hb']
  have := List.idxOf_lt_length_of_mem ha
  omega

theorem encloses_stampsIn [DecidableEq α] {f : Forest α} (hf : f.preorder.Nodup) {v x : α}
    (h : f.Below v x) :
    (stampsIn f.events v).1 < (stampsIn f.events x).1 ∧
      (stampsIn f.events x).2 < (stampsIn f.events v).2 := by
  obtain ⟨he, hl⟩ := h.events_sublist
  have hn := nodup_events hf
  have h1 := idxOf_lt_of_sublist hn he
  have h2 := idxOf_lt_of_sublist hn hl
  simp only [stampsIn]
  omega

end Recovery.Forest
