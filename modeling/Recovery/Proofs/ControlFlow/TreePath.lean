import Mathlib.Logic.Relation
import Recovery.Proofs.ControlFlow.Ancestry
/-
  The path of a depth-first tree down to a vertex.

  Without cycles a search comes to a vertex `l` the first way it can: at each vertex
  it takes the first successor that leads to `l` (`Toward`). For as long as `l`
  is not found, nothing marked leads there (`Clear`), so no way to it is closed
  by what was visited before, and the vertices above `l` in the forest are those
  of that path (`DepthFirst.onBranch_iff`).

  An edge back to a vertex that guards its source is never followed by
  a search, so a forest of a graph is a forest of the graph without such edges
  (`DepthFirst.pruned`). Where one of them closes the only cycle, the vertices
  between its two ends in the tree are found by taking, from the upper end on, always the
  first successor in the loop (`DepthFirst.below_iff_loopStep`).
-/

namespace Recovery.Forest
variable {α : Type} {f : Forest α} {v w x l : α}
open Relation (ReflTransGen)

/-- Whether a vertex of a forest is another one or above it. -/
def OnBranch (f : Forest α) (x l : α) : Prop := l ∈ f.preorder ∧ (x = l ∨ f.Below x l)

theorem onBranch_root {c s : Forest α} (hf : (node l c s).preorder.Nodup) :
    (node l c s).OnBranch x l ↔ x = l := by
  rw [preorder, List.nodup_cons, List.mem_append, not_or] at hf
  obtain ⟨⟨hlc, hls⟩, -⟩ := hf
  constructor
  · rintro ⟨-, hx | hb⟩
    · exact hx
    · cases hb with
      | root hl => exact absurd hl hlc
      | child hb => exact absurd hb.mem_right hlc
      | sibling hb => exact absurd hb.mem_right hls
  · exact fun hx => ⟨List.mem_cons_self, Or.inl hx⟩

theorem onBranch_children {c s : Forest α} (hf : (node v c s).preorder.Nodup)
    (hl : l ∈ c.preorder) : (node v c s).OnBranch x l ↔ x = v ∨ c.OnBranch x l := by
  rw [preorder, List.nodup_cons, List.nodup_append] at hf
  obtain ⟨-, -, -, hcs⟩ := hf
  constructor
  · rintro ⟨-, hx | hb⟩
    · exact Or.inr ⟨hl, Or.inl hx⟩
    · cases hb with
      | root _ => exact Or.inl rfl
      | child hb => exact Or.inr ⟨hl, Or.inr hb⟩
      | sibling hb => exact absurd rfl (hcs l hl l hb.mem_right)
  · have hmem : l ∈ (node v c s).preorder := List.mem_cons_of_mem _ (List.mem_append_left _ hl)
    rintro (rfl | ⟨-, hx | hb⟩)
    · exact ⟨hmem, Or.inr (.root hl)⟩
    · exact ⟨hmem, Or.inl hx⟩
    · exact ⟨hmem, Or.inr (.child hb)⟩

theorem onBranch_siblings {c s : Forest α} (hv : l ≠ v) (hl : l ∉ c.preorder) :
    (node v c s).OnBranch x l ↔ s.OnBranch x l := by
  have hmem : l ∈ (node v c s).preorder ↔ l ∈ s.preorder := by
    rw [preorder, List.mem_cons, List.mem_append]
    simp [hv, hl]
  rw [OnBranch, OnBranch, hmem]
  refine and_congr_right fun _ => or_congr_right ⟨fun hb => ?_, .sibling⟩
  cases hb with
  | root hl' => exact absurd hl' hl
  | child hb => exact absurd hb.mem_right hl
  | sibling hb => exact hb

/-! ## The first way to a vertex -/

/-- `First p vs w`: of the vertices `vs`, `w` is the first that has `p`. -/
inductive First (p : α → Prop) : List α → α → Prop
  | here {v : α} {vs : List α} : p v → First p (v :: vs) v
  | later {v w : α} {vs : List α} : ¬ p v → First p vs w → First p (v :: vs) w

namespace First
variable {β : Type} {p q : α → Prop} {vs : List α}

theorem mem (h : First p vs w) : w ∈ vs := by
  induction h with
  | here _ => exact List.mem_cons_self
  | later _ _ ih => exact List.mem_cons_of_mem _ ih

theorem holds (h : First p vs w) : p w := by
  induction h with
  | here hp => exact hp
  | later _ _ ih => exact ih

theorem exists_of_mem (hv : v ∈ vs) (hp : p v) : ∃ w, First p vs w := by
  induction vs with
  | nil => cases hv
  | cons u vs ih =>
    by_cases hu : p u
    · exact ⟨u, .here hu⟩
    · rcases List.mem_cons.1 hv with rfl | hv
      · exact absurd hp hu
      · obtain ⟨w, hw⟩ := ih hv
        exact ⟨w, .later hu hw⟩

theorem unique (h : First p vs v) (h' : First p vs w) : v = w := by
  induction h with
  | here hp => cases h' with
    | here _ => rfl
    | later hn _ => exact absurd hp hn
  | later hn _ ih => cases h' with
    | here hp => exact absurd hp hn
    | later _ h' => exact ih h'

theorem congr (hpq : ∀ v ∈ vs, p v ↔ q v) (h : First p vs w) : First q vs w := by
  induction h with
  | here hp => exact .here ((hpq _ List.mem_cons_self).1 hp)
  | later hn _ ih =>
    exact .later (mt (hpq _ List.mem_cons_self).2 hn)
      (ih fun v hv => hpq v (List.mem_cons_of_mem _ hv))

theorem map_iff {p : β → Prop} {e : α → β} {b : β} :
    First p (vs.map e) b ↔ ∃ w, e w = b ∧ First (fun v => p (e v)) vs w := by
  induction vs with
  | nil =>
    refine iff_of_false (fun h => ?_) (fun ⟨_, _, h⟩ => ?_)
    · cases h
    · cases h
  | cons v vs ih =>
    constructor
    · intro h
      cases h with
      | here hp => exact ⟨v, rfl, .here hp⟩
      | later hn h =>
        obtain ⟨w, hw, h⟩ := ih.1 h
        exact ⟨w, hw, .later hn h⟩
    · rintro ⟨w, rfl, h⟩
      cases h with
      | here hp => exact .here hp
      | later hn h => exact .later hn (ih.2 ⟨w, rfl, h⟩)

end First

/-- `Toward next l u w`: of the successors of `u`, `w` is the first that leads to `l`. -/
def Toward (next : α → List α) (l u w : α) : Prop :=
  First (fun v => Reaches (Along next) v l) (next u) w

theorem Toward.rightUnique {next : α → List α} : Relator.RightUnique (Toward next l) :=
  fun _ _ _ h h' => First.unique h h'

theorem reaches_of_toward {next : α → List α} (h : ReflTransGen (Toward next l) v w) :
    Reaches (Along next) v w := by
  induction h with
  | refl => exact .refl v
  | tail _ e ih => exact ih.snoc e.mem

/-- `Clear next l pending seen`: what is marked is on no way from a pending vertex to `l`. -/
def Clear (next : α → List α) (l : α) (pending seen : List α) : Prop :=
  ∀ v ∈ pending, ∀ vs, Walk (Along next) v l vs → ∀ x ∈ vs, x ∉ seen

theorem Clear.children {next : α → List α} {pending seen : List α}
    (hclear : Clear next l (v :: pending) seen) (hacyclic : Acyclic (Along next)) :
    Clear next l (next v) (v :: seen) := by
  intro u hu us hus x hx hmem
  rcases List.mem_cons.1 hmem with rfl | hmem
  · exact hacyclic x u hu (hus.reaches_mem hx).1
  · have hvs : Walk (Along next) v l (v :: us) := .step hu hus
    exact hclear v List.mem_cons_self _ hvs x (List.mem_cons_of_mem _ hx) hmem

namespace DepthFirst
variable {next : α → List α} {seen mid : List α} {c : Forest α}

theorem not_reaches (hc : DepthFirst next (next v) (v :: seen) c mid)
    (hv : ¬ Reaches (Along next) v l) (hx : x ∈ c.preorder) : ¬ Reaches (Along next) x l := by
  intro hreach
  obtain ⟨w, hw, vs, hvs, -⟩ := hc.branch hx
  exact hv (.step hw (.trans ⟨vs, hvs⟩ hreach))

end DepthFirst

theorem Clear.siblings {next : α → List α} {pending seen mid : List α} {c : Forest α}
    (hclear : Clear next l (v :: pending) seen)
    (hc : DepthFirst next (next v) (v :: seen) c mid) (hv : ¬ Reaches (Along next) v l) :
    Clear next l pending mid := by
  intro u hu us hus x hx hmem
  have hreach := (hus.reaches_mem hx).2
  rcases (hc.mem_seen x).1 hmem with hxc | hxs
  · exact hc.not_reaches hv hxc hreach
  · rcases List.mem_cons.1 hxs with rfl | hxs
    · exact hv hreach
    · exact hclear u (List.mem_cons_of_mem _ hu) us hus x hx hxs

namespace DepthFirst
variable {next : α → List α} {pending seen seen' : List α} {r : α}

theorem filter {p : α → Bool} (hf : DepthFirst next pending seen f seen')
    (hp : ∀ v ∈ pending, p v = false → v ∈ seen) :
    DepthFirst next (pending.filter p) seen f seen' := by
  induction hf with
  | done seen => exact .done seen
  | @skip v _ _ _ _ hv _ ih =>
    have ih := ih fun u hu => hp u (List.mem_cons_of_mem _ hu)
    by_cases hpv : p v
    · rw [List.filter_cons_of_pos hpv]
      exact .skip hv ih
    · rw [List.filter_cons_of_neg hpv]
      exact ih
  | @visit v _ _ _ _ _ _ hv hc hs _ ihs =>
    have hpv : p v = true := by
      rw [← Bool.not_eq_false]
      exact fun h => hv (hp v List.mem_cons_self h)
    rw [List.filter_cons_of_pos hpv]
    refine .visit hv hc (ihs fun u hu h => ?_)
    exact (hc.mem_seen u).2 (Or.inr (List.mem_cons_of_mem _ (hp u (List.mem_cons_of_mem _ hu) h)))

/-- Without cycles, a search comes to a vertex the first way it can. -/
theorem onBranch_iff (h : DepthFirst next pending seen f seen') (hacyclic : Acyclic (Along next))
    (hclear : Clear next l pending seen)
    (hr : First (fun v => Reaches (Along next) v l) pending r) :
    f.OnBranch x l ↔ ReflTransGen (Toward next l) r x := by
  induction h generalizing r x with
  | done seen => cases hr
  | @skip v pending seen seen' f hv _ ih =>
    refine ih (fun u hu => hclear u (List.mem_cons_of_mem _ hu)) ?_
    cases hr with
    | here hreach =>
      obtain ⟨vs, hw⟩ := hreach
      exact absurd hv (hclear v List.mem_cons_self vs hw v hw.start_mem)
    | later _ hr => exact hr
  | @visit v pending seen mid seen' c s hv hc hs ihc ihs =>
    have hnodup := (DepthFirst.visit hv hc hs).nodup_preorder
    cases hr with
    | here hreach =>
      by_cases hvl : v = l
      · -- nothing leads on from `l` to `l`
        subst hvl
        rw [onBranch_root hnodup, Relation.ReflTransGen.cases_head_iff]
        refine ⟨fun hx => Or.inl hx.symm, fun hx => ?_⟩
        rcases hx with hx | ⟨w, hw, -⟩
        · exact hx.symm
        · exact absurd hw.holds (hacyclic v w hw.mem)
      · obtain ⟨vs, hw⟩ := hreach
        cases hw with
        | stop => exact absurd rfl hvl
        | step e hw =>
          obtain ⟨w, hfirst⟩ : ∃ w, Toward next l v w := First.exists_of_mem e ⟨_, hw⟩
          have hclear' := hclear.children hacyclic
          have hl : l ∈ c.preorder :=
            ((ihc hclear' hfirst (x := w)).2 .refl).1
          rw [onBranch_children hnodup hl, ihc hclear' hfirst,
            Relation.ReflTransGen.cases_head_iff (a := v)]
          refine or_congr eq_comm ⟨fun h => ⟨w, hfirst, h⟩, fun ⟨w', hw', h⟩ => ?_⟩
          rwa [First.unique hfirst hw']
    | later hnot hr =>
      have hvl : l ≠ v := fun h => hnot (h ▸ .refl _)
      rw [onBranch_siblings hvl fun hl => hc.not_reaches hnot hl (.refl l)]
      exact ihs (hclear.siblings hc hnot) hr

end DepthFirst

/-! ## The only way back -/

/-- `LoopStep next h l u w`: of the successors of `u`, which is not `l`, `w` is the first
that leads to `l` without passing `h`. -/
def LoopStep (next : α → List α) (h l u w : α) : Prop :=
  u ≠ l ∧ First (fun v => Bypasses (Along next) h v l) (next u) w

/-- `SingleLoop next r h l`: from `r`, the only way back is from `l` to `h`, and it
closes a loop that is entered at `h`. -/
structure SingleLoop (next : α → List α) (r h l : α) : Prop where
  reaches : Reaches (Along next) r l
  guards : Guards (Along next) r h l
  acyclic : Acyclic (Sparing (Along next) l h)

namespace SingleLoop
variable {next : α → List α} {seen' : List α} {h r : α}

theorem reverse (S : SingleLoop next r h l) : SingleLoop (fun v => (next v).reverse) r h l := by
  refine ⟨?_, ?_, ?_⟩
  · rw [along_reverse]
    exact S.reaches
  · rw [along_reverse]
    exact S.guards
  · rw [along_reverse]
    exact S.acyclic

theorem onBranch_head (S : SingleLoop next r h l) (hf : DepthFirst next [r] [] f seen') :
    f.OnBranch h l := by
  have hl : l ∈ f.preorder := (hf.mem_preorder_iff l).2 ⟨r, List.mem_singleton_self r, S.reaches⟩
  obtain ⟨r', hr', vs, hw, hvs⟩ := hf.branch hl
  rw [List.mem_singleton.1 hr'] at hw
  exact ⟨hl, hvs h (S.guards vs hw)⟩

end SingleLoop

/-! ## Edges no search follows -/

/-- The successors of every vertex, but for those that are cut off from it. -/
def pruned (next : α → List α) (cut : α → α → Bool) (u : α) : List α :=
  (next u).filter fun w => !cut u w

theorem along_pruned {next : α → List α} {cut : α → α → Bool} {u : α} :
    Along (pruned next cut) u w ↔ w ∈ next u ∧ cut u w = false := by
  rw [Along, pruned, List.mem_filter, Bool.not_eq_true']

/-- A search never follows an edge back to a vertex that guards its source: when it comes to
the source, the walk it came by is marked. -/
theorem DepthFirst.pruned {next : α → List α} {cut : α → α → Bool} {r : α}
    {pending seen seen' : List α} (hf : DepthFirst next pending seen f seen')
    (hcut : ∀ u w, cut u w = true → Guards (Along next) r w u)
    (htrail : ∀ v ∈ pending, ∃ vs, Walk (Along next) r v vs ∧ ∀ x ∈ vs, x = v ∨ x ∈ seen) :
    DepthFirst (Forest.pruned next cut) pending seen f seen' := by
  induction hf with
  | done seen => exact .done seen
  | skip hv _ ih => exact .skip hv (ih fun u hu => htrail u (List.mem_cons_of_mem _ hu))
  | @visit v pending seen mid seen' c s hv hc hs ihc ihs =>
    obtain ⟨vs, hw, hvs⟩ := htrail v List.mem_cons_self
    have hc' : DepthFirst (Forest.pruned next cut) (next v) (v :: seen) c mid := by
      refine ihc fun w hw' => ⟨vs ++ [w], hw.snoc hw', fun x hx => ?_⟩
      rcases List.mem_append.1 hx with hx | hx
      · exact Or.inr (List.mem_cons.2 (hvs x hx))
      · exact Or.inl (List.mem_singleton.1 hx)
    have hs' : DepthFirst (Forest.pruned next cut) pending mid s seen' := by
      refine ihs fun u hu => ?_
      obtain ⟨us, hu', hus⟩ := htrail u (List.mem_cons_of_mem _ hu)
      exact ⟨us, hu', fun x hx => (hus x hx).imp_right fun hx =>
        (hc.mem_seen x).2 (Or.inr (List.mem_cons_of_mem _ hx))⟩
    refine .visit hv (hc'.filter fun w _ hw' => ?_) hs'
    rw [Bool.not_eq_false'] at hw'
    exact List.mem_cons.2 (hvs w (hcut v w hw' vs hw))

section
variable [DecidableEq α] {next : α → List α} {h r : α}

/-- The successors of every vertex, but for those that lead from `l` to `h`. -/
def without (next : α → List α) (l h : α) (u : α) : List α :=
  if u = l then (next u).filter (· ≠ h) else next u

theorem without_of_ne {u : α} (hu : u ≠ l) : without next l h u = next u := if_neg hu

theorem along_without : Along (without next l h) = Sparing (Along next) l h := by
  funext u w
  refine propext ?_
  rw [Along, Sparing, without]
  split
  · next hu => rw [List.mem_filter, decide_eq_true_eq, Along, and_iff_right hu]
  · next hu => exact ⟨fun hw => ⟨hw, fun hw' => hu hw'.1⟩, And.left⟩

theorem without_eq_pruned :
    without next l h = pruned next fun u w => decide (u = l) && decide (w = h) := by
  funext u
  rw [without, pruned]
  split
  · next hu => simp [hu]
  · next hu => simp [hu]

namespace DepthFirst
variable {pending seen seen' : List α}

theorem without (hf : DepthFirst next pending seen f seen') (hguards : Guards (Along next) r h l)
    (htrail : ∀ v ∈ pending, ∃ vs, Walk (Along next) r v vs ∧ ∀ x ∈ vs, x = v ∨ x ∈ seen) :
    DepthFirst (Forest.without next l h) pending seen f seen' := by
  rw [without_eq_pruned]
  refine hf.pruned (fun u w hcut => ?_) htrail
  rw [Bool.and_eq_true, decide_eq_true_eq, decide_eq_true_eq] at hcut
  rw [hcut.1, hcut.2]
  exact hguards

end DepthFirst

namespace SingleLoop
variable {seen' : List α} {u : α}

theorem acyclic_without (S : SingleLoop next r h l) : Acyclic (Along (without next l h)) := by
  rw [along_without]
  exact S.acyclic

theorem depthFirst (S : SingleLoop next r h l) (hf : DepthFirst next [r] [] f seen') :
    DepthFirst (without next l h) [r] [] f seen' := by
  refine hf.without S.guards fun v hv => ?_
  rw [List.mem_singleton.1 hv]
  exact ⟨[r], .stop r, fun x hx => Or.inl (List.mem_singleton.1 hx)⟩

theorem exists_step_of_below (S : SingleLoop next r h l) (hf : DepthFirst next [r] [] f seen')
    (hb : f.Below v x) : ∃ w, Sparing (Along next) l h v w ∧
      Reaches (Sparing (Along next) l h) w x := by
  obtain ⟨w, hw, hreach⟩ := (S.depthFirst hf).exists_step_of_below hb
  have hstep : Along (without next l h) v w := hw
  rw [along_without] at hreach hstep
  exact ⟨w, hstep, hreach⟩

/-- From the head on, the tree path takes the first way to the end of the way back. -/
theorem below_iff_toward (S : SingleLoop next r h l) (hf : DepthFirst next [r] [] f seen') :
    (w = h ∨ f.Below h w ∧ f.OnBranch w l) ↔
      ReflTransGen (Toward (without next l h) l) h w := by
  have hf' := S.depthFirst hf
  have hacyclic := S.acyclic_without
  have hmem : l ∈ f.preorder := (S.onBranch_head hf).1
  have hiff {x : α} : f.OnBranch x l ↔ ReflTransGen (Toward (without next l h) l) r x := by
    obtain ⟨r', hr', hreach⟩ := (hf'.mem_preorder_iff l).1 hmem
    refine hf'.onBranch_iff hacyclic (fun _ _ _ _ _ _ hx => nomatch hx) (.here ?_)
    exact List.mem_singleton.1 hr' ▸ hreach
  have hhead := hiff.1 (S.onBranch_head hf)
  have noturn {y z : α} (hb : f.Below y z)
      (hp : ReflTransGen (Toward (without next l h) l) z y) : False := by
    obtain ⟨x, hx, hreach⟩ := hf'.exists_step_of_below hb
    exact hacyclic y x hx (hreach.trans (reaches_of_toward hp))
  constructor
  · rintro (rfl | ⟨hb, hw⟩)
    · exact .refl
    · rcases hhead.total_of_right_unique Toward.rightUnique (hiff.1 hw) with hp | hp
      · exact hp
      · exact (noturn hb hp).elim
  · intro hp
    have hw : f.OnBranch w l := hiff.2 (hhead.trans hp)
    -- both are above `l`, so one is above the other
    have hor : w = h ∨ f.Below h w ∨ f.Below w h := by
      rcases (S.onBranch_head hf).2 with rfl | hhl
      · rcases hw.2 with rfl | hwl
        · exact Or.inl rfl
        · exact Or.inr (Or.inr hwl)
      · rcases hw.2 with rfl | hwl
        · exact Or.inr (Or.inl hhl)
        · exact (hwl.comparable hf.nodup_preorder hhl).imp_right Or.symm
    rcases hor with hwh | hb | hb
    · exact Or.inl hwh
    · exact Or.inr ⟨hb, hw⟩
    · exact (noturn hb hp).elim

/-- Below the head, what leads to `l` without the way back leads there without passing
the head. -/
theorem toward_iff_loopStep (S : SingleLoop next r h l)
    (hu : ReflTransGen (Toward (without next l h) l) h u) :
    Toward (without next l h) l u w ↔ LoopStep next h l u w := by
  have hacyclic := S.acyclic_without
  by_cases hul : u = l
  · subst hul
    exact iff_of_false (fun hw => hacyclic u w hw.mem hw.holds) fun hw => hw.1 rfl
  have hleads (y : α) (hy : y ∈ next u) :
      Reaches (Along (without next l h)) y l ↔ Bypasses (Along next) h y l := by
    constructor
    · intro ⟨vs, hvs⟩
      refine ⟨vs, ?_, fun hh => ?_⟩
      · rw [along_without] at hvs
        exact hvs.mono fun _ _ => And.left
      · have hyu := Reaches.trans (hvs.reaches_mem hh).1 (reaches_of_toward hu)
        exact hacyclic u y (by rwa [Along, without_of_ne hul]) hyu
    · intro ⟨vs, hvs, hh⟩
      rw [along_without]
      exact ⟨vs, hvs.sparing hh⟩
  rw [Toward, without_of_ne hul, LoopStep, and_iff_right hul]
  exact ⟨.congr hleads, .congr fun y hy => (hleads y hy).symm⟩

/-- **The tree path around a loop.** From the head to the end of the way back, the tree
path takes the first successor in the loop each time. -/
theorem below_iff_loopStep (S : SingleLoop next r h l) (hf : DepthFirst next [r] [] f seen') :
    (w = h ∨ f.Below h w ∧ f.OnBranch w l) ↔ ReflTransGen (LoopStep next h l) h w := by
  rw [S.below_iff_toward hf]
  constructor
  · intro hp
    induction hp with
    | refl => exact .refl
    | tail hu e ih => exact ih.tail ((S.toward_iff_loopStep hu).1 e)
  · intro hp
    induction hp with
    | refl => exact .refl
    | tail _ e ih => exact ih.tail ((S.toward_iff_loopStep ih).2 e)

end SingleLoop
end

/-! ## Steps over other names -/

theorem loopStep_image_iff {β : Type} {next : α → List α} {flow : β → List β} {e : α → β}
    (hinj : ∀ a b, e a = e b → a = b) (hflow : ∀ a, flow (e a) = (next a).map e) {h l u : α}
    {b : β} : LoopStep flow (e h) (e l) (e u) b ↔ ∃ w, e w = b ∧ LoopStep next h l u w := by
  have hleads (v : α) : Bypasses (Along flow) (e h) (e v) (e l) ↔ Bypasses (Along next) h v l := by
    constructor
    · intro ⟨bs, hw, hh⟩
      obtain ⟨c, vs, hc, rfl, hvs⟩ := hw.lift (f := e) (E := Along next)
        (fun a b hab => List.mem_map.1 (hflow a ▸ hab) |>.imp fun c hc => ⟨hc.2, hc.1⟩) v rfl
      exact ⟨vs, hinj _ _ hc ▸ hvs, fun hh' => hh (List.mem_map_of_mem hh')⟩
    · intro ⟨vs, hw, hh⟩
      refine ⟨vs.map e, hw.map e fun a b hab => ?_, fun hh' => ?_⟩
      · rw [Along, hflow]
        exact List.mem_map_of_mem hab
      · obtain ⟨x, hx, hxh⟩ := List.mem_map.1 hh'
        exact hh (hinj _ _ hxh ▸ hx)
  rw [LoopStep, hflow, First.map_iff]
  constructor
  · intro ⟨hul, w, hw, hfirst⟩
    exact ⟨w, hw, fun h => hul (congrArg e h), hfirst.congr fun v _ => hleads v⟩
  · intro ⟨w, hw, hul, hfirst⟩
    exact ⟨fun h => hul (hinj _ _ h), w, hw, hfirst.congr fun v _ => (hleads v).symm⟩

theorem loopPath_image_iff {β : Type} {next : α → List α} {flow : β → List β} {e : α → β}
    (hinj : ∀ a b, e a = e b → a = b) (hflow : ∀ a, flow (e a) = (next a).map e) {h l v : α} :
    ReflTransGen (LoopStep flow (e h) (e l)) (e h) (e v) ↔
      ReflTransGen (LoopStep next h l) h v := by
  constructor
  · intro hp
    have himage {b : β} (hp : ReflTransGen (LoopStep flow (e h) (e l)) (e h) b) :
        ∃ w, e w = b ∧ ReflTransGen (LoopStep next h l) h w := by
      induction hp with
      | refl => exact ⟨h, rfl, .refl⟩
      | tail _ hstep ih =>
        obtain ⟨u, rfl, hu⟩ := ih
        obtain ⟨w, hw, hstep⟩ := (loopStep_image_iff hinj hflow).1 hstep
        exact ⟨w, hw, hu.tail hstep⟩
    obtain ⟨w, hw, hp⟩ := himage hp
    exact hinj _ _ hw ▸ hp
  · exact fun hp => hp.lift e fun _ w hstep => (loopStep_image_iff hinj hflow).2 ⟨w, rfl, hstep⟩

theorem bypasses_of_loopPath {next : α → List α} {h : α}
    (hp : ReflTransGen (LoopStep next h l) h w) : w = h ∨ Bypasses (Along next) h w l := by
  cases hp with
  | refl => exact Or.inl rfl
  | tail _ hstep => exact Or.inr hstep.2.holds

end Recovery.Forest
