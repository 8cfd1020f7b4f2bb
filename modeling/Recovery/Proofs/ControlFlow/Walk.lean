/-
  Walks along the edges of a relation.

  A walk is told by the vertices it visits, both ends included, so that a vertex
  lies on it when it is in that list. A vertex `x` guards `v` from `r` when no
  walk from `r` to `v` misses `x`; for the flow of a graph and its entry this is
  dominance as it is defined, without any mention of how it is computed.

  `Walk.map` and `Walk.lift` carry walks between a graph and a numbering of its
  vertices. `lift` asks that every edge out of a numbered vertex leads to
  a numbered one.
-/

namespace Recovery

/-- `Walk E u v vs`: the vertices `vs` lead from `u` to `v` along edges of `E`. -/
inductive Walk {α : Type} (E : α → α → Prop) : α → α → List α → Prop
  | stop (v : α) : Walk E v v [v]
  | step {u v w : α} {vs : List α} : E u v → Walk E v w vs → Walk E u w (u :: vs)

/-- The edges of a graph given by the successors of each vertex. -/
def Along {α : Type} (next : α → List α) (u v : α) : Prop := v ∈ next u

/-- Those that lead to vertices with some property. -/
def AlongTo {α : Type} (next : α → List α) (P : α → Prop) (u v : α) : Prop := v ∈ next u ∧ P v

/-- Whether some walk leads from one vertex to another. -/
def Reaches {α : Type} (E : α → α → Prop) (u v : α) : Prop := ∃ vs, Walk E u v vs

theorem along_reverse {α : Type} {next : α → List α} :
    Along (fun v => (next v).reverse) = Along next := by
  funext u v
  exact propext List.mem_reverse

theorem alongTo_congr {α : Type} {next : α → List α} {P Q : α → Prop} (h : ∀ v, P v ↔ Q v) :
    AlongTo next P = AlongTo next Q := congrArg (AlongTo next) (funext fun v => propext (h v))

/-- Whether every walk from `r` to `v` visits `x`. -/
def Guards {α : Type} (E : α → α → Prop) (r x v : α) : Prop := ∀ vs, Walk E r v vs → x ∈ vs

/-- Whether some walk from `u` to `v` misses `x`. -/
def Bypasses {α : Type} (E : α → α → Prop) (x u v : α) : Prop := ∃ vs, Walk E u v vs ∧ x ∉ vs

/-- The edges of a relation without the one from `a` to `b`. -/
def Sparing {α : Type} (E : α → α → Prop) (a b u v : α) : Prop := E u v ∧ ¬ (u = a ∧ v = b)

namespace Walk
variable {α β : Type} {E : α → α → Prop} {u v w : α} {vs ws : List α}

theorem start_mem (h : Walk E u v vs) : u ∈ vs := by
  cases h <;> simp

theorem end_mem (h : Walk E u v vs) : v ∈ vs := by
  induction h with
  | stop v => simp
  | step _ _ ih => exact List.mem_cons_of_mem _ ih

theorem snoc (h : Walk E u v vs) (e : E v w) : Walk E u w (vs ++ [w]) := by
  induction h with
  | stop v => exact .step e (.stop w)
  | step e' _ ih => exact .step e' (ih e)

theorem trans (h : Walk E u v vs) (h' : Walk E v w ws) :
    ∃ us, Walk E u w us ∧ ∀ x, x ∈ us ↔ x ∈ vs ∨ x ∈ ws := by
  induction h with
  | stop v =>
    refine ⟨ws, h', fun x => ?_⟩
    rw [List.mem_singleton]
    exact ⟨Or.inr, Or.rec (fun hx => hx ▸ h'.start_mem) id⟩
  | @step u v w vs e _ ih =>
    obtain ⟨us, hw, hus⟩ := ih h'
    refine ⟨u :: us, .step e hw, fun x => ?_⟩
    rw [List.mem_cons, List.mem_cons, hus, or_assoc]

theorem reverse (h : Walk E u v vs) : Walk (fun a b => E b a) v u vs.reverse := by
  induction h with
  | stop v => exact .stop v
  | step e _ ih =>
    rw [List.reverse_cons]
    exact ih.snoc e

theorem reaches_mem (h : Walk E u v vs) {x : α} (hx : x ∈ vs) :
    (∃ ws, Walk E u x ws) ∧ ∃ ws, Walk E x v ws := by
  induction h with
  | stop v =>
    rw [List.mem_singleton.1 hx]
    exact ⟨⟨_, .stop v⟩, _, .stop v⟩
  | step e hw ih =>
    rcases List.mem_cons.1 hx with rfl | hx
    · exact ⟨⟨_, .stop x⟩, _, .step e hw⟩
    · obtain ⟨⟨ws, hws⟩, hon⟩ := ih hx
      exact ⟨⟨_, .step e hws⟩, hon⟩

theorem map {F : β → β → Prop} (f : α → β) (hf : ∀ a b, E a b → F (f a) (f b))
    (h : Walk E u v vs) : Walk F (f u) (f v) (vs.map f) := by
  induction h with
  | stop v => exact .stop _
  | step e _ ih => exact .step (hf _ _ e) ih

theorem mono {F : α → α → Prop} (hEF : ∀ a b, E a b → F a b) (h : Walk E u v vs) :
    Walk F u v vs := by
  induction h with
  | stop v => exact .stop v
  | step e _ ih => exact .step (hEF _ _ e) ih

theorem mono_on {F : α → α → Prop} {P : α → Prop} (hEF : ∀ a b, P a → E a b → F a b ∧ P b)
    (h : Walk E u v vs) (hu : P u) : Walk F u v vs := by
  induction h with
  | stop v => exact .stop v
  | step e _ ih =>
    obtain ⟨hF, hv⟩ := hEF _ _ hu e
    exact .step hF (ih hv)

/-- A walk that misses a vertex takes no edge there. -/
theorem sparing {a b : α} (h : Walk E u v vs) (hb : b ∉ vs) : Walk (Sparing E a b) u v vs := by
  induction h with
  | stop v => exact .stop v
  | step e hw ih =>
    rw [List.mem_cons, not_or] at hb
    exact .step ⟨e, fun he => hb.2 (he.2 ▸ hw.start_mem)⟩ (ih hb.2)

/-- A walk that starts at an image of `f` is the image of a walk, when every edge
out of an image is the image of an edge. -/
theorem lift {F : β → β → Prop} {f : α → β} (hf : ∀ a b, F (f a) b → ∃ c, f c = b ∧ E a c)
    {x y : β} {ys : List β} (h : Walk F x y ys) :
    ∀ a, f a = x → ∃ c xs, f c = y ∧ xs.map f = ys ∧ Walk E a c xs := by
  induction h with
  | stop y => exact fun a ha => ⟨a, [a], ha, by simp [ha], .stop a⟩
  | @step x y z ys e _ ih =>
    intro a ha
    obtain ⟨c, hc, hac⟩ := hf a y (ha ▸ e)
    obtain ⟨d, xs, hd, hxs, hw⟩ := ih c hc
    exact ⟨d, a :: xs, hd, by simp [ha, hxs], .step hac hw⟩

end Walk

namespace Reaches
variable {α : Type} {E : α → α → Prop} {u v w : α}

theorem refl (v : α) : Reaches E v v := ⟨[v], .stop v⟩

theorem snoc (h : Reaches E u v) (e : E v w) : Reaches E u w := by
  obtain ⟨vs, hw⟩ := h
  exact ⟨vs ++ [w], hw.snoc e⟩

theorem step (e : E u v) (h : Reaches E v w) : Reaches E u w := by
  obtain ⟨vs, hw⟩ := h
  exact ⟨u :: vs, .step e hw⟩

theorem exists_step (h : Reaches E u w) (hne : w ≠ u) : ∃ v, E u v ∧ Reaches E v w := by
  obtain ⟨vs, hw⟩ := h
  cases hw with
  | stop => exact absurd rfl hne
  | step e hw => exact ⟨_, e, _, hw⟩

theorem trans (h : Reaches E u v) (h' : Reaches E v w) : Reaches E u w := by
  obtain ⟨vs, hw⟩ := h
  obtain ⟨ws, hw'⟩ := h'
  obtain ⟨us, hus, -⟩ := hw.trans hw'
  exact ⟨us, hus⟩

theorem closed {P : α → Prop} (h : Reaches E u v) (hE : ∀ a b, P a → E a b → P b) (hu : P u) :
    P v := by
  obtain ⟨vs, hw⟩ := h
  induction hw with
  | stop v => exact hu
  | step e _ ih => exact ih (hE _ _ hu e)

theorem turn {F : α → α → Prop} (hF : ∀ a b, E a b → F b a) (h : Reaches E u v) :
    Reaches F v u := by
  obtain ⟨vs, hw⟩ := h
  have hback := hw.reverse.map id fun a b hab => hF b a hab
  exact ⟨_, hback⟩

end Reaches

theorem bypasses_iff_not_guards {α : Type} {E : α → α → Prop} {x u v : α} :
    Bypasses E x u v ↔ ¬ Guards E u x v := by
  simp [Bypasses, Guards]

namespace Guards
variable {α : Type} {E : α → α → Prop} {r x v w : α}

/-- What guards a vertex, other than the vertex itself, guards its predecessors. -/
theorem of_edge (h : Guards E r x w) (hne : x ≠ w) (e : E v w) : Guards E r x v := by
  intro vs hw
  rcases List.mem_append.1 (h _ (hw.snoc e)) with hx | hx
  · exact hx
  · exact absurd (List.mem_singleton.1 hx) hne

theorem of_step (h : Guards E r x w) (hne : x ≠ r) (e : E r v) : Guards E v x w := by
  intro vs hw
  exact (List.mem_cons.1 (h _ (.step e hw))).resolve_left hne

end Guards

/-- No edge leads to where a walk leads back from. -/
def Acyclic {α : Type} (E : α → α → Prop) : Prop := ∀ u v, E u v → ¬ Reaches E v u

namespace Acyclic
variable {α : Type} {E : α → α → Prop}

theorem of_rank (rank : α → Nat) (h : ∀ u v, E u v → rank u < rank v) : Acyclic E := by
  have hle {u v : α} {vs : List α} (hw : Walk E u v vs) : rank u ≤ rank v := by
    induction hw with
    | stop v => exact Nat.le_refl _
    | step e _ ih => exact Nat.le_trans (Nat.le_of_lt (h _ _ e)) ih
  intro u v e ⟨vs, hw⟩
  exact absurd (hle hw) (Nat.not_le.2 (h u v e))

theorem turn (h : Acyclic E) : Acyclic fun u v => E v u :=
  fun u v e hback => h v u e (hback.turn fun _ _ => id)

end Acyclic
end Recovery
