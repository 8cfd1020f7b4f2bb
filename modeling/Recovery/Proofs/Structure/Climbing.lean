import Recovery.Proofs.ControlFlow.Walk
import Recovery.Proofs.Vectors
import Recovery.Structure.PostDominators
/-
  Links that rise, and where two chains of them meet.

  A chain of links passes the nodes that `Climbs` tells. When every link leads to
  a higher `revOrder` the chains cannot go round, and a walk up two chains that
  share a node, with enough steps, ends at the first one (`exists_walk_settled`).
  A walk up chains that share none ends on the first of them if anywhere
  (`climbs_of_meet`). Where the exit stands above every node and has no way on, and
  every other node has a successor above it (`Summit`), every chain ends at the
  exit, so no walk runs out of chain before it settles (`exists_meet`).
-/

namespace Recovery.PostDominators
variable {n : Nat} {k : Numbering n} {links links' : PostDominators n} {u v w : Fin n}

/-- `Climbs links u v`: the chain of links from `u` passes `v`. -/
inductive Climbs (links : PostDominators n) : Fin n → Fin n → Prop
  | stop (v : Fin n) : Climbs links v v
  | step {u v w : Fin n} : links.get u = some v → Climbs links v w → Climbs links u w

/-- Whether every link leads upwards. -/
def Rising (k : Numbering n) (links : PostDominators n) : Prop :=
  ∀ v w, links.get v = some w → k.revOrder.get v < k.revOrder.get w

namespace Climbs

theorem trans (h : Climbs links u v) (h' : Climbs links v w) : Climbs links u w := by
  induction h with
  | stop v => exact h'
  | step hl _ ih => exact .step hl (ih h')

theorem le (hr : Rising k links) (h : Climbs links u v) :
    k.revOrder.get u ≤ k.revOrder.get v := by
  induction h with
  | stop v => exact Nat.le_refl _
  | step hl _ ih => exact Nat.le_trans (Nat.le_of_lt (hr _ _ hl)) ih

theorem eq_or_lt (hr : Rising k links) (h : Climbs links u v) :
    u = v ∨ k.revOrder.get u < k.revOrder.get v := by
  cases h with
  | stop => exact Or.inl rfl
  | step hl h => exact Or.inr (Nat.lt_of_lt_of_le (hr _ _ hl) (h.le hr))

theorem antisymm (hr : Rising k links) (h : Climbs links u v) (h' : Climbs links v u) : u = v :=
  (h.eq_or_lt hr).resolve_right (Nat.not_lt.2 (h'.le hr))

theorem congr (hr : Rising k links) (h : Climbs links u v)
    (hsame : ∀ y, k.revOrder.get u ≤ k.revOrder.get y → links'.get y = links.get y) :
    Climbs links' u v := by
  induction h with
  | stop v => exact .stop v
  | step hl _ ih =>
    refine .step ((hsame _ (Nat.le_refl _)).trans hl) (ih fun y hy => hsame y ?_)
    exact Nat.le_trans (Nat.le_of_lt (hr _ _ hl)) hy

end Climbs

/-- `Meets links a b c`: `c` is the first node on both chains. -/
structure Meets (links : PostDominators n) (a b c : Fin n) : Prop where
  left : Climbs links a c
  right : Climbs links b c
  first : ∀ d, Climbs links a d → Climbs links b d → Climbs links c d

namespace Meets
variable {a b c : Fin n}

theorem symm (h : Meets links a b c) : Meets links b a c :=
  ⟨h.right, h.left, fun d hb ha => h.first d ha hb⟩

theorem eq_left (hr : Rising k links) (h : Meets links a b c) (hb : Climbs links b a) : c = a :=
  (h.first a (.stop a) hb).antisymm hr h.left

theorem of_link {a' : Fin n} (ha : links.get a = some a') (hb : ¬ Climbs links b a)
    (h : Meets links a' b c) : Meets links a b c := by
  refine ⟨.step ha h.left, h.right, fun d hd hbd => ?_⟩
  cases hd with
  | stop => exact absurd hbd hb
  | step hl hd =>
    rw [ha] at hl
    cases hl
    exact h.first d hd hbd

end Meets

/-! ## Walks up two chains -/

/-- A walk with as many steps as two chains can have settles where they meet, when they do. -/
theorem exists_walk_settled (hbound : ∀ v, k.revOrder.get v < n)
    (hinj : ∀ u v, k.revOrder.get u = k.revOrder.get v → u = v) (hr : Rising k links)
    {p : Fin n} (steps : Nat) :
    ∀ a b, Climbs links a p → Climbs links b p →
      (n - k.revOrder.get a) + (n - k.revOrder.get b) ≤ steps + 1 →
      ∃ c, walk k links steps (some a) (some b) = .settled (some c) ∧ Meets links a b c := by
  induction steps with
  | zero =>
    intro a b _ _ hsteps
    have := hbound a
    have := hbound b
    omega
  | succ steps ih =>
    intro a b hap hbp hsteps
    have hba := hbound a
    have hbb := hbound b
    have hpa := hap.le hr
    have hpb := hbp.le hr
    rw [walk]
    split
    · next hab => exact ⟨a, rfl, .stop a, hab ▸ .stop a, fun d hd _ => hd⟩
    · next hab =>
      split
      · next hlt =>
        -- the lower side is not where the chains meet, so it has a link to go up
        cases hbp with
        | stop => omega
        | @step _ b' _ hb' hbp =>
          have hrise := hr b b' hb'
          obtain ⟨c, hc, hmeet⟩ := ih a b' hap hbp (by omega)
          rw [hb']
          refine ⟨c, hc, (Meets.of_link hb' (fun h => ?_) hmeet.symm).symm⟩
          exact Nat.not_lt.2 (h.le hr) hlt
      · next hle =>
        have hne : k.revOrder.get a ≠ k.revOrder.get b := fun h => hab (hinj a b h)
        cases hap with
        | stop => omega
        | @step _ a' _ ha' hap =>
          have hrise := hr a a' ha'
          obtain ⟨c, hc, hmeet⟩ := ih a' b hap hbp (by omega)
          rw [ha']
          refine ⟨c, hc, Meets.of_link ha' (fun h => ?_) hmeet⟩
          have hba := h.le hr
          omega

/-- With a limit of twice the number of nodes, chains with a node in common meet. -/
theorem exists_meet_of_common (hbound : ∀ v, k.revOrder.get v < n)
    (hinj : ∀ u v, k.revOrder.get u = k.revOrder.get v → u = v) (hr : Rising k links)
    {limit : Nat} (hlimit : 2 * n ≤ limit) {a b p : Fin n} (hap : Climbs links a p)
    (hbp : Climbs links b p) :
    ∃ c, meet k limit links (some a) (some b) = some c ∧ Meets links a b c := by
  obtain ⟨c, hc, hmeet⟩ := exists_walk_settled hbound hinj hr limit a b hap hbp (by omega)
  refine ⟨c, ?_, hmeet⟩
  rw [meet, hc]

theorem climbs_of_walk {c : Fin n} (steps : Nat) :
    ∀ a b, walk k links steps a b = .settled (some c) → ∃ a', a = some a' ∧ Climbs links a' c := by
  induction steps with
  | zero => exact fun a b h => nomatch h
  | succ steps ih =>
    intro a b h
    rcases a with _ | a
    · exact nomatch h
    · refine ⟨a, rfl, ?_⟩
      rcases b with _ | b
      · cases h
        exact .stop _
      · rw [walk] at h
        split at h
        · cases h
          exact .stop _
        · split at h
          · obtain ⟨a', ha', hc⟩ := ih _ _ h
            cases ha'
            exact hc
          · obtain ⟨a', ha', hc⟩ := ih _ _ h
            exact .step ha' hc

/-- A link only moves along its own chain, also when the other chain ends first. -/
theorem climbs_of_meet {limit : Nat} {a c : Fin n} {b : Option (Fin n)}
    (h : meet k limit links (some a) b = some c) : Climbs links a c := by
  rcases b with _ | b
  · cases h
    exact .stop a
  · rw [meet] at h
    split at h
    · next hw =>
      obtain ⟨a', ha', hc⟩ := climbs_of_walk limit _ _ (hw.trans (congrArg _ h))
      cases ha'
      exact hc
    · cases h
      exact .stop a

/-! ## A node above all others -/

/-- What the numbers of a node graph say of its exit: it stands above every node and
leads nowhere, and every other node leads upwards. -/
structure Summit (g : NodeGraph) (k : Numbering g.size) (x : g.Node) : Prop where
  lt : ∀ v, v ≠ x → k.revOrder.get v < k.revOrder.get x
  rise : ∀ v, v ≠ x → ∃ s ∈ g.next v, k.revOrder.get v < k.revOrder.get s
  next_nil : g.next x = []
  bound : ∀ v, k.revOrder.get v < g.size
  injective : ∀ u v, k.revOrder.get u = k.revOrder.get v → u = v

section
variable {g : NodeGraph} {k : Numbering g.size} {x a b : g.Node} {links : PostDominators g.size}
  {m : Nat}

theorem Summit.ne_of_choice (S : Summit g k x) (ha : 2 ≤ (g.next a).length) : a ≠ x := by
  rintro rfl
  rw [S.next_nil] at ha
  exact absurd ha (Nat.not_le.2 Nat.two_pos)

theorem climbs_summit (S : Summit g k x) (hr : Rising k links)
    (hlinked : ∀ v, m ≤ k.revOrder.get v → v ≠ x → ∃ w, links.get v = some w) {v : g.Node}
    (hv : m ≤ k.revOrder.get v) : Climbs links v x := by
  induction hdist : g.size - k.revOrder.get v using Nat.strongRecOn generalizing v with
  | ind dist ih =>
    by_cases hvx : v = x
    · exact hvx ▸ .stop v
    · obtain ⟨w, hw⟩ := hlinked v hv hvx
      have hrise := hr v w hw
      have hbound := S.bound w
      exact .step hw (ih _ (by omega) (by omega) rfl)

theorem exists_meet (S : Summit g k x) (hr : Rising k links)
    (hlinked : ∀ v, m ≤ k.revOrder.get v → v ≠ x → ∃ w, links.get v = some w) {limit : Nat}
    (hlimit : 2 * g.size ≤ limit) (ha : m ≤ k.revOrder.get a) (hb : m ≤ k.revOrder.get b) :
    ∃ c, meet k limit links (some a) (some b) = some c ∧ Meets links a b c :=
  exists_meet_of_common S.bound S.injective hr hlimit (climbs_summit S hr hlinked ha)
    (climbs_summit S hr hlinked hb)

end

end Recovery.PostDominators
