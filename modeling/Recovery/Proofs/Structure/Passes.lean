import Mathlib.Algebra.BigOperators.Group.Finset.Basic
import Mathlib.Algebra.Order.BigOperators.Group.Finset
import Recovery.Proofs.Structure.Climbing
import Recovery.Proofs.Structure.NodeGraph
/-
  What the three passes keep of the links.

  `Faithful` links rise, each along a walk that stays below its target, and never
  skip a node that every walk to the exit goes through. The first two clauses let
  the third be kept by looking at one link alone: what guards the exit from a node
  guards it from whatever the node's chain passes below (`Faithful.guards`), so a
  chain holds all that guards the exit from where it starts (`Faithful.climbs`),
  and the meeting point of a node's link with a successor is still below all of
  it.

    1. the first pass leaves the links faithful, and each where the chains of the
       successors above it meet (`ascended_ascend`);
    2. the other passes keep them rising, with a link at every node but the exit
       (`standing_compute`);
    3. links that lie on the chain of every successor are right (`Settled.guards`).
       Where all edges go up the first pass has made them so and the others do
       not move them (`ascended_compute`); in general a pass that moves nothing
       shows that they are (`Settled.of_branch_eq`).
-/

namespace Recovery.PostDominators
variable {g : NodeGraph} {k : Numbering g.size} {x : g.Node} {links : PostDominators g.size}
  {limit : Nat} {u v w s d : g.Node}

/-- What holds of the links in the first pass: they rise, along walks that stay
below, and skip nothing that guards the exit. -/
structure Faithful (g : NodeGraph) (k : Numbering g.size) (x : g.Node)
    (links : PostDominators g.size) : Prop where
  rising : Rising k links
  walk : ∀ v w, links.get v = some w →
    ∃ vs, Walk (Along g.next) v w vs ∧ ∀ y ∈ vs, k.revOrder.get y ≤ k.revOrder.get w
  guards_link : ∀ v w d, links.get v = some w → d ≠ v → Guards (Along g.next) v d x →
    Guards (Along g.next) w d x

namespace Faithful

theorem walk_of_climbs (F : Faithful g k x links) (h : Climbs links u v) :
    ∃ vs, Walk (Along g.next) u v vs ∧ ∀ y ∈ vs, k.revOrder.get y ≤ k.revOrder.get v := by
  induction h with
  | stop v => exact ⟨[v], .stop v, by simp⟩
  | step hl h ih =>
    obtain ⟨vs, hvs, hle⟩ := F.walk _ _ hl
    obtain ⟨ws, hws, hle'⟩ := ih
    obtain ⟨us, hus, hmem⟩ := hvs.trans hws
    refine ⟨us, hus, fun y hy => ?_⟩
    rcases (hmem y).1 hy with hy | hy
    · exact Nat.le_trans (hle y hy) (h.le F.rising)
    · exact hle' y hy

theorem guards (S : Summit g k x) (F : Faithful g k x links) (h : Climbs links u v)
    (hg : Guards (Along g.next) u d x) (hle : k.revOrder.get v ≤ k.revOrder.get d) :
    Guards (Along g.next) v d x := by
  intro ws hws
  obtain ⟨vs, hvs, hbelow⟩ := F.walk_of_climbs h
  obtain ⟨us, hus, hmem⟩ := hvs.trans hws
  rcases (hmem d).1 (hg us hus) with hd | hd
  · have heq : v = d := S.injective v d (Nat.le_antisymm hle (hbelow d hd))
    exact heq ▸ hws.start_mem
  · exact hd

/-- The chain of a node holds all that guards the exit from it. -/
theorem climbs (S : Summit g k x) (F : Faithful g k x links) {m : Nat}
    (hlinked : ∀ v, m ≤ k.revOrder.get v → v ≠ x → ∃ w, links.get v = some w)
    (hm : m ≤ k.revOrder.get v) (hg : Guards (Along g.next) v d x) : Climbs links v d := by
  -- from the exit down, by the distance to the highest number
  induction hdist : g.size - k.revOrder.get v using Nat.strongRecOn generalizing v with
  | ind dist ih =>
    by_cases hvx : v = x
    · subst hvx
      have hd : d ∈ [v] := hg [v] (.stop v)
      rw [List.mem_singleton.1 hd]
      exact .stop v
    · by_cases hdv : d = v
      · rw [hdv]
        exact .stop v
      · obtain ⟨w, hw⟩ := hlinked v hm hvx
        have hrise := F.rising v w hw
        have hbound := S.bound w
        exact .step hw (ih _ (by omega) (by omega) (F.guards_link v w d hw hdv hg) rfl)

theorem set (F : Faithful g k x links) (hrise : k.revOrder.get v < k.revOrder.get w)
    (hwalk : ∃ vs, Walk (Along g.next) v w vs ∧ ∀ y ∈ vs, k.revOrder.get y ≤ k.revOrder.get w)
    (hguards : ∀ d, d ≠ v → Guards (Along g.next) v d x → Guards (Along g.next) w d x) :
    Faithful g k x (links.set v (some w) v.isLt) := by
  have hcases {u y : g.Node} (h : (links.set v (some w) v.isLt).get u = some y) :
      (v = u ∧ w = y) ∨ links.get u = some y := by
    rw [get_set] at h
    split at h
    · next hvu => exact Or.inl ⟨hvu, Option.some.inj h⟩
    · exact Or.inr h
  refine ⟨fun u y h => ?_, fun u y h => ?_, fun u y d h => ?_⟩
  · rcases hcases h with ⟨rfl, rfl⟩ | h
    · exact hrise
    · exact F.rising u y h
  · rcases hcases h with ⟨rfl, rfl⟩ | h
    · exact hwalk
    · exact F.walk u y h
  · rcases hcases h with ⟨rfl, rfl⟩ | h
    · exact hguards d
    · exact F.guards_link u y d h

theorem set_meets (S : Summit g k x) (F : Faithful g k x links) {m : Nat}
    (hlinked : ∀ v, m ≤ k.revOrder.get v → v ≠ x → ∃ w, links.get v = some w)
    {a c : g.Node} (ha : links.get v = some a) (hma : m ≤ k.revOrder.get a)
    (hs : s ∈ g.next v) (hms : m ≤ k.revOrder.get s) (hc : Meets links a s c) :
    Faithful g k x (links.set v (some c) v.isLt) := by
  refine F.set ?_ (F.walk_of_climbs (.step ha hc.left)) fun d hd hg => ?_
  · exact Nat.lt_of_lt_of_le (F.rising v a ha) (hc.left.le F.rising)
  · have hga : Guards (Along g.next) a d x := F.guards_link v a d ha hd hg
    have hgs : Guards (Along g.next) s d x := hg.of_step hd hs
    have hcd : Climbs links c d :=
      hc.first d (F.climbs S hlinked hma hga) (F.climbs S hlinked hms hgs)
    exact F.guards S hc.left hga (hcd.le F.rising)

end Faithful

/-! ## The first pass -/

theorem exists_join_above (S : Summit g k x) (hlimit : 2 * g.size ≤ limit)
    (F : Faithful g k x links)
    (hlinked : ∀ u, k.revOrder.get v < k.revOrder.get u → u ≠ x → ∃ w, links.get u = some w)
    (hs : s ∈ g.next v) (habove : k.revOrder.get v < k.revOrder.get s) :
    ∃ c, join k limit v links s = links.set v (some c) v.isLt ∧
      Faithful g k x (links.set v (some c) v.isLt) ∧ Climbs links s c ∧
      (∀ a, links.get v = some a → Climbs links a c) := by
  cases ha : links.get v with
  | none =>
    refine ⟨s, by rw [join, ha]; rfl, F.set habove ?_ ?_, .stop s, fun a h => nomatch h⟩
    · refine ⟨[v, s], .step hs (.stop s), fun y hy => ?_⟩
      rcases List.mem_cons.1 hy with rfl | hy
      · exact Nat.le_of_lt habove
      · exact List.mem_singleton.1 hy ▸ Nat.le_refl _
    · exact fun d hd hg => hg.of_step hd hs
  | some a =>
    have hva := F.rising v a ha
    obtain ⟨c, hc, hmeet⟩ := exists_meet S F.rising hlinked hlimit hva habove
    refine ⟨c, by rw [join, ha, hc], F.set_meets S hlinked ha hva hs habove hmeet, hmeet.right,
      fun b hb => ?_⟩
    cases hb
    exact hmeet.left

/-- Taking in successors from above, one by one, leaves the link of a node on the
chain of each and all other links alone. -/
theorem foldl_join_above (S : Summit g k x) (hlimit : 2 * g.size ≤ limit) (v : g.Node)
    (ss : List g.Node) (hss : ∀ s ∈ ss, s ∈ g.next v ∧ k.revOrder.get v < k.revOrder.get s) :
    ∀ links, Faithful g k x links →
      (∀ u, k.revOrder.get v < k.revOrder.get u → u ≠ x → ∃ w, links.get u = some w) →
      Faithful g k x (ss.foldl (join k limit v) links) ∧
      (∀ u, u ≠ v → (ss.foldl (join k limit v) links).get u = links.get u) ∧
      (∀ a, links.get v = some a ∨ a ∈ ss →
        ∃ c, (ss.foldl (join k limit v) links).get v = some c ∧ Climbs links a c) := by
  induction ss with
  | nil =>
    refine fun links F _ => ⟨F, fun _ _ => rfl, fun a ha => ⟨a, ?_, .stop a⟩⟩
    exact ha.resolve_right List.not_mem_nil
  | cons s ss ih =>
    intro links F hlinked
    obtain ⟨hs, habove⟩ := hss s List.mem_cons_self
    obtain ⟨c, hjoin, F', hsc, hac⟩ := exists_join_above S hlimit F hlinked hs habove
    rw [List.foldl_cons, hjoin]
    have hoff (u : g.Node) (hu : u ≠ v) : (links.set v (some c) v.isLt).get u = links.get u := by
      rw [get_set, if_neg (Ne.symm hu)]
    have hself : (links.set v (some c) v.isLt).get v = some c := by rw [get_set, if_pos rfl]
    obtain ⟨F'', hoff', hchain⟩ := ih (fun s' hs' => hss s' (List.mem_cons_of_mem _ hs')) _ F'
      fun u hu hx => by
        rw [hoff u fun h => Nat.lt_irrefl _ (h ▸ hu)]
        exact hlinked u hu hx
    -- a chain from above `v` is the same before and after
    have hback {a b : g.Node} (ha : k.revOrder.get v < k.revOrder.get a)
        (h : Climbs (links.set v (some c) v.isLt) a b) : Climbs links a b :=
      h.congr F'.rising fun y hy =>
        (hoff y fun hyv => Nat.not_lt.2 hy (hyv ▸ ha)).symm
    refine ⟨F'', fun u hu => (hoff' u hu).trans (hoff u hu), fun a ha => ?_⟩
    obtain ⟨c', hc', hcc'⟩ := hchain c (Or.inl hself)
    have hcc'' : Climbs links c c' := hback (F'.rising v c hself) hcc'
    rcases ha with ha | ha
    · exact ⟨c', hc', (hac a ha).trans hcc''⟩
    · rcases List.mem_cons.1 ha with rfl | ha
      · exact ⟨c', hc', hsc.trans hcc''⟩
      · obtain ⟨c₁, hc₁, h₁⟩ := hchain a (Or.inr ha)
        exact ⟨c₁, hc₁, hback (hss a (List.mem_cons_of_mem _ ha)).2 h₁⟩

/-- What holds in the first pass with some nodes still to come: the others have
their link on the chain of every successor above them. -/
structure Ascended (g : NodeGraph) (k : Numbering g.size) (x : g.Node) (rest : List g.Node)
    (links : PostDominators g.size) : Prop where
  faithful : Faithful g k x links
  climbs : ∀ v, v ∉ rest → ∀ s ∈ g.next v, k.revOrder.get v < k.revOrder.get s →
    ∃ c, links.get v = some c ∧ Climbs links s c
  exit : links.get x = none

theorem Ascended.linked (S : Summit g k x) {rest : List g.Node}
    (A : Ascended g k x rest links) (hv : v ∉ rest) (hx : v ≠ x) : ∃ w, links.get v = some w := by
  obtain ⟨s, hs, hrise⟩ := S.rise v hx
  obtain ⟨c, hc, -⟩ := A.climbs v hv s hs hrise
  exact ⟨c, hc⟩

theorem Ascended.foldl (S : Summit g k x) (hlimit : 2 * g.size ≤ limit) (rest : List g.Node)
    (hdown : rest.Pairwise fun u v => k.revOrder.get v < k.revOrder.get u)
    (habove : ∀ u, u ∉ rest → ∀ v ∈ rest, k.revOrder.get v < k.revOrder.get u) :
    ∀ links, Ascended g k x rest links →
      Ascended g k x [] (rest.foldl
        (fun links v => ((g.next v).filter fun s =>
          k.revOrder.get v < k.revOrder.get s).foldl (join k limit v) links) links) := by
  induction rest with
  | nil => exact fun _ A => A
  | cons v rest ih =>
    intro links A
    obtain ⟨hbelow, hdown⟩ := List.pairwise_cons.1 hdown
    have hnext : ∀ s ∈ (g.next v).filter fun s => k.revOrder.get v < k.revOrder.get s,
        s ∈ g.next v ∧ k.revOrder.get v < k.revOrder.get s := fun s hs =>
      ⟨(List.mem_filter.1 hs).1, of_decide_eq_true (List.mem_filter.1 hs).2⟩
    have hlinked (u : g.Node) (hu : k.revOrder.get v < k.revOrder.get u) (hx : u ≠ x) :
        ∃ w, links.get u = some w := by
      refine A.linked S (fun hmem => ?_) hx
      rcases List.mem_cons.1 hmem with rfl | hmem
      · exact Nat.lt_irrefl _ hu
      · exact Nat.lt_asymm hu (hbelow u hmem)
    obtain ⟨F, hoff, hchain⟩ := foldl_join_above S hlimit v _ hnext links A.faithful hlinked
    rw [List.foldl_cons]
    have hkeep {a c : g.Node} (ha : k.revOrder.get v < k.revOrder.get a) (h : Climbs links a c) :=
      h.congr A.faithful.rising fun y hy => hoff y fun hyv => Nat.not_lt.2 hy (hyv ▸ ha)
    refine ih hdown (fun u hu w hw => ?_) _ ⟨F, fun u hu s hs hus => ?_, ?_⟩
    · by_cases huv : u = v
      · exact huv ▸ hbelow w hw
      · exact habove u (fun h => (List.mem_cons.1 h).elim huv hu) w (List.mem_cons_of_mem _ hw)
    · by_cases huv : u = v
      · subst huv
        obtain ⟨c, hc, hsc⟩ := hchain s (Or.inr (List.mem_filter.2 ⟨hs, decide_eq_true hus⟩))
        exact ⟨c, hc, hkeep hus hsc⟩
      · have hu' : u ∉ v :: rest := fun h => (List.mem_cons.1 h).elim huv hu
        obtain ⟨c, hc, hsc⟩ := A.climbs u hu' s hs hus
        have hvu := habove u hu' v List.mem_cons_self
        exact ⟨c, (hoff u huv).trans hc, hkeep (Nat.lt_trans hvu hus) hsc⟩
    · by_cases hxv : x = v
      · rw [← hxv, S.next_nil]
        exact A.exit
      · exact (hoff x hxv).trans A.exit

theorem ascended_ascend (S : Summit g k x) (hlimit : 2 * g.size ≤ limit)
    (hall : ∀ v, v ∈ k.revOrdering)
    (hup : k.revOrdering.Pairwise fun u v => k.revOrder.get u < k.revOrder.get v) :
    Ascended g k x [] (ascend g k limit (unknown g.size)) := by
  have hnone {v w : g.Node} (h : (unknown g.size).get v = some w) : False := by
    rw [unknown, get_replicate] at h
    cases h
  refine Ascended.foldl S hlimit _ (List.pairwise_reverse.2 hup)
    (fun u hu => absurd (List.mem_reverse.2 (hall u)) hu) _ ⟨?_, fun v hv => ?_, ?_⟩
  · exact ⟨fun v w h => (hnone h).elim, fun v w h => (hnone h).elim,
      fun v w d h => (hnone h).elim⟩
  · exact absurd (List.mem_reverse.2 (hall v)) hv
  · exact get_replicate _ _

/-! ## The other passes -/

/-- What holds of the links from the first pass on: they rise, all nodes but the
exit have one, and no pass but the first touches a node without a choice. -/
structure Standing (g : NodeGraph) (k : Numbering g.size) (x : g.Node)
    (links : PostDominators g.size) : Prop where
  rising : Rising k links
  linked : ∀ v, v ≠ x → ∃ w, links.get v = some w
  exit : links.get x = none
  oneWay : ∀ v s, g.next v = [s] → links.get v = some s

theorem Ascended.standing (S : Summit g k x) (A : Ascended g k x [] links) :
    Standing g k x links := by
  have hlinked (v : g.Node) : v ≠ x → ∃ w, links.get v = some w :=
    A.linked S List.not_mem_nil
  refine ⟨A.faithful.rising, hlinked, A.exit, fun v s hvs => ?_⟩
  have hvx : v ≠ x := by
    rintro rfl
    rw [S.next_nil] at hvs
    cases hvs
  have hs : s ∈ g.next v := hvs ▸ List.mem_singleton_self s
  have hrise : k.revOrder.get v < k.revOrder.get s := by
    obtain ⟨s', hs', hrise⟩ := S.rise v hvx
    rw [hvs, List.mem_singleton] at hs'
    exact hs' ▸ hrise
  obtain ⟨c, hc, hsc⟩ := A.climbs v List.not_mem_nil s hs hrise
  have hguards : Guards (Along g.next) v s x := by
    intro vs hw
    cases hw with
    | stop => exact absurd rfl hvx
    | step e hw =>
      rw [Along, hvs, List.mem_singleton] at e
      exact List.mem_cons_of_mem _ (e ▸ hw.start_mem)
  -- so `s` is on the chain of `v`, which goes on at a node that is not below `s`
  have hvs' : Climbs links v s :=
    A.faithful.climbs S (fun u _ => hlinked u) (Nat.zero_le _) hguards
  cases hvs' with
  | stop => exact absurd hrise (Nat.lt_irrefl _)
  | step hl hcs =>
    rw [hc] at hl
    cases hl
    rw [hc, hsc.antisymm A.faithful.rising hcs]

/-- What taking in a successor keeps at every conditional, a pass over the
conditionals keeps. -/
theorem pass_induction {P : PostDominators g.size → Prop}
    {take : g.Node → PostDominators g.size → g.Node → PostDominators g.size}
    (htake : ∀ links v s, 2 ≤ (g.next v).length → s ∈ g.next v → P links → P (take v links s))
    (h : P links) :
    P ((k.ordering.filter g.isConditional).foldl
      (fun links v => (g.next v).foldl (take v) links) links) :=
  List.foldlRecOn _ _ h fun _ h v hv => List.foldlRecOn _ _ h fun links h s hs =>
    htake links v s (NodeGraph.isConditional_iff.1 (List.mem_filter.1 hv).2) hs h

namespace Standing

theorem set (S : Summit g k x) (St : Standing g k x links) (hv : 2 ≤ (g.next v).length)
    (hrise : k.revOrder.get v < k.revOrder.get w) :
    Standing g k x (links.set v (some w) v.isLt) where
  rising u y hu := by
    rw [get_set] at hu
    split at hu
    · next hvu => exact hvu ▸ Option.some.inj hu ▸ hrise
    · exact St.rising u y hu
  linked u hu := by
    rw [get_set]
    split
    · exact ⟨w, rfl⟩
    · exact St.linked u hu
  exit := by
    rw [get_set, if_neg]
    · exact St.exit
    · exact S.ne_of_choice hv
  oneWay u s hus := by
    rw [get_set, if_neg]
    · exact St.oneWay u s hus
    · rintro rfl
      rw [hus] at hv
      exact absurd hv (Nat.not_le.2 Nat.one_lt_two)

theorem exists_meet (S : Summit g k x) (St : Standing g k x links) (hlimit : 2 * g.size ≤ limit)
    (a b : g.Node) :
    ∃ c, meet k limit links (some a) (some b) = some c ∧ Meets links a b c :=
  PostDominators.exists_meet S St.rising (fun v _ => St.linked v) hlimit (Nat.zero_le _)
    (Nat.zero_le _)

theorem exists_link (S : Summit g k x) (St : Standing g k x links)
    (hv : 2 ≤ (g.next v).length) : ∃ a, links.get v = some a :=
  St.linked v (S.ne_of_choice hv)

theorem exists_join (S : Summit g k x) (St : Standing g k x links) (hlimit : 2 * g.size ≤ limit)
    (hv : 2 ≤ (g.next v).length) (s : g.Node) :
    ∃ a c, links.get v = some a ∧ Meets links a s c ∧
      join k limit v links s = links.set v (some c) v.isLt := by
  obtain ⟨a, ha⟩ := St.exists_link S hv
  obtain ⟨c, hc, hmeet⟩ := St.exists_meet S hlimit a s
  exact ⟨a, c, ha, hmeet, by rw [join, ha, hc]⟩

theorem join (S : Summit g k x) (St : Standing g k x links) (hlimit : 2 * g.size ≤ limit)
    (hv : 2 ≤ (g.next v).length) (s : g.Node) :
    Standing g k x (PostDominators.join k limit v links s) := by
  obtain ⟨a, c, ha, hmeet, hjoin⟩ := St.exists_join S hlimit hv s
  rw [hjoin]
  exact St.set S hv (Nat.lt_of_lt_of_le (St.rising v a ha) (hmeet.left.le St.rising))

/-- Looking through a back edge moves the link to a node on its own chain, too. -/
theorem joinThrough (S : Summit g k x) (St : Standing g k x links)
    (hlimit : 2 * g.size ≤ limit) (hv : 2 ≤ (g.next v).length) (s : g.Node) :
    Standing g k x (PostDominators.joinThrough k limit v links s) := by
  obtain ⟨a, ha⟩ := St.exists_link S hv
  rw [PostDominators.joinThrough]
  split
  · next sp _ =>
    obtain ⟨c, hc, hmeet⟩ := St.exists_meet S hlimit sp a
    rw [ha, hc]
    exact St.set S hv (Nat.lt_of_lt_of_le (St.rising v a ha) (hmeet.right.le St.rising))
  · exact St.join S hlimit hv s

end Standing

theorem standing_compute (S : Summit g k x) (hlimit : 2 * g.size ≤ limit)
    (hall : ∀ v, v ∈ k.revOrdering)
    (hup : k.revOrdering.Pairwise fun u v => k.revOrder.get u < k.revOrder.get v) :
    Standing g k x (compute g k limit) := by
  have hascend := (ascended_ascend S hlimit hall hup).standing S
  have hbranch : Standing g k x (branch g k limit (ascend g k limit (unknown g.size))) :=
    pass_induction (fun _ _ s hv _ St => St.join S hlimit hv s) hascend
  exact pass_induction (fun _ _ s hv _ St => St.joinThrough S hlimit hv s) hbranch

/-! ## Links that nothing moves -/

/-- Whether the link of every node lies on the chain of each of its successors. -/
def Settled (g : NodeGraph) (links : PostDominators g.size) : Prop :=
  ∀ v, ∀ s ∈ g.next v, ∃ c, links.get v = some c ∧ Climbs links s c

namespace Settled

theorem guards (hexit : links.get x = none) (h : Settled g links) (hvw : Climbs links v w) :
    Guards (Along g.next) v w x := by
  intro vs hw
  induction hw with
  | stop x =>
    cases hvw with
    | stop => exact List.mem_cons_self
    | step hl _ =>
      rw [hexit] at hl
      cases hl
  | @step v s x vs e _ ih =>
    cases hvw with
    | stop => exact List.mem_cons_self
    | step hl hcw =>
      obtain ⟨c, hc, hsc⟩ := h v s e
      rw [hc] at hl
      cases hl
      exact List.mem_cons_of_mem _ (ih hexit (hsc.trans hcw))

theorem join_eq (S : Summit g k x) (St : Standing g k x links) (hlimit : 2 * g.size ≤ limit)
    (h : Settled g links) (hv : 2 ≤ (g.next v).length) (hs : s ∈ g.next v) :
    join k limit v links s = links := by
  obtain ⟨a, c, ha, hmeet, hjoin⟩ := St.exists_join S hlimit hv s
  obtain ⟨a', ha', hsa⟩ := h v s hs
  rw [ha] at ha'
  cases ha'
  rw [hjoin, hmeet.eq_left St.rising hsa, set_eq_self ha]

end Settled

theorem joinThrough_eq_join (h : k.isBackEdge v s = false) :
    joinThrough k limit v links s = join k limit v links s := by
  rw [joinThrough, h, join]
  split
  · next hthrough =>
    split at hthrough
    · simp at hthrough
    · cases hthrough
  · rfl

/-- When every edge goes up, the first pass settles the links. -/
theorem Ascended.settled (A : Ascended g k x [] links)
    (hrise : ∀ v, ∀ s ∈ g.next v, k.revOrder.get v < k.revOrder.get s) : Settled g links :=
  fun v s hs => A.climbs v List.not_mem_nil s hs (hrise v s hs)

/-- Then, and when no edge goes back, the other passes do not move them. -/
theorem ascended_compute (S : Summit g k x) (hlimit : 2 * g.size ≤ limit)
    (hall : ∀ v, v ∈ k.revOrdering)
    (hup : k.revOrdering.Pairwise fun u v => k.revOrder.get u < k.revOrder.get v)
    (hrise : ∀ v, ∀ s ∈ g.next v, k.revOrder.get v < k.revOrder.get s)
    (hback : ∀ v, ∀ s ∈ g.next v, k.isBackEdge v s = false) :
    Ascended g k x [] (compute g k limit) := by
  have A := ascended_ascend S hlimit hall hup
  have hjoin {v s : g.Node} (hv : 2 ≤ (g.next v).length) (hs : s ∈ g.next v) :=
    (A.settled hrise).join_eq S (A.standing S) hlimit hv hs
  have hbranch : branch g k limit (ascend g k limit (unknown g.size)) =
      ascend g k limit (unknown g.size) :=
    pass_induction (P := fun links => links = _) (fun _ _ _ hv hs heq => by
      rw [heq, hjoin hv hs]) rfl
  have hthrough : compute g k limit = ascend g k limit (unknown g.size) :=
    pass_induction (P := fun links => links = _) (fun _ v s hv hs heq => by
      rw [heq, joinThrough_eq_join (hback v s hs), hjoin hv hs]) hbranch
  rw [hthrough]
  exact A

/-! ## A pass that moves nothing -/

/-- When every step of a run leaves things as they are or raises them, a run that
raises nothing has left them as they are at every step. -/
theorem foldl_eq_or_lt {α β : Type} {P : β → Prop} (rank : β → Nat) {f : β → α → β}
    (l : List α) (hstep : ∀ a ∈ l, ∀ b, P b → P (f b a) ∧ (f b a = b ∨ rank b < rank (f b a))) :
    ∀ b, P b → P (l.foldl f b) ∧
      ((l.foldl f b = b ∧ ∀ a ∈ l, f b a = b) ∨ rank b < rank (l.foldl f b)) := by
  induction l with
  | nil => exact fun b hb => ⟨hb, Or.inl ⟨rfl, fun a ha => absurd ha List.not_mem_nil⟩⟩
  | cons a l ih =>
    intro b hb
    have ih := ih fun a' ha' => hstep a' (List.mem_cons_of_mem _ ha')
    obtain ⟨hP, heq | hlt⟩ := hstep a List.mem_cons_self b hb
    · rw [List.foldl_cons, heq]
      obtain ⟨hP', hrest⟩ := ih b hb
      refine ⟨hP', hrest.imp_left fun ⟨hfold, hall⟩ => ⟨hfold, fun a' ha' => ?_⟩⟩
      rcases List.mem_cons.1 ha' with rfl | ha'
      · exact heq
      · exact hall a' ha'
    · obtain ⟨hP', hrest⟩ := ih (f b a) hP
      refine ⟨hP', Or.inr ?_⟩
      rcases hrest with ⟨hfold, -⟩ | hlt'
      · rw [List.foldl_cons, hfold]
        exact hlt
      · exact Nat.lt_trans hlt hlt'

def height (k : Numbering g.size) (links : PostDominators g.size) (v : g.Node) : Nat :=
  (links.get v).elim 0 fun w => k.revOrder.get w

def total (k : Numbering g.size) (links : PostDominators g.size) : Nat :=
  ∑ v, height k links v

theorem total_lt {a c : g.Node} (ha : links.get v = some a)
    (hac : k.revOrder.get a < k.revOrder.get c) :
    total k links < total k (links.set v (some c) v.isLt) := by
  have hv : height k links v < height k (links.set v (some c) v.isLt) v := by
    rw [height, height, ha, get_set, if_pos rfl]
    exact hac
  refine Finset.sum_lt_sum (fun u _ => ?_) ⟨v, Finset.mem_univ v, hv⟩
  by_cases hvu : v = u
  · exact Nat.le_of_lt (hvu ▸ hv)
  · rw [height, height, get_set, if_neg hvu]

theorem Standing.join_eq_or_lt (S : Summit g k x) (St : Standing g k x links)
    (hlimit : 2 * g.size ≤ limit) (hv : 2 ≤ (g.next v).length) (s : g.Node) :
    PostDominators.join k limit v links s = links ∧
        (∃ c, links.get v = some c ∧ Climbs links s c) ∨
      total k links < total k (PostDominators.join k limit v links s) := by
  obtain ⟨a, c, ha, hmeet, hjoin⟩ := St.exists_join S hlimit hv s
  rw [hjoin]
  rcases hmeet.left.eq_or_lt St.rising with rfl | hlt
  · exact Or.inl ⟨set_eq_self ha, a, ha, hmeet.right⟩
  · exact Or.inr (total_lt ha hlt)

/-- Links that the second pass, made once more, would not move are settled. -/
theorem Settled.of_branch_eq (S : Summit g k x) (St : Standing g k x links)
    (hlimit : 2 * g.size ≤ limit) (hall : ∀ v, v ∈ k.ordering)
    (hbranch : branch g k limit links = links) : Settled g links := by
  -- at one node, and then along the pass
  have hnode (v : g.Node) (hv : v ∈ k.ordering.filter g.isConditional) :=
    foldl_eq_or_lt (P := Standing g k x) (total k) (f := join k limit v) (g.next v)
      fun s _ links St =>
        have hv2 := NodeGraph.isConditional_iff.1 (List.mem_filter.1 hv).2
        ⟨St.join S hlimit hv2 s, (St.join_eq_or_lt S hlimit hv2 s).imp_left And.left⟩
  have hpass := (foldl_eq_or_lt (P := Standing g k x) (total k) _
    fun v hv links St => ⟨(hnode v hv links St).1,
      (hnode v hv links St).2.imp_left And.left⟩) links St
  have hstill {m : Nat} (h : m = total k links) : ¬ total k links < m := by omega
  intro v s hs
  by_cases hv2 : 2 ≤ (g.next v).length
  · have hv : v ∈ k.ordering.filter g.isConditional :=
      List.mem_filter.2 ⟨hall v, NodeGraph.isConditional_iff.2 hv2⟩
    have hv' := (hpass.2.resolve_right (hstill (congrArg _ hbranch))).2 v hv
    have hs' := ((hnode v hv links St).2.resolve_right (hstill (congrArg _ hv'))).2 s hs
    exact ((St.join_eq_or_lt S hlimit hv2 s).resolve_right (hstill (congrArg _ hs'))).2
  · -- with one way on, the link leads there
    have hone : g.next v = [s] := by
      rcases hnext : g.next v with _ | ⟨a, _ | ⟨b, rest⟩⟩
      · rw [hnext] at hs
        cases hs
      · rw [hnext, List.mem_singleton] at hs
        rw [hs]
      · rw [hnext] at hv2
        exact absurd (Nat.le_add_left 2 rest.length) hv2
    exact ⟨s, St.oneWay v s hone, .stop s⟩

end Recovery.PostDominators
