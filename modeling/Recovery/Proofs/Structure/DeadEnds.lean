import Recovery.Proofs.Structure.PostDominators
/-
  Links where walks may end in several places.

  Without cycles every walk can be taken on to a vertex with no way on, but the
  exit need not be the only one: a block that calls what never returns is another.
  A vertex is unavoidable from a second one when every walk from there to a
  dead end, the exit or not, visits it. What is unavoidable from one vertex lies in
  a row (`Unavoidable.of_le`), and what the successors of a vertex all cannot avoid
  it cannot avoid either (`Unavoidable.of_next`).

    1. Links that are `Exact` lead from every node from which another node is
       unavoidable to the first such node. Then chains hold all that is unavoidable
       from where they start (`climbs_of_unavoidable`), two chains with something
       unavoidable in common meet at the first such node (`exists_meet_common`),
       the first pass makes the links exact from the top down (`Found.foldl`) and the
       other two keep them so (`join_exact`, `exact_compute`).
    2. So a block from which any other is unavoidable is linked to the first such,
       and follows there (`linked_to_first_unavoidable`).
    3. Nothing is said of a choice whose branches share no block. Its link need not
       be empty: where one chain ends before it has met the other, the link stays on
       the first, and a walk that takes the other branch misses it
       (`not_unavoidable_aborting`).
-/

namespace Recovery

/-- Whether every walk from a vertex to one with no way on visits another. -/
def Unavoidable {α : Type} (next : α → List α) (d v : α) : Prop :=
  ∀ e, next e = [] → Guards (Along next) v d e

/-- Of the others that are unavoidable from a vertex, the one they are all unavoidable from. -/
structure FirstUnavoidable {α : Type} (next : α → List α) (m v : α) : Prop where
  unavoidable : Unavoidable next m v
  ne : m ≠ v
  first : ∀ d, d ≠ v → Unavoidable next d v → Unavoidable next d m

/-- Of what is unavoidable from each of some vertices, the first. -/
structure FirstCommon {α : Type} (next : α → List α) (vs : List α) (c : α) : Prop where
  unavoidable : ∀ v ∈ vs, Unavoidable next c v
  first : ∀ d, (∀ v ∈ vs, Unavoidable next d v) → Unavoidable next d c

namespace Unavoidable
variable {α : Type} {next : α → List α} {c d s v : α}

theorem refl (v : α) : Unavoidable next v v := fun _ _ _ hw => hw.start_mem

theorem of_step (h : Unavoidable next d v) (hne : d ≠ v) (hs : s ∈ next v) :
    Unavoidable next d s :=
  fun e he => (h e he).of_step hne hs

theorem of_next (hne : next v ≠ []) (h : ∀ s ∈ next v, Unavoidable next d s) :
    Unavoidable next d v := by
  intro e he vs hw
  cases hw with
  | stop => exact absurd he hne
  | step hs hw => exact List.mem_cons_of_mem _ (h _ hs e he _ hw)

theorem exists_next (h : Unavoidable next d v) (hne : d ≠ v) : ∃ s, s ∈ next v := by
  refine List.exists_mem_of_ne_nil _ fun hnil => hne ?_
  exact List.mem_singleton.1 (h v hnil [v] (.stop v))

end Unavoidable

/-- What the successors of a vertex first have in common is the first it cannot avoid. -/
theorem FirstCommon.firstUnavoidable {α : Type} {next : α → List α} {c v : α}
    (h : FirstCommon next (next v) c) (hnext : next v ≠ []) (hne : c ≠ v) :
    FirstUnavoidable next c v :=
  ⟨.of_next hnext h.unavoidable, hne, fun d hd hdv =>
    h.first d fun _ hs => hdv.of_step hd hs⟩

/-! ## Blocks and nodes -/

namespace NodeGraph.Depicts
variable {g : Graph} {G : NodeGraph} {u v : G.Node}

theorem next_eq_nil_iff (D : NodeGraph.Depicts g G) : G.next v = [] ↔ g.flow (G.blockOf v) = [] := by
  rw [← D.map_next, List.map_eq_nil_iff]

theorem unavoidable_iff (D : NodeGraph.Depicts g G) :
    Unavoidable G.next u v ↔ Unavoidable g.flow (G.blockOf u) (G.blockOf v) := by
  constructor
  · intro h e he bs hw
    obtain ⟨x, vs, rfl, rfl, hvs⟩ := D.walk_nodes hw
    exact List.mem_map_of_mem (h x (D.next_eq_nil_iff.2 he) vs hvs)
  · intro h e he
    exact D.guards_iff.2 (h _ (D.next_eq_nil_iff.1 he))

end NodeGraph.Depicts

namespace PostDominators

/-! ## Numbers that rise along every edge -/

/-- What the numbers of a node graph without cycles say: every edge goes up. -/
structure Uphill (g : NodeGraph) (k : Numbering g.size) : Prop where
  rise : ∀ v, ∀ s ∈ g.next v, k.revOrder.get v < k.revOrder.get s
  bound : ∀ v, k.revOrder.get v < g.size
  injective : ∀ u v, k.revOrder.get u = k.revOrder.get v → u = v

theorem uphill {g : Graph} {G : NodeGraph} (D : NodeGraph.Depicts g G)
    (hacyclic : Acyclic (Along G.next)) : Uphill G (Numbering.ofNodeGraph G) :=
  ⟨fun v s hs => Numbering.revOrder_lt_of_not_reaches D hs (hacyclic v s hs),
    fun v => Numbering.revOrder_lt_size (Numbering.mem_revOrdering D v),
    fun u _ => Numbering.revOrder_injective (Numbering.mem_revOrdering D u)⟩

theorem Uphill.induction {g : NodeGraph} {k : Numbering g.size} (U : Uphill g k)
    {P : g.Node → Prop} (h : ∀ v, (∀ w, k.revOrder.get v < k.revOrder.get w → P w) → P v)
    (v : g.Node) : P v := by
  induction hdist : g.size - k.revOrder.get v using Nat.strongRecOn generalizing v with
  | ind dist ih =>
    refine h v fun w hw => ih _ ?_ w rfl
    have := U.bound w
    omega

end PostDominators

namespace Unavoidable
open PostDominators
variable {g : NodeGraph} {k : Numbering g.size} {c d v : g.Node}

theorem le (U : Uphill g k) (h : Unavoidable g.next d v) :
    k.revOrder.get v ≤ k.revOrder.get d := by
  induction v using U.induction with
  | h v ih =>
    by_cases hdv : d = v
    · rw [hdv]
    · obtain ⟨s, hs⟩ := h.exists_next hdv
      have hrise := U.rise v s hs
      exact Nat.le_trans (Nat.le_of_lt hrise) (ih s hrise (h.of_step hdv hs))

theorem trans (U : Uphill g k) (hc : Unavoidable g.next c v) (hd : Unavoidable g.next d c) :
    Unavoidable g.next d v := by
  induction v using U.induction with
  | h v ih =>
    by_cases hcv : c = v
    · exact hcv ▸ hd
    · obtain ⟨s, hs⟩ := hc.exists_next hcv
      exact .of_next (List.ne_nil_of_mem hs) fun s hs =>
        ih s (U.rise v s hs) (hc.of_step hcv hs)

theorem of_le (U : Uphill g k) (hc : Unavoidable g.next c v) (hd : Unavoidable g.next d v)
    (hle : k.revOrder.get c ≤ k.revOrder.get d) : Unavoidable g.next d c := by
  induction v using U.induction with
  | h v ih =>
    by_cases hcv : c = v
    · exact hcv ▸ hd
    · have hdv : d ≠ v := by
        rintro rfl
        exact hcv (U.injective c d (Nat.le_antisymm hle (hc.le U)))
      obtain ⟨s, hs⟩ := hc.exists_next hcv
      exact ih s (U.rise v s hs) (hc.of_step hcv hs) (hd.of_step hdv hs)

end Unavoidable

theorem FirstCommon.append {g : NodeGraph} {k : Numbering g.size} {vs ws : List g.Node}
    {c d : g.Node} (U : PostDominators.Uphill g k) (h : FirstCommon g.next vs c)
    (h' : FirstCommon g.next (c :: ws) d) : FirstCommon g.next (vs ++ ws) d := by
  obtain ⟨hdc, hdw⟩ := List.forall_mem_cons.1 h'.unavoidable
  refine ⟨List.forall_mem_append.2 ⟨fun v hv => (h.unavoidable v hv).trans U hdc, hdw⟩,
    fun e he => ?_⟩
  obtain ⟨hev, hew⟩ := List.forall_mem_append.1 he
  exact h'.first e (List.forall_mem_cons.2 ⟨h.first e hev, hew⟩)

namespace NodeGraph.Depicts
variable {g : Graph} {G : NodeGraph} {k : Numbering G.size} {b : BlockId} {m v : G.Node}

theorem exists_node_of_unavoidable (D : NodeGraph.Depicts g G) (U : PostDominators.Uphill G k)
    (h : Unavoidable g.flow b (G.blockOf v)) : ∃ x, G.blockOf x = b := by
  induction v using U.induction with
  | h v ih =>
    by_cases hbv : b = G.blockOf v
    · exact ⟨v, hbv.symm⟩
    · obtain ⟨c, hc⟩ := h.exists_next hbv
      rw [← D.map_next] at hc
      obtain ⟨s, hs, rfl⟩ := List.mem_map.1 hc
      exact ih s (U.rise v s hs) (h.of_step hbv (D.mem_next_iff.1 hs))

theorem firstUnavoidable (D : NodeGraph.Depicts g G) (U : PostDominators.Uphill G k)
    (h : FirstUnavoidable G.next m v) :
    FirstUnavoidable g.flow (G.blockOf m) (G.blockOf v) := by
  refine ⟨D.unavoidable_iff.1 h.unavoidable, fun hmv => h.ne (D.blockOf_injective hmv),
    fun b hb hun => ?_⟩
  obtain ⟨x, rfl⟩ := D.exists_node_of_unavoidable U hun
  exact D.unavoidable_iff.1
    (h.first x (fun hxv => hb (congrArg _ hxv)) (D.unavoidable_iff.2 hun))

end NodeGraph.Depicts

/-! ## Exact links -/

namespace PostDominators
variable {g : NodeGraph} {k : Numbering g.size} {links : PostDominators g.size} {limit m : Nat}
  {a b c d p s v : g.Node}

/-- Whether a node from which another is unavoidable is linked to the first such. -/
def Exact (g : NodeGraph) (links : PostDominators g.size) (v : g.Node) : Prop :=
  ∀ d, d ≠ v → Unavoidable g.next d v →
    ∃ m, links.get v = some m ∧ FirstUnavoidable g.next m v

/-- The chain of a node holds all that is unavoidable from it. -/
theorem climbs_of_unavoidable (U : Uphill g k)
    (hexact : ∀ u, m ≤ k.revOrder.get u → Exact g links u) (hm : m ≤ k.revOrder.get v)
    (hd : Unavoidable g.next d v) : Climbs links v d := by
  induction v using U.induction with
  | h v ih =>
    by_cases hdv : d = v
    · exact hdv ▸ .stop d
    · obtain ⟨w, hw, hfirst⟩ := hexact v hm d hdv hd
      have hle := hfirst.unavoidable.le U
      have hne : k.revOrder.get v ≠ k.revOrder.get w := fun h => hfirst.ne (U.injective v w h).symm
      exact .step hw (ih w (by omega) (by omega) (hfirst.first d hdv hd))

/-- What a chain passes before something unavoidable is unavoidable, too. -/
theorem unavoidable_of_climbs (U : Uphill g k) (hr : Rising k links)
    (hexact : ∀ u, m ≤ k.revOrder.get u → Exact g links u) (hvc : Climbs links v c)
    (hm : m ≤ k.revOrder.get v) (hcd : Climbs links c d) (hd : Unavoidable g.next d v) :
    Unavoidable g.next c v := by
  induction hvc with
  | stop c => exact .refl c
  | @step v w c hl hwc ih =>
    have hrise := hr v w hl
    have hdv : d ≠ v := by
      rintro rfl
      have := (hwc.trans hcd).le hr
      omega
    obtain ⟨w', hw', hfirst⟩ := hexact v hm d hdv hd
    obtain rfl : w = w' := Option.some.inj (hl.symm.trans hw')
    exact hfirst.unavoidable.trans U (ih (by omega) hcd (hfirst.first d hdv hd))

theorem exists_meet_common (U : Uphill g k) (hr : Rising k links)
    (hexact : ∀ u, m ≤ k.revOrder.get u → Exact g links u) (hlimit : 2 * g.size ≤ limit)
    (ha : m ≤ k.revOrder.get a) (hb : m ≤ k.revOrder.get b) (hpa : Unavoidable g.next p a)
    (hpb : Unavoidable g.next p b) :
    ∃ c, meet k limit links (some a) (some b) = some c ∧ FirstCommon g.next [a, b] c := by
  obtain ⟨c, hc, hmeet⟩ := exists_meet_of_common U.bound U.injective hr hlimit
    (climbs_of_unavoidable U hexact ha hpa) (climbs_of_unavoidable U hexact hb hpb)
  have hfirst {d : g.Node} (hda : Unavoidable g.next d a) (hdb : Unavoidable g.next d b) :
      Climbs links c d :=
    hmeet.first d (climbs_of_unavoidable U hexact ha hda) (climbs_of_unavoidable U hexact hb hdb)
  have hca := unavoidable_of_climbs U hr hexact hmeet.left ha (hfirst hpa hpb) hpa
  have hcb := unavoidable_of_climbs U hr hexact hmeet.right hb (hfirst hpa hpb) hpb
  refine ⟨c, hc, by simp [hca, hcb], fun d hd => ?_⟩
  have hda : Unavoidable g.next d a := hd a (by simp)
  have hdb : Unavoidable g.next d b := hd b (by simp)
  exact hca.of_le U hda ((hfirst hda hdb).le hr)

theorem Rising.join (hr : Rising k links) (hs : k.revOrder.get v < k.revOrder.get s) :
    Rising k (PostDominators.join k limit v links s) := by
  intro u w hu
  rw [PostDominators.join, get_set] at hu
  split at hu
  · next hvu =>
    subst hvu
    rcases hv : links.get v with _ | a
    · rw [hv] at hu
      cases hu
      exact hs
    · rw [hv] at hu
      exact Nat.lt_of_lt_of_le (hr v a hv) ((climbs_of_meet hu).le hr)
  · exact hr u w hu

/-! ## The first pass -/

/-- Taking in a successor leads a node to the first that it and the link before have in
common. -/
theorem exists_join_common (U : Uphill g k) (hr : Rising k links)
    (hexact : ∀ u, k.revOrder.get v < k.revOrder.get u → Exact g links u)
    (hlimit : 2 * g.size ≤ limit) (hs : k.revOrder.get v < k.revOrder.get s)
    (hp : ∀ b ∈ (links.get v).toList ++ [s], Unavoidable g.next p b) :
    ∃ c, (join k limit v links s).get v = some c ∧
      FirstCommon g.next ((links.get v).toList ++ [s]) c := by
  rw [join, get_set, if_pos rfl]
  rcases hv : links.get v with _ | a
  · exact ⟨s, rfl, by simp [Unavoidable.refl], fun d hd => hd s (by simp)⟩
  · rw [hv] at hp
    exact exists_meet_common U hr hexact hlimit (hr v a hv) hs (hp a (by simp)) (hp s (by simp))

theorem foldl_join_common (U : Uphill g k) (hlimit : 2 * g.size ≤ limit) (v : g.Node)
    (ss : List g.Node) (hss : ∀ s ∈ ss, k.revOrder.get v < k.revOrder.get s) :
    ∀ links, Rising k links → (∀ u, k.revOrder.get v < k.revOrder.get u → Exact g links u) →
      Rising k (ss.foldl (join k limit v) links) ∧
      (∀ u, u ≠ v → (ss.foldl (join k limit v) links).get u = links.get u) ∧
      ∀ p, (links.get v).toList ++ ss ≠ [] →
        (∀ b ∈ (links.get v).toList ++ ss, Unavoidable g.next p b) →
        ∃ c, (ss.foldl (join k limit v) links).get v = some c ∧
          FirstCommon g.next ((links.get v).toList ++ ss) c := by
  induction ss with
  | nil =>
    refine fun links hr _ => ⟨hr, fun _ _ => rfl, fun p hne _ => ?_⟩
    rcases hv : links.get v with _ | a
    · simp [hv] at hne
    · exact ⟨a, hv, by simp [Unavoidable.refl], fun d hd => hd a (by simp)⟩
  | cons s ss ih =>
    intro links hr hexact
    obtain ⟨hs, hss⟩ := List.forall_mem_cons.1 hss
    have hoff (u : g.Node) (hu : u ≠ v) : (join k limit v links s).get u = links.get u := by
      rw [join, get_set, if_neg (Ne.symm hu)]
    obtain ⟨hr', hoff', hcommon⟩ := ih hss (join k limit v links s) (hr.join hs) fun u hu => by
      rw [Exact, hoff u fun h => Nat.lt_irrefl _ (h ▸ hu)]
      exact hexact u hu
    refine ⟨hr', fun u hu => (hoff' u hu).trans (hoff u hu), fun p _ hp => ?_⟩
    rw [List.append_cons] at hp ⊢
    obtain ⟨c, hc, hfirst⟩ := exists_join_common U hr hexact hlimit hs fun b hb =>
      hp b (List.mem_append_left _ hb)
    rw [hc] at hcommon
    obtain ⟨c', hc', hfirst'⟩ := hcommon p (List.cons_ne_nil c ss) <| List.forall_mem_cons.2
      ⟨hfirst.first p fun b hb => hp b (List.mem_append_left _ hb), fun b hb =>
        hp b (List.mem_append_right _ hb)⟩
    exact ⟨c', hc', hfirst.append U hfirst'⟩

/-- What holds in the first pass with some nodes still to come: these have no link yet, and
the others an exact one. -/
structure Found (g : NodeGraph) (k : Numbering g.size) (rest : List g.Node)
    (links : PostDominators g.size) : Prop where
  rising : Rising k links
  exact : ∀ v, v ∉ rest → Exact g links v
  fresh : ∀ v ∈ rest, links.get v = none

theorem Found.foldl (U : Uphill g k) (hlimit : 2 * g.size ≤ limit) (rest : List g.Node)
    (hdown : rest.Pairwise fun u v => k.revOrder.get v < k.revOrder.get u)
    (habove : ∀ u, u ∉ rest → ∀ v ∈ rest, k.revOrder.get v < k.revOrder.get u) :
    ∀ links, Found g k rest links →
      Found g k [] (rest.foldl
        (fun links v => ((g.next v).filter fun s =>
          k.revOrder.get v < k.revOrder.get s).foldl (join k limit v) links) links) := by
  induction rest with
  | nil => exact fun _ F => F
  | cons v rest ih =>
    intro links F
    obtain ⟨hbelow, hdown⟩ := List.pairwise_cons.1 hdown
    have hall : (g.next v).filter (fun s => k.revOrder.get v < k.revOrder.get s) = g.next v :=
      List.filter_eq_self.2 fun s hs => decide_eq_true (U.rise v s hs)
    have hnone : links.get v = none := F.fresh v List.mem_cons_self
    obtain ⟨hr, hoff, hcommon⟩ := foldl_join_common U hlimit v (g.next v) (U.rise v) links F.rising
      fun u hu => F.exact u fun hmem => by
        rcases List.mem_cons.1 hmem with rfl | hmem
        · exact Nat.lt_irrefl _ hu
        · exact Nat.lt_asymm hu (hbelow u hmem)
    rw [hnone, Option.toList_none, List.nil_append] at hcommon
    rw [List.foldl_cons, hall]
    refine ih hdown (fun u hu w hw => ?_) _ ⟨hr, fun u hu d hdu hd => ?_, fun u hu => ?_⟩
    · by_cases huv : u = v
      · exact huv ▸ hbelow w hw
      · exact habove u (fun h => (List.mem_cons.1 h).elim huv hu) w (List.mem_cons_of_mem _ hw)
    · by_cases huv : u = v
      · subst huv
        obtain ⟨s, hs⟩ := hd.exists_next hdu
        have hnext := List.ne_nil_of_mem hs
        obtain ⟨c, hc, hfirst⟩ := hcommon d hnext fun s hs => hd.of_step hdu hs
        refine ⟨c, hc, hfirst.firstUnavoidable hnext fun hcu => ?_⟩
        exact Nat.lt_irrefl _ (hcu ▸ hr u c hc)
      · rw [hoff u huv]
        exact F.exact u (fun h => (List.mem_cons.1 h).elim huv hu) d hdu hd
    · have huv : u ≠ v := fun h => Nat.lt_irrefl _ (h ▸ hbelow u hu)
      exact (hoff u huv).trans (F.fresh u (List.mem_cons_of_mem _ hu))

/-! ## The other passes -/

theorem join_exact (U : Uphill g k) (hlimit : 2 * g.size ≤ limit) (hs : s ∈ g.next v)
    (h : Rising k links ∧ ∀ u, Exact g links u) :
    Rising k (join k limit v links s) ∧ ∀ u, Exact g (join k limit v links s) u := by
  obtain ⟨hr, hexact⟩ := h
  by_cases hv : ∃ d, d ≠ v ∧ Unavoidable g.next d v
  · obtain ⟨d, hdv, hd⟩ := hv
    obtain ⟨a, ha, hfirst⟩ := hexact v d hdv hd
    have hsa : Climbs links s a := climbs_of_unavoidable (m := 0) U (fun u _ => hexact u)
      (Nat.zero_le _) (hfirst.unavoidable.of_step hfirst.ne hs)
    obtain ⟨c, hc, hmeet⟩ :=
      exists_meet_of_common U.bound U.injective hr hlimit (.stop a) hsa
    rw [join, ha, hc, hmeet.eq_left hr hsa, set_eq_self ha]
    exact ⟨hr, hexact⟩
  · refine ⟨hr.join (U.rise v s hs), fun u d hdu hd => ?_⟩
    have huv : v ≠ u := by
      rintro rfl
      exact hv ⟨d, hdu, hd⟩
    rw [join, get_set, if_neg huv]
    exact hexact u d hdu hd

/-- Without cycles the links that are found rise and are exact. -/
theorem exact_compute (U : Uphill g k) (hlimit : 2 * g.size ≤ limit)
    (hall : ∀ v, v ∈ k.revOrdering)
    (hup : k.revOrdering.Pairwise fun u v => k.revOrder.get u < k.revOrder.get v)
    (hback : ∀ v, ∀ s ∈ g.next v, k.isBackEdge v s = false) :
    Rising k (compute g k limit) ∧ ∀ v, Exact g (compute g k limit) v := by
  have hnone (v : g.Node) : (unknown g.size).get v = none := get_replicate _ _
  have F : Found g k [] (ascend g k limit (unknown g.size)) := by
    refine Found.foldl U hlimit _ (List.pairwise_reverse.2 hup)
      (fun u hu => absurd (List.mem_reverse.2 (hall u)) hu) _
      ⟨fun v w h => ?_, fun v hv => absurd (List.mem_reverse.2 (hall v)) hv, fun v _ => hnone v⟩
    rw [hnone] at h
    cases h
  let P (links : PostDominators g.size) : Prop := Rising k links ∧ ∀ u, Exact g links u
  have hbranch : P (branch g k limit (ascend g k limit (unknown g.size))) :=
    pass_induction (fun _ _ _ _ hs h => join_exact U hlimit hs h)
      ⟨F.rising, fun v => F.exact v List.not_mem_nil⟩
  exact pass_induction (P := P) (fun links v s _ hs h => by
    rw [joinThrough_eq_join (hback v s hs)]
    exact join_exact U hlimit hs h) hbranch

end PostDominators

/-! ## Procedures -/

namespace StructuredProcedure

/-- **Follows of branches with dead ends.** When the entry reaches no cycle and the
limit is at least twice the number of nodes, a block from which another is unavoidable is
linked to the first such, and follows there if it has a choice. A link that leads anywhere
leads to something unavoidable exactly when there is such a block. -/
theorem linked_to_first_unavoidable (q : Procedure) (settings : Settings)
    (hbuilt : q.graph.Built) (hentry : q.graph.hasBlock q.graph.entry = true)
    (hacyclic : ∀ b c, q.graph.Reached b → c ∈ q.graph.flow b →
      ¬ Reaches (Along q.graph.flow) c b) :
    ∃ p, NumberedProcedure.build q settings.walkLimit = .ok p ∧
      ofProcedure q settings = .ok p.classify ∧
      (2 * p.graph.size ≤ settings.walkLimit → ∀ n,
        (∀ b, b ≠ p.graph.blockOf n → Unavoidable q.graph.flow b (p.graph.blockOf n) →
          ∃ m, p.postDominators.get n = some m ∧
            FirstUnavoidable q.graph.flow (p.graph.blockOf m) (p.graph.blockOf n)) ∧
        (∀ m, p.postDominators.get n = some m →
          (Unavoidable q.graph.flow (p.graph.blockOf m) (p.graph.blockOf n) ↔
            ∃ b, b ≠ p.graph.blockOf n ∧ Unavoidable q.graph.flow b (p.graph.blockOf n))) ∧
        (2 ≤ (p.graph.next n).length →
          (p.classify.role n).follow = p.postDominators.get n)) := by
  obtain ⟨p, hbuild, D, hnumbering, hlinks⟩ :=
    NumberedProcedure.exists_build q settings.walkLimit hbuilt hentry
  refine ⟨p, hbuild, ofProcedure_of_build hbuild, fun hlimit n => ?_⟩
  have hturnless := D.acyclic hacyclic
  have U := PostDominators.uphill D hturnless
  obtain ⟨hr, hexact⟩ := PostDominators.exact_compute U hlimit (Numbering.mem_revOrdering D)
    (Numbering.pairwise_revOrdering p.graph) fun v s hs =>
      Numbering.isBackEdge_eq_false D hturnless hs
  rw [hnumbering] at hlinks
  rw [← hlinks] at hr hexact
  have hfirst (b : BlockId) (hb : b ≠ p.graph.blockOf n)
      (hun : Unavoidable q.graph.flow b (p.graph.blockOf n)) :
      ∃ m, p.postDominators.get n = some m ∧
        FirstUnavoidable q.graph.flow (p.graph.blockOf m) (p.graph.blockOf n) := by
    obtain ⟨x, rfl⟩ := D.exists_node_of_unavoidable U hun
    obtain ⟨m, hm, hfirst⟩ :=
      hexact n x (fun h => hb (congrArg _ h)) (D.unavoidable_iff.2 hun)
    exact ⟨m, hm, D.firstUnavoidable U hfirst⟩
  refine ⟨hfirst, fun m hm => ⟨fun h => ⟨_, fun hmn => ?_, h⟩, fun ⟨b, hb, hun⟩ => ?_⟩,
    fun hchoice => p.follow_classify D hnumbering hturnless hchoice⟩
  · rw [D.blockOf_injective hmn] at hm
    exact Nat.lt_irrefl _ (hr n n hm)
  · obtain ⟨m', hm', hfirst⟩ := hfirst b hb hun
    obtain rfl : m = m' := Option.some.inj (hm.symm.trans hm')
    exact hfirst.unavoidable

/-- A check that may end the program, then a choice that is joined again. -/
def aborting : Procedure :=
  .ofGraph 0 "abort" (.empty 4)
    ((Graph.empty 0 5).addBlock (.empty 0 "check") |>.addBlock (.empty 1 "abort")
      |>.addBlock (.empty 2 "choose") |>.addBlock (.empty 3 "left") |>.addBlock (.empty 4 "right")
      |>.addBlock (.empty 5 "done") |>.addEdge 0 1 |>.addEdge 0 2 |>.addEdge 2 3 |>.addEdge 2 4
      |>.addEdge 3 5 |>.addEdge 4 5)

theorem built_aborting : aborting.graph.Built :=
  .addEdge _ _ (.addEdge _ _ (.addEdge _ _ (.addEdge _ _ (.addEdge _ _ (.addEdge _ _ (.addBlock _
    (.addBlock _ (.addBlock _ (.addBlock _ (.addBlock _ (.addBlock _ (.empty 0 5))))))))))))

theorem acyclic_aborting : Acyclic (Along aborting.graph.flow) :=
  .of_rank id fun u v h =>
    (by decide : ∀ e ∈ aborting.graph.edges, e.1 < e.2) (u, v)
      (Graph.mem_successors.1 (Graph.mem_flow.1 h).1)

theorem unavoidable_aborting : Unavoidable aborting.graph.flow 5 2 := by
  refine .of_next (by decide) fun s hs => .of_next ?_ fun t ht => ?_
  · revert s
    decide
  · obtain rfl : t = 5 := by
      revert s t
      decide
    exact .refl 5

/-- Its second choice follows at the first block that neither branch avoids. -/
theorem linked_to_first_unavoidable_aborting :
    aborting.graph.Built ∧ aborting.graph.hasBlock aborting.graph.entry = true ∧
      (∀ b c, aborting.graph.Reached b → c ∈ aborting.graph.flow b →
        ¬ Reaches (Along aborting.graph.flow) c b) ∧
      Unavoidable aborting.graph.flow 5 2 ∧
      ∃ p n m, NumberedProcedure.build aborting 12 = .ok p ∧
        ofProcedure aborting (Settings.sequential.withWalkLimit 12) = .ok p.classify ∧
        2 * p.graph.size ≤ 12 ∧ p.graph.blockOf n = 2 ∧ p.postDominators.get n = some m ∧
        FirstUnavoidable aborting.graph.flow (p.graph.blockOf m) 2 := by
  refine ⟨built_aborting, by decide, fun b c _ => acyclic_aborting b c, unavoidable_aborting, ?_⟩
  obtain ⟨p, hbuild, hproc, hexact⟩ := linked_to_first_unavoidable aborting
    (Settings.sequential.withWalkLimit 12) built_aborting (by decide)
    fun b c _ => acyclic_aborting b c
  obtain ⟨p', hbuild', D, -⟩ :=
    NumberedProcedure.exists_build aborting 12 built_aborting (by decide)
  obtain rfl : p' = p := Except.ok.inj (hbuild'.symm.trans hbuild)
  have hsize : 2 * p'.graph.size ≤ 12 := Nat.mul_le_mul_left 2 D.size_le
  have hreached : aborting.graph.Reached 2 := .step (by decide : 2 ∈ _) (.refl 2)
  obtain ⟨n, hn⟩ := D.exists_node hreached
  obtain ⟨m, hm, hfirst⟩ := (hexact hsize n).1 5 (by rw [hn]; decide) (hn ▸ unavoidable_aborting)
  exact ⟨p', n, m, hbuild', hproc, hsize, hn, hm, hn ▸ hfirst⟩

/-- Its first choice is linked to the block that ends the program and follows there, though
the other branch never comes to it. -/
theorem not_unavoidable_aborting :
    aborting.graph.Built ∧ aborting.graph.hasBlock aborting.graph.entry = true ∧
      (∀ b c, aborting.graph.Reached b → c ∈ aborting.graph.flow b →
        ¬ Reaches (Along aborting.graph.flow) c b) ∧
      ∃ p n m, NumberedProcedure.build aborting 12 = .ok p ∧
        ofProcedure aborting (Settings.sequential.withWalkLimit 12) = .ok p.classify ∧
        2 * p.graph.size ≤ 12 ∧ p.postDominators.get n = some m ∧
        (p.classify.role n).follow = some m ∧
        ¬ Unavoidable aborting.graph.flow (p.graph.blockOf m) (p.graph.blockOf n) := by
  obtain ⟨p, hbuild, D, hnumbering, -⟩ :=
    NumberedProcedure.exists_build aborting 12 built_aborting (by decide)
  have hlink : ((NumberedProcedure.build aborting 12).toOption.bind fun p =>
      (p.graph.nodeOf? 0).bind fun n => (p.postDominators.get n).map fun m =>
        (p.graph.blockOf m, (p.graph.next n).length)) = some (1, 2) := by
    decide +kernel
  rw [hbuild] at hlink
  obtain ⟨p', hp, hlink⟩ := Option.bind_eq_some_iff.1 hlink
  obtain rfl : p = p' := Option.some.inj hp
  obtain ⟨n, hn, hlink⟩ := Option.bind_eq_some_iff.1 hlink
  obtain ⟨m, hm, hm1⟩ := Option.map_eq_some_iff.1 hlink
  rw [Prod.mk.injEq] at hm1
  obtain ⟨hm1, hn2⟩ := hm1
  have hacyclic : Acyclic (Along p.graph.next) := D.acyclic fun b c _ => acyclic_aborting b c
  have hfollow := p.follow_classify D hnumbering hacyclic (Nat.le_of_eq hn2.symm)
  refine ⟨built_aborting, by decide, fun b c _ => acyclic_aborting b c, p, n, m, hbuild,
    ofProcedure_of_build hbuild, Nat.mul_le_mul_left 2 D.size_le, hm, hfollow.trans hm, fun h => ?_⟩
  rw [hm1, NodeGraph.blockOf_of_nodeOf? hn] at h
  have hwalk : Walk (Along aborting.graph.flow) 0 5 [0, 2, 3, 5] :=
    .step (by decide : 2 ∈ _) (.step (by decide : 3 ∈ _) (.step (by decide : 5 ∈ _) (.stop 5)))
  exact absurd (h 5 (by decide) _ hwalk) (by decide)

end StructuredProcedure
end Recovery
