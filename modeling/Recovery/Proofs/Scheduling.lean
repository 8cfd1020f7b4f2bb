import Mathlib.Data.List.Perm.Basic
import Recovery.Proofs.Program
/-
  Treating procedures in any order.

  Both passes treat one procedure after the other, and each treatment reads and
  writes its own procedure and, in the first pass, its own summary. So a program
  after a part of an order has been treated is the program before it with the
  treated places taken from the program after it (`Revised`), and in the end
  nothing is left of the order:

    1. procedures stand in their places whenever they were put there
       (`Revised.all`);
    2. summaries were there before the first was treated, so writing them back in
       another order gives the same table (`Table.foldl_put_perm`);
    3. counts are added up, which commutes.

  The second pass sees other procedures through the table of signatures only, and
  of it no more than the rows of the callees (`Binding.procedure_congr`).
  `recoverCalls_in_any_order` puts this together.
-/

namespace Recovery

/-! ## One procedure at a time -/

namespace Program

/-- The orders in which each procedure of a program is treated once. -/
def Schedule (p : Program) (order : List ProcedureId) : Prop :=
  order.Perm (p.procedures.map Procedure.id)

/-- The first pass over one procedure and its summary. -/
def synthesizeAt (settings : Settings) (state : Program × Summaries) (i : ProcedureId) :
    Except Error (Program × Summaries) := do
  let (p, summaries) := state
  let q ← p.get i
  let (q', s) ← Synthesis.treat settings p.architecture p.platform q (summaries.of q.id)
  return (p.set i q', summaries.put q.id s)

/-- The first pass over procedures in an order. Every procedure has a summary before
the first one is treated. -/
def synthesizeIn (settings : Settings) (order : List ProcedureId) (p : Program)
    (summaries : Summaries) : Except Error (Program × Summaries × SignatureTable) := do
  let ensured := p.procedures.foldl (fun t q => t.ensure q.id) summaries
  let (p, summaries) ← order.foldlM (synthesizeAt settings) (p, ensured)
  return (p, summaries, p.signatures)

/-- The second pass over one procedure, which adds to the counts. -/
def bindAt (table : SignatureTable) (state : Program × Binding.Counts) (i : ProcedureId) :
    Program × Binding.Counts :=
  match state.1.procedure? i with
  | none => state
  | some q =>
    let (q', counts) := Binding.procedure state.1.architecture table q
    (state.1.set i q', state.2 + counts)

/-- The second pass over procedures in an order, against one table. -/
def bindCallsIn (order : List ProcedureId) (p : Program) (table : SignatureTable) :
    Program × Binding.Counts :=
  order.foldl (bindAt table) (p, .zero)

end Program

/-- The procedure of the program that a statement calls, if it is a call of one. -/
def Statement.callee? (s : Statement) : Option ProcedureId :=
  match s.instruction with
  | .call (.procedure c) _ => some c
  | _ => none

/-- The procedures of the program that a procedure calls. -/
def Procedure.callees (q : Procedure) : List ProcedureId :=
  q.graph.blocks.flatMap fun b => b.statements.filterMap Statement.callee?

/-! ## Places -/

/-- `Revised xs ys done zs`: the list `zs` is `xs` with some places taken from `ys`. -/
def Revised {α : Type} (xs ys : List α) (done : List Nat) (zs : List α) : Prop :=
  ∀ j, zs[j]? = if j ∈ done then ys[j]? else xs[j]?

namespace Revised
variable {α : Type} {xs ys zs : List α} {done : List Nat} {i : Nat} {x y : α}

theorem start (xs ys : List α) : Revised xs ys [] xs := by
  intro j
  rw [if_neg List.not_mem_nil]

theorem getElem? (h : Revised xs ys done zs) (hi : i ∉ done) : zs[i]? = xs[i]? := by
  rw [h i, if_neg hi]

theorem set (h : Revised xs ys done zs) (hi : i ∉ done) (hx : xs[i]? = some x)
    (hy : ys[i]? = some y) : Revised xs ys (done ++ [i]) (zs.set i y) := by
  intro j
  rw [List.getElem?_set]
  by_cases hij : i = j
  · subst hij
    have hlt : i < zs.length := by
      rw [← h.getElem? hi] at hx
      exact (List.getElem?_eq_some_iff.1 hx).1
    rw [if_pos rfl, if_pos hlt, if_pos (List.mem_append_right _ (List.mem_singleton_self i)), hy]
  · have hmem : j ∈ done ++ [i] ↔ j ∈ done := by
      rw [List.mem_append, List.mem_singleton, or_iff_left (Ne.symm hij)]
    rw [if_neg hij, h j]
    simp only [hmem]

theorem all (h : Revised xs ys done zs) (hlength : xs.length = ys.length)
    (hall : ∀ j < xs.length, j ∈ done) : zs = ys := by
  apply List.ext_getElem?
  intro j
  rw [h j]
  split
  · rfl
  · next hj =>
    have hle : xs.length ≤ j := Nat.le_of_not_lt fun hlt => hj (hall j hlt)
    rw [List.getElem?_eq_none hle, List.getElem?_eq_none (hlength ▸ hle)]

end Revised

theorem filterMap_getElem?_range {α : Type} (l : List α) :
    (List.range l.length).filterMap (fun i => l[i]?) = l := by
  induction l with
  | nil => rfl
  | cons a l ih =>
    rw [List.length_cons, List.range_succ_eq_map, List.filterMap_cons_some List.getElem?_cons_zero,
      List.filterMap_map]
    exact congrArg _ ih

/-- Reading a list at all its places, in any order, gives its elements in an order. -/
theorem filterMap_getElem?_perm {α : Type} {l : List α} {order : List Nat}
    (h : order.Perm (List.range l.length)) : (order.filterMap fun i => l[i]?).Perm l := by
  have hperm := h.filterMap fun i => l[i]?
  rw [filterMap_getElem?_range] at hperm
  exact hperm

/-! ## Summaries -/

namespace Summaries
variable {t : Summaries}

theorem of_ensure (t : Summaries) (i j : ProcedureId) : (t.ensure i).of j = t.of j := by
  rw [of, ensure, Table.get?_put]
  split
  · next hij => rw [hij, Option.getD_some]
  · rfl

theorem foldl_ensure (ids : List ProcedureId) :
    ∀ t : Summaries, ids.foldl ensure t =
      (ids.map fun i => (i, t.of i)).foldl (fun t e => t.put e.1 e.2) t := by
  induction ids with
  | nil => exact fun _ => rfl
  | cons i ids ih =>
    intro t
    rw [List.foldl_cons, ih, List.map_cons, List.foldl_cons]
    simp only [of_ensure]
    rfl

theorem of_foldl_ensure (ids : List ProcedureId) (j : ProcedureId) :
    ∀ t : Summaries, (ids.foldl ensure t).of j = t.of j := by
  induction ids with
  | nil => exact fun _ => rfl
  | cons i ids ih =>
    intro t
    rw [List.foldl_cons, ih, of_ensure]

/-- The summaries after the procedures of `done` have been treated, where `made`
lists what becomes of all summaries. -/
def after (t : Summaries) (made : List (ProcedureId × Summary)) (done : List ProcedureId) :
    Summaries :=
  (done.filterMap fun i => made[i]?).foldl (fun t e => t.put e.1 e.2) t

section
variable {made : List (ProcedureId × Summary)} {done order : List ProcedureId} {i : ProcedureId}
  {s : Summary}

theorem after_append (hi : made[i]? = some (i, s)) :
    t.after made (done ++ [i]) = (t.after made done).put i s := by
  rw [after, List.filterMap_append, List.foldl_append, List.filterMap_cons_some hi]
  rfl

theorem fst_eq_of_getElem? (hmade : made.map Prod.fst = List.range made.length)
    {e : ProcedureId × Summary} (hi : made[i]? = some e) : e.1 = i := by
  obtain ⟨hlt, -⟩ := List.getElem?_eq_some_iff.1 hi
  have hfst : (made.map Prod.fst)[i]? = some e.1 := by
    rw [List.getElem?_map, hi, Option.map_some]
  rw [hmade, List.getElem?_range hlt] at hfst
  exact (Option.some.inj hfst).symm

theorem of_after (hmade : made.map Prod.fst = List.range made.length) (hi : i ∉ done) :
    (t.after made done).of i = t.of i := by
  have hkey : i ∉ (done.filterMap fun i => made[i]?).map Prod.fst := by
    intro hmem
    obtain ⟨e, he, rfl⟩ := List.mem_map.1 hmem
    obtain ⟨j, hj, hje⟩ := List.mem_filterMap.1 he
    rw [fst_eq_of_getElem? hmade hje] at hi
    exact hi hj
  rw [of, after, Table.get?_foldl_put_of_not_mem _ hkey, of]

/-- In whatever order the summaries are written, they come to the same table, since
each was there before the first of them was written. -/
theorem after_schedule (hmade : made.map Prod.fst = List.range made.length)
    (horder : order.Perm (List.range made.length)) :
    after ((List.range made.length).foldl ensure t) made order =
      made.foldl (fun t e => t.put e.1 e.2) t := by
  have hperm : (order.filterMap fun i => made[i]?).Perm made := filterMap_getElem?_perm horder
  have hd : (made.map Prod.fst).Nodup := by
    rw [hmade]
    exact List.nodup_range
  have hkeys : ((List.range made.length).map fun i => (i, t.of i)).map Prod.fst =
      made.map Prod.fst := by
    rw [hmade, List.map_map]
    exact List.map_id _
  rw [foldl_ensure, after]
  calc (order.filterMap fun i => made[i]?).foldl (fun t e => t.put e.1 e.2)
        (((List.range made.length).map fun i => (i, t.of i)).foldl (fun t e => t.put e.1 e.2) t)
      = made.foldl (fun t e => t.put e.1 e.2)
          (((List.range made.length).map fun i => (i, t.of i)).foldl
            (fun t e => t.put e.1 e.2) t) := by
        refine Table.foldl_put_perm hperm ((hperm.map _).nodup_iff.2 hd) _ fun e he => ?_
        rw [Table.mem_keys_foldl_put, hkeys]
        exact Or.inr (List.mem_map_of_mem (hperm.mem_iff.1 he))
    _ = made.foldl (fun t e => t.put e.1 e.2) t :=
        Table.foldl_put_foldl_put hkeys (hkeys ▸ hd) t

end

end Summaries

/-! ## The first pass -/

namespace Program
variable {p : Program} {order : List ProcedureId}

theorem Numbered.ids_eq_range (hp : p.Numbered) :
    p.procedures.map Procedure.id = List.range p.procedures.length := by
  apply List.ext_getElem?
  intro i
  rw [List.getElem?_map]
  cases hq : p.procedures[i]? with
  | none =>
    have hle := List.getElem?_eq_none_iff.1 hq
    rw [List.getElem?_eq_none (by rw [List.length_range]; exact hle)]
    rfl
  | some q =>
    obtain ⟨hlt, -⟩ := List.getElem?_eq_some_iff.1 hq
    rw [List.getElem?_range hlt, Option.map_some, hp i q hq]

theorem Schedule.perm_range (horder : p.Schedule order) (hp : p.Numbered) :
    order.Perm (List.range p.procedures.length) := by
  rw [Schedule, hp.ids_eq_range] at horder
  exact horder

theorem Schedule.mem_iff (horder : p.Schedule order) (hp : p.Numbered) {i : ProcedureId} :
    i ∈ order ↔ i < p.procedures.length := by
  rw [(horder.perm_range hp).mem_iff, List.mem_range]

/-- An order treats no procedure a second time, and each one is there. -/
theorem Schedule.of_split (horder : p.Schedule order) (hp : p.Numbered) {i : ProcedureId}
    {done rest : List ProcedureId} (hl : done ++ i :: rest = order) :
    i ∉ done ∧ ∃ q, p.procedures[i]? = some q := by
  constructor
  · have hnodup : order.Nodup := (horder.perm_range hp).nodup_iff.2 List.nodup_range
    rw [← hl, List.nodup_append] at hnodup
    exact fun hi => hnodup.2.2 i hi i List.mem_cons_self rfl
  · exact ⟨_, List.getElem?_eq_getElem ((horder.mem_iff hp).1 (mem_of_split hl))⟩

section
variable {settings : Settings} {summaries : Summaries} {ts : List (Procedure × Summary)}

/-- Treating one procedure reads and writes its place and its summary only. -/
theorem synthesizeAt_eq_ok {i : ProcedureId} {q : Procedure} {t : Procedure × Summary}
    (hq : p.procedures[i]? = some q)
    (ht : Synthesis.treat settings p.architecture p.platform q (summaries.of q.id) = .ok t) :
    synthesizeAt settings (p, summaries) i = .ok (p.set i t.1, summaries.put q.id t.2) := by
  have hget : p.get i = .ok q := by
    rw [get, procedure?, hq]
  unfold synthesizeAt
  dsimp only
  rw [hget]
  show (Synthesis.treat settings p.architecture p.platform q (summaries.of q.id) >>= fun t =>
    pure (p.set i t.1, summaries.put q.id t.2)) = _
  rw [ht]
  rfl

/-- The first pass comes to the same in every order. -/
theorem synthesizeIn_eq_ok (hp : p.Numbered)
    (hall : List.Forall₂ (fun q t => Synthesis.treat settings p.architecture p.platform q
      (summaries.of q.id) = .ok t) p.procedures ts) (horder : p.Schedule order) :
    p.synthesizeIn settings order summaries =
      .ok ({ p with procedures := ts.map Prod.fst },
        ts.foldl (fun t u => t.put u.1.id u.2) summaries,
        { p with procedures := ts.map Prod.fst }.signatures) := by
  let made : List (ProcedureId × Summary) := ts.map fun t => (t.1.id, t.2)
  let ensured : Summaries := (List.range made.length).foldl Summaries.ensure summaries
  have hlength : p.procedures.length = made.length := by
    rw [List.length_map, hall.length_eq]
  have hmade : made.map Prod.fst = List.range made.length := by
    have hids := (hp.of_run hall).ids_eq_range
    rw [List.length_map] at hids
    rw [List.length_map, ← hids, List.map_map, List.map_map]
    rfl
  have hrun := exists_foldlM_along (f := synthesizeAt settings)
    (motive := fun done state => ∃ qs, state = ({ p with procedures := qs },
      ensured.after made done) ∧ Revised p.procedures (ts.map Prod.fst) done qs)
    order ?_ (p, ensured) ⟨p.procedures, rfl, Revised.start _ _⟩
  · obtain ⟨state, hstate, qs, rfl, hrevised⟩ := hrun
    have hqs : qs = ts.map Prod.fst := by
      refine hrevised.all ?_ fun j hj => (horder.mem_iff hp).2 hj
      rw [List.length_map, hall.length_eq]
    have hsummaries := Summaries.after_schedule (t := summaries) hmade
      (hlength ▸ horder.perm_range hp)
    unfold synthesizeIn
    rw [← List.foldl_map (f := Procedure.id) (g := Summaries.ensure), hp.ids_eq_range, hlength]
    show (order.foldlM (synthesizeAt settings) (p, ensured) >>= fun state => _) = _
    rw [hstate, hqs, hsummaries, List.foldl_map]
    rfl
  · rintro done i rest hl state ⟨qs, rfl, hrevised⟩
    obtain ⟨hi, q, hq⟩ := horder.of_split hp hl
    obtain ⟨t, ht, htreat⟩ := exists_right_of_getElem? hall hq
    have hid : q.id = i := hp i q hq
    have hat : made[i]? = some (i, t.2) := by
      rw [List.getElem?_map, ht, Option.map_some, (Synthesis.of_treat htreat).1, hid]
    have hread : (ensured.after made done).of q.id = summaries.of q.id := by
      rw [hid, Summaries.of_after hmade hi, Summaries.of_foldl_ensure]
    refine ⟨_, synthesizeAt_eq_ok (t := t) ((hrevised.getElem? hi).trans hq) ?_, qs.set i t.1, ?_,
      hrevised.set hi hq ?_⟩
    · rw [hread]
      exact htreat
    · rw [Summaries.after_append hat, hid]
      rfl
    · rw [List.getElem?_map, ht]
      rfl

end

/-! ## The second pass -/

theorem bindAt_eq {table : SignatureTable} {counts : Binding.Counts} {i : ProcedureId}
    {q : Procedure} (hq : p.procedures[i]? = some q) :
    bindAt table (p, counts) i =
      (p.set i (Binding.procedure p.architecture table q).1,
        counts + (Binding.procedure p.architecture table q).2) := by
  unfold bindAt
  rw [procedure?, hq]

theorem add_add_comm (c d e : Binding.Counts) : c + d + e = c + e + d := by
  obtain ⟨cb, cu, cr⟩ := c
  obtain ⟨db, du, dr⟩ := d
  obtain ⟨eb, eu, er⟩ := e
  show Binding.Counts.mk (cb + db + eb) (cu + du + eu) (cr + dr + er) =
    ⟨cb + eb + db, cu + eu + du, cr + er + dr⟩
  rw [Nat.add_right_comm cb, Nat.add_right_comm cu, Nat.add_right_comm cr]

theorem foldl_add_perm {cs ds : List Binding.Counts} (h : cs.Perm ds) :
    cs.foldl (· + ·) Binding.Counts.zero = ds.foldl (· + ·) Binding.Counts.zero :=
  haveI : RightCommutative fun c d : Binding.Counts => c + d := ⟨add_add_comm⟩
  h.foldl_eq _

theorem bindCallsIn_eq (hp : p.Numbered) (table : SignatureTable) (horder : p.Schedule order) :
    p.bindCallsIn order table = p.bindCalls table := by
  let bound := p.procedures.map (Binding.procedure p.architecture table)
  have hlength : p.procedures.length = bound.length := (List.length_map _).symm
  have hrun := foldl_along (f := bindAt table)
    (motive := fun done state => ∃ qs, state = ({ p with procedures := qs },
        (done.filterMap fun i => (bound.map Prod.snd)[i]?).foldl (· + ·) Binding.Counts.zero) ∧
      Revised p.procedures (bound.map Prod.fst) done qs)
    order ?_ (p, .zero) ⟨p.procedures, rfl, Revised.start _ _⟩
  · obtain ⟨qs, hstate, hrevised⟩ := hrun
    have hqs : qs = bound.map Prod.fst := by
      refine hrevised.all ?_ fun j hj => (horder.mem_iff hp).2 hj
      rw [List.length_map, List.length_map]
    have hperm : (order.filterMap fun i => (bound.map Prod.snd)[i]?).Perm (bound.map Prod.snd) := by
      apply filterMap_getElem?_perm
      rw [List.length_map, ← hlength]
      exact horder.perm_range hp
    rw [bindCallsIn, hstate, hqs, foldl_add_perm hperm]
    rfl
  · rintro done i rest hl state ⟨qs, rfl, hrevised⟩
    obtain ⟨hi, q, hq⟩ := horder.of_split hp hl
    have hat : bound[i]? = some (Binding.procedure p.architecture table q) := by
      rw [List.getElem?_map, hq, Option.map_some]
    refine ⟨qs.set i (Binding.procedure p.architecture table q).1, ?_, hrevised.set hi hq ?_⟩
    · rw [bindAt_eq ((hrevised.getElem? hi).trans hq), List.filterMap_append,
        List.foldl_append, List.filterMap_cons_some (by rw [List.getElem?_map, hat]; rfl)]
      rfl
    · rw [List.getElem?_map, hat]
      rfl

end Program

/-! ## What one procedure depends on -/

namespace Binding
variable {a : Architecture} {table table' : SignatureTable}

theorem statement_congr {s : Statement}
    (h : ∀ c, s.callee? = some c → table'.get? c = table.get? c) (f : Frame) :
    statement a table' f s = statement a table f s := by
  obtain ⟨address, instruction⟩ := s
  cases instruction with
  | call callee site =>
    have hsig : signatureOf? table' callee = signatureOf? table callee := by
      cases callee with
      | procedure c => exact h c rfl
      | external => rfl
      | indirect => rfl
    unfold statement
    dsimp only
    rw [hsig]
  | assignment | sideEffect | branch | leave | use => rfl

theorem statements_congr (body : List Statement)
    (h : ∀ c ∈ body.filterMap Statement.callee?, table'.get? c = table.get? c) :
    ∀ f, statements a table' f body = statements a table f body := by
  induction body with
  | nil => exact fun _ => rfl
  | cons s rest ih =>
    intro f
    have hs : ∀ c, s.callee? = some c → table'.get? c = table.get? c := fun c hc =>
      h c (List.mem_filterMap.2 ⟨s, List.mem_cons_self, hc⟩)
    have hrest : ∀ c ∈ rest.filterMap Statement.callee?, table'.get? c = table.get? c := by
      intro c hc
      obtain ⟨s', hs', hc⟩ := List.mem_filterMap.1 hc
      exact h c (List.mem_filterMap.2 ⟨s', List.mem_cons_of_mem _ hs', hc⟩)
    simp only [statements, statement_congr hs, ih hrest]

theorem blocks_congr (bs : List Block)
    (h : ∀ c ∈ bs.flatMap fun b => b.statements.filterMap Statement.callee?,
      table'.get? c = table.get? c) :
    ∀ f, blocks a table' f bs = blocks a table f bs := by
  induction bs with
  | nil => exact fun _ => rfl
  | cons b rest ih =>
    intro f
    rw [List.flatMap_cons] at h
    have hb := statements_congr (a := a) b.statements fun c hc => h c (List.mem_append_left _ hc)
    have hrest := ih fun c hc => h c (List.mem_append_right _ hc)
    simp only [blocks, hb, hrest]

/-- Of the table of signatures a procedure sees the rows of its callees. -/
theorem procedure_congr {q : Procedure}
    (h : ∀ c ∈ q.callees, table'.get? c = table.get? c) :
    procedure a table' q = procedure a table q := by
  unfold procedure calls
  rw [blocks_congr q.graph.blocks h]

end Binding

theorem callee?_of_mem_outArgumentUses {q : Procedure} {s : Statement}
    (hs : s ∈ Synthesis.outArgumentUses q) : s.callee? = none := by
  obtain ⟨x, -, hx⟩ := List.mem_filterMap.1 hs
  simp only [bind, Option.bind_eq_some_iff] at hx
  obtain ⟨referent, -, source, -, out, -, huse⟩ := hx
  rw [← Option.some.inj huse]
  rfl

theorem mem_callees_addOutArgumentUses {q : Procedure} {c : ProcedureId}
    (hc : c ∈ (Synthesis.addOutArgumentUses q).callees) : c ∈ q.callees := by
  obtain ⟨b', hb', hc⟩ := List.mem_flatMap.1 hc
  obtain ⟨b, hb, rfl⟩ := List.mem_map.1 hb'
  refine List.mem_flatMap.2 ⟨b, hb, ?_⟩
  split at hc
  · obtain ⟨s, hs, hcallee⟩ := List.mem_filterMap.1 hc
    rcases List.mem_append.1 hs with hs | hs
    · rw [callee?_of_mem_outArgumentUses hs] at hcallee
      cases hcallee
    · exact List.mem_filterMap.2 ⟨s, hs, hcallee⟩
  · exact hc

theorem mem_callees_of_treat {settings : Settings} {a : Architecture} {platform : Platform}
    {q : Procedure} {s : Summary} {t : Procedure × Summary} {c : ProcedureId}
    (ht : Synthesis.treat settings a platform q s = .ok t) (hc : c ∈ t.1.callees) :
    c ∈ q.callees := by
  cases hq : q.signature.valid with
  | true =>
    rw [Synthesis.treat_of_valid settings hq] at ht
    cases ht
    exact hc
  | false =>
    obtain ⟨b, signature, q', s', rfl, rfl, -, -, -, htreat, -⟩ :=
      Synthesis.exists_treat_of_invalid (a := a) (p := platform) (s := s) settings hq
    rw [htreat] at ht
    cases ht
    cases huses : settings.outArgumentUses with
    | true =>
      rw [huses] at hc
      exact mem_callees_addOutArgumentUses (q := { q with frame := b.frame, signature }) hc
    | false =>
      rw [huses] at hc
      exact hc

namespace Program
variable {p : Program}

theorem getElem?_bindCalls_run {ts : List (Procedure × Summary)} {table : SignatureTable} {i : Nat}
    {t : Procedure × Summary} (ht : ts[i]? = some t) :
    ({ p with procedures := ts.map Prod.fst }.bindCalls table).1.procedures[i]? =
      some (Binding.procedure p.architecture table t.1).1 := by
  rw [procedures_bindCalls, List.getElem?_map, List.getElem?_map, ht]
  rfl

/-- Both passes may treat the procedures of a program in any order, each in its own:
procedures, summaries, signatures and counts are those of program order. And a
procedure comes out the same, with its summary, in every program of the same
architecture and platform in which it has the same summary and its callees come to
the same signatures. -/
theorem recoverCalls_in_any_order (settings : Settings) (hp : p.Numbered)
    (summaries : Summaries) :
    ∃ p₁ summaries₁ table p₂ counts,
      p.synthesize settings summaries = .ok (p₁, summaries₁, table) ∧
      p₁.bindCalls table = (p₂, counts) ∧
      (∀ order, p.Schedule order →
        p.synthesizeIn settings order summaries = .ok (p₁, summaries₁, table)) ∧
      (∀ order, p.Schedule order → p₁.bindCallsIn order table = (p₂, counts)) ∧
      ∀ (p' : Program) summaries' p₁' summaries₁' table', p'.Numbered →
        p'.architecture = p.architecture → p'.platform = p.platform →
        p'.synthesize settings summaries' = .ok (p₁', summaries₁', table') →
        ∀ i q, p.procedures[i]? = some q → p'.procedures[i]? = some q →
          summaries'.of i = summaries.of i →
          (∀ c ∈ q.callees, table'.get? c = table.get? c) →
          summaries₁'.get? i = summaries₁.get? i ∧
            (p₁'.bindCalls table').1.procedures[i]? = p₂.procedures[i]? := by
  obtain ⟨ts, hrun, hsynthesize⟩ := exists_synthesize_run settings p summaries
  let p₁ : Program := { p with procedures := ts.map Prod.fst }
  have hp₁ : p₁.Numbered := hp.of_run hrun
  refine ⟨p₁, _, _, _, _, hsynthesize, rfl, fun order horder => ?_, fun order horder => ?_, ?_⟩
  · exact synthesizeIn_eq_ok hp hrun horder
  · apply bindCallsIn_eq hp₁
    show order.Perm (p₁.procedures.map Procedure.id)
    rw [hp₁.ids_eq_range, List.length_map, ← hrun.length_eq]
    exact horder.perm_range hp
  · intro p' summaries' p₁' summaries₁' table' hp' ha hplatform hsynthesize' i q hq hq' hsummary
      htable
    obtain ⟨ts', hrun', hok⟩ := exists_synthesize_run settings p' summaries'
    rw [hok] at hsynthesize'
    cases hsynthesize'
    obtain ⟨t, ht, htreat⟩ := exists_right_of_getElem? hrun hq
    obtain ⟨t', ht', htreat'⟩ := exists_right_of_getElem? hrun' hq'
    -- the treatment of the procedure reads what both programs have in common
    rw [ha, hplatform, hp i q hq, hsummary, ← hp i q hq] at htreat'
    obtain rfl : t = t' := Except.ok.inj (htreat.symm.trans htreat')
    refine ⟨?_, ?_⟩
    · rw [hp.get?_run hrun ht, hp'.get?_run hrun' ht']
    · have hbound := Binding.procedure_congr (a := p'.architecture) fun c hc =>
        htable c (mem_callees_of_treat htreat hc)
      refine (getElem?_bindCalls_run ht').trans (Eq.trans ?_ (getElem?_bindCalls_run ht).symm)
      rw [hbound, ha]

/-- The program with one more procedure, which nothing calls. -/
def callingBeside : Program := calling.push (.ofGraph 0 "beside" (.empty 4) (.empty 0 1))

/-- The caller may be treated before its callee in either pass, and the procedure
added does not change what becomes of it. -/
theorem recoverCalls_in_any_order_calling :
    calling.Numbered ∧ calling.Schedule [1, 0] ∧
      ∃ p₁ summaries₁ table p₂ counts p₁' summaries₁' table',
        calling.synthesize .standard .empty = .ok (p₁, summaries₁, table) ∧
        calling.synthesizeIn .standard [1, 0] .empty = .ok (p₁, summaries₁, table) ∧
        p₁.bindCalls table = (p₂, counts) ∧ p₁.bindCallsIn [1, 0] table = (p₂, counts) ∧
        counts = ⟨2, 0, 0⟩ ∧
        callingBeside.synthesize .standard .empty = .ok (p₁', summaries₁', table') ∧
        summaries₁'.get? 1 = summaries₁.get? 1 ∧
        (p₁'.bindCalls table').1.procedures[1]? = p₂.procedures[1]? := by
  have hschedule : calling.Schedule [1, 0] := List.Perm.swap 0 1 []
  have hbeside : callingBeside.Numbered := built_calling.numbered.push _
  obtain ⟨p₁, summaries₁, table, p₂, counts, hrun, hbind, horder, horder', hlocal⟩ :=
    recoverCalls_in_any_order .standard built_calling.numbered .empty
  obtain ⟨ts, -, hrun'⟩ := exists_synthesize_run .standard callingBeside .empty
  have hcounts : (calling.synthesize .standard .empty).toOption.map
      (fun t => (t.1.bindCalls t.2.2).2) = some ⟨2, 0, 0⟩ := by
    decide +kernel
  have hrows : (callingBeside.synthesize .standard .empty).toOption.map
        (fun t => [0, 1].map t.2.2.get?) =
      (calling.synthesize .standard .empty).toOption.map fun t => [0, 1].map t.2.2.get? := by
    decide +kernel
  rw [hrun] at hcounts hrows
  rw [hrun'] at hrows
  have hcounts := Option.some.inj hcounts
  have hrows := Option.some.inj hrows
  dsimp only at hcounts
  rw [hbind] at hcounts
  have hcallees := List.map_inj_left.1 hrows
  obtain ⟨hsummary, hprocedure⟩ :=
    hlocal callingBeside .empty _ _ _ hbeside rfl rfl hrun' 1 _ rfl rfl rfl hcallees
  exact ⟨built_calling.numbered, hschedule, p₁, summaries₁, table, p₂, counts, _, _, _, hrun,
    horder _ hschedule, hbind, horder' _ hschedule, hcounts, hrun', hsummary, hprocedure⟩

end Program
end Recovery
