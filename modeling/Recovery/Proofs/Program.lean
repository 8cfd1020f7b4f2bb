import Recovery.Proofs.Binding
import Recovery.Proofs.Signature.Synthesis
import Recovery.Proofs.Table
/-
  Recovering the calls of a program.

  `Built` programs are those made by adding procedures and editing them in
  place, with frames made by frame operations; their procedures are numbered by
  place and their frames repeat no storage. That is all the two passes need.

    1. the first pass answers, and treats each procedure with its own summary
       (`exists_synthesize`);
    2. both passes answer: every procedure ends up with a valid signature that
       agrees with its summary, with the table and, if it was made on the way,
       with its final frame (`recoverCalls_complete`);
    3. the second pass rewrites each procedure to the signatures the first pass
       made, statement by statement (`bindCalls_exact`).
-/

namespace Recovery.Program
variable {p : Program}

/-- The programs made by adding procedures and editing them in place. -/
inductive Built : Program → Prop
  | empty (a : Architecture) (platform : Platform) : Built (.empty a platform)
  | addProcedure {p : Program} (name : String) : Built p → Built (p.addProcedure name)
  | push {p : Program} {q : Procedure} : q.frame.Built → Built p → Built (p.push q)
  | set {p : Program} {q : Procedure} : q.frame.Built → Built p → Built (p.set q.id q)

theorem Built.numbered (hp : p.Built) : p.Numbered := by
  induction hp with
  | empty => exact fun i q hq => nomatch hq
  | addProcedure name _ ih => exact ih.push _
  | push _ _ ih => exact ih.push _
  | @set p q _ _ ih =>
    intro i r hr
    change (p.procedures.set q.id q)[i]? = some r at hr
    rw [List.getElem?_set] at hr
    split at hr
    · next hi =>
      split at hr
      · rw [← Option.some.inj hr]
        exact hi
      · cases hr
    · exact ih i r hr

theorem Built.distinct (hp : p.Built) : ∀ q ∈ p.procedures, q.frame.Distinct := by
  have hbuilt : ∀ q ∈ p.procedures, q.frame.Built := by
    induction hp with
    | empty =>
      intro q hq
      cases hq
    | addProcedure name _ ih =>
      intro q hq
      rcases List.mem_append.1 hq with hq | hq
      · exact ih q hq
      · rw [List.mem_singleton.1 hq]
        exact .empty _
    | push hframe _ ih =>
      intro q hq
      rcases List.mem_append.1 hq with hq | hq
      · exact ih q hq
      · rw [List.mem_singleton.1 hq]
        exact hframe
    | set hframe _ ih =>
      intro q hq
      rcases List.mem_or_eq_of_mem_set hq with hq | rfl
      · exact ih q hq
      · exact hframe
  exact fun q hq => (hbuilt q hq).distinct

theorem Numbered.nodup_ids (hp : p.Numbered) : (p.procedures.map Procedure.id).Nodup := by
  rw [List.Nodup, List.pairwise_map, List.pairwise_iff_getElem]
  intro i j hi hj hij hid
  have hi' := hp i _ (List.getElem?_eq_getElem hi)
  have hj' := hp j _ (List.getElem?_eq_getElem hj)
  rw [hi', hj'] at hid
  exact Nat.ne_of_lt hij hid

/-- Whether a call's target is a procedure whose signature is still to be made. -/
def Synthesizes (p : Program) : Callee → Prop
  | .procedure c => ∃ q, p.procedures[c]? = some q ∧ q.signature.valid = false
  | .external _ | .indirect _ => False

/-! ## The first pass -/

/-- What the first pass answers. -/
structure Synthesized (p : Program) (summaries : Summaries) (p₁ : Program)
    (summaries₁ : Summaries) (table : SignatureTable) : Prop where
  architecture : p₁.architecture = p.architecture
  numbered : p₁.Numbered
  size : p₁.size = p.size
  entries : table.entries = p₁.procedures.map fun q => (q.id, q.signature)
  treated : ∀ i q, p.procedures[i]? = some q → ∃ q₁ s₁, p₁.procedures[i]? = some q₁ ∧
    summaries₁.get? i = some s₁ ∧
      Synthesis.Treated p.architecture q (summaries.of i) q₁ s₁

/-- The first pass treats each procedure with its own summary, and puts what they
become in their places. -/
theorem exists_synthesize_run (settings : Settings) (p : Program) (summaries : Summaries) :
    ∃ ts : List (Procedure × Summary),
      List.Forall₂ (fun q t => Synthesis.treat settings p.architecture p.platform q
        (summaries.of q.id) = .ok t) p.procedures ts ∧
      p.synthesize settings summaries =
        .ok ({ p with procedures := ts.map Prod.fst },
          ts.foldl (fun t u => t.put u.1.id u.2) summaries,
          { p with procedures := ts.map Prod.fst }.signatures) := by
  obtain ⟨ts, hts, hall⟩ := exists_mapM_ok
    (f := fun q => Synthesis.treat settings p.architecture p.platform q (summaries.of q.id))
    (R := fun q t => Synthesis.treat settings p.architecture p.platform q
      (summaries.of q.id) = .ok t) p.procedures fun q _ => by
    obtain ⟨t, ht, -⟩ := Synthesis.exists_treat (a := p.architecture) (p := p.platform)
      (s := summaries.of q.id) settings q
    exact ⟨t, ht, ht⟩
  refine ⟨ts, hall, ?_⟩
  rw [synthesize, hts]
  rfl

section
variable {settings : Settings} {summaries : Summaries} {ts : List (Procedure × Summary)}

theorem Numbered.of_run (hp : p.Numbered)
    (hall : List.Forall₂ (fun q t => Synthesis.treat settings p.architecture p.platform q
      (summaries.of q.id) = .ok t) p.procedures ts) :
    { p with procedures := ts.map Prod.fst }.Numbered := by
  intro i q₁ hq₁
  obtain ⟨t, ht, rfl⟩ := Option.map_eq_some_iff.1 (List.getElem?_map.symm.trans hq₁)
  obtain ⟨q, hq, htreat⟩ := exists_left_of_getElem? hall ht
  exact (Synthesis.of_treat htreat).1.trans (hp i q hq)

theorem Numbered.nodup_run (hp : p.Numbered)
    (hall : List.Forall₂ (fun q t => Synthesis.treat settings p.architecture p.platform q
      (summaries.of q.id) = .ok t) p.procedures ts) :
    ((ts.map fun t => (t.1.id, t.2)).map Prod.fst).Nodup := by
  have hsame : (ts.map fun t => (t.1.id, t.2)).map Prod.fst =
      (ts.map Prod.fst).map Procedure.id := by
    rw [List.map_map, List.map_map]
    rfl
  rw [hsame]
  exact (hp.of_run hall).nodup_ids

theorem Numbered.get?_run (hp : p.Numbered)
    (hall : List.Forall₂ (fun q t => Synthesis.treat settings p.architecture p.platform q
      (summaries.of q.id) = .ok t) p.procedures ts) {i : ProcedureId} {t : Procedure × Summary}
    (ht : ts[i]? = some t) :
    (ts.foldl (fun t u => t.put u.1.id u.2) summaries).get? i = some t.2 := by
  have hid : t.1.id = i := by
    apply hp.of_run hall
    show (ts.map Prod.fst)[i]? = some t.1
    rw [List.getElem?_map, ht]
    rfl
  have hwritten : (i, t.2) ∈ ts.map fun t => (t.1.id, t.2) := by
    rw [← hid]
    exact List.mem_map_of_mem (List.mem_of_getElem? ht)
  have hread := Table.get?_foldl_put _ (hp.nodup_run hall) hwritten summaries
  rw [List.foldl_map] at hread
  exact hread

end

theorem exists_synthesize (settings : Settings) (hp : p.Built) (summaries : Summaries) :
    ∃ p₁ summaries₁ table, p.synthesize settings summaries = .ok (p₁, summaries₁, table) ∧
      Synthesized p summaries p₁ summaries₁ table := by
  obtain ⟨ts, hrun, hsynthesize⟩ := exists_synthesize_run settings p summaries
  let p₁ : Program := { p with procedures := ts.map Prod.fst }
  have hnumbered : p₁.Numbered := hp.numbered.of_run hrun
  have hall : List.Forall₂ (fun q t =>
      Synthesis.Treated p.architecture q (summaries.of q.id) t.1 t.2) p.procedures ts := by
    refine ((List.forall₂_and_left _ _).2 ⟨hp.distinct, hrun⟩).imp ?_
    rintro q t ⟨hd, ht⟩
    exact .of_treat hd ht
  have hvalid : ∀ q₁ ∈ p₁.procedures, q₁.signature.valid = true := by
    intro q₁ hq₁
    obtain ⟨t, ht, rfl⟩ := List.mem_map.1 hq₁
    obtain ⟨q, -, htreated⟩ := exists_left_of_mem hall ht
    exact htreated.valid
  refine ⟨p₁, ts.foldl (fun t u => t.put u.1.id u.2) summaries, p₁.signatures, hsynthesize, rfl,
    hnumbered, ?_, ?_, ?_⟩
  · exact (List.length_map _).trans hall.length_eq.symm
  · rw [signatures, List.filter_eq_self.2 hvalid]
    apply Table.entries_ofList
    rw [List.map_map]
    exact hnumbered.nodup_ids
  · intro i q hq
    obtain ⟨t, ht, htreated⟩ := exists_right_of_getElem? hall hq
    have hq₁ : p₁.procedures[i]? = some t.1 := by
      show (ts.map Prod.fst)[i]? = some t.1
      rw [List.getElem?_map, ht]
      rfl
    rw [hp.numbered i q hq] at htreated
    exact ⟨t.1, t.2, hq₁, hp.numbered.get?_run hrun ht, htreated⟩

section
variable {p₁ : Program} {summaries summaries₁ : Summaries} {table : SignatureTable}

theorem Synthesized.get? (hs : Synthesized p summaries p₁ summaries₁ table) (c : ProcedureId) :
    table.get? c = (p₁.procedures[c]?).map Procedure.signature := by
  have hkeys : table.keys = p₁.procedures.map Procedure.id := by
    rw [Table.keys, hs.entries, List.map_map]
    rfl
  cases hc : p₁.procedures[c]? with
  | none =>
    rw [Option.map_none, Table.get?_eq_none_iff, hkeys]
    intro hmem
    obtain ⟨q, hq, hid⟩ := List.mem_map.1 hmem
    obtain ⟨i, hi⟩ := List.mem_iff_getElem?.1 hq
    rw [← hid, hs.numbered i q hi, hi] at hc
    cases hc
  | some q =>
    refine Table.get?_eq_some_of_mem ?_ ?_
    · rw [hkeys]
      exact hs.numbered.nodup_ids
    · rw [hs.entries]
      have hmem := List.mem_map_of_mem (f := fun q => (q.id, q.signature)) (List.mem_of_getElem? hc)
      rw [hs.numbered c q hc] at hmem
      exact hmem

/-- The signatures that the first pass makes name registers as the architecture
does. -/
theorem Synthesized.tableNamedBy (hs : Synthesized p summaries p₁ summaries₁ table)
    (ha : p.architecture.Indexed) :
    Binding.TableNamedBy p.architecture table p.Synthesizes := by
  intro callee s hsig hcallee x hx
  cases callee with
  | procedure c =>
    obtain ⟨q, hq, hvalid⟩ := hcallee
    obtain ⟨q₁, s₁, hq₁, -, htreated⟩ := hs.treated c q hq
    change table.get? c = some s at hsig
    rw [hs.get? c, hq₁] at hsig
    rw [← Option.some.inj hsig] at hx
    exact Storage.namedBy_of_definedBy ha ((htreated.made hvalid).values x hx).2
  | external => cases hcallee
  | indirect => cases hcallee

end

/-! ## Both passes -/

theorem procedures_bindCalls (p : Program) (table : SignatureTable) :
    (p.bindCalls table).1.procedures =
      p.procedures.map fun q => (Binding.procedure p.architecture table q).1 := by
  rw [bindCalls]
  exact List.map_map

/-- What becomes of a procedure and its summary. A valid signature stays; a made
one is the summary's too, keeps what was known of the floating point stack, and
each of its values is the identifier that the final frame has for its storage. -/
structure Recovered (q : Procedure) (s : Summary) (q' : Procedure) (s' : Summary) : Prop where
  valid : q'.signature.valid = true
  kept : q.signature.valid = true →
    q'.signature = q.signature ∧ s'.signature = s.signature
  agrees : q.signature.valid = false → s'.signature = some q'.signature
  fpuStackDelta : q.signature.valid = false →
    q'.signature.fpuStackDelta = q.signature.fpuStackDelta
  fpuOutMax : q.signature.valid = false → q'.signature.fpuOutMax = q.signature.fpuOutMax
  values : q.signature.valid = false → ∀ x ∈ q'.signature.values,
    ∃ id, q'.frame.find? x.storage = some id ∧ q'.frame.identifier? id = some x

/-- The second pass appends to frames, so what the first one listed stays there. -/
theorem Recovered.of_treated {a : Architecture} {r : Int32} {table : SignatureTable}
    {known : Callee → Prop} {q q₁ q' : Procedure} {s s' : Summary}
    (ht : Synthesis.Treated a q s q₁ s')
    (hr : Binding.ProcedureRewritten r table known q₁ q') : Recovered q s q' s' where
  valid := by
    rw [hr.signature]
    exact ht.valid
  kept hq := by
    rw [hr.signature]
    exact ⟨(ht.kept hq).1, (ht.kept hq).2.2⟩
  agrees hq := by
    rw [hr.signature]
    exact (ht.made hq).signature
  fpuStackDelta hq := by
    rw [hr.signature]
    exact (ht.made hq).fpuStackDelta
  fpuOutMax hq := by
    rw [hr.signature]
    exact (ht.made hq).fpuOutMax
  values hq x hx := by
    rw [hr.signature] at hx
    obtain ⟨⟨id, hid⟩, -⟩ := (ht.made hq).values x hx
    have hfound : q₁.frame.find? x.storage = some id :=
      (Frame.find?_eq_some_iff (ht.made hq).distinct).2 (Frame.holds_of_identifier? hid)
    exact ⟨id, hr.frame.find? hfound, hr.frame.identifier? hid⟩

/-- Recovering the calls of a program answers, whatever the summaries say. It
leaves every procedure with a valid signature and a summary, and answers a table
with one row for each procedure in order, its signature. No offset, depth or delta
is excluded, since words wrap. -/
theorem recoverCalls_complete (settings : Settings) (hp : p.Built) (summaries : Summaries) :
    ∃ p' summaries' table, p.recoverCalls settings summaries = .ok (p', summaries', table) ∧
      p'.size = p.size ∧
      p'.Numbered ∧
      table.entries = p'.procedures.map (fun q => (q.id, q.signature)) ∧
      ∀ i q, p.procedures[i]? = some q → ∃ q' s', p'.procedures[i]? = some q' ∧
        summaries'.get? i = some s' ∧ Recovered q (summaries.of i) q' s' := by
  obtain ⟨p₁, summaries₁, table, hrun, hs⟩ := exists_synthesize settings hp summaries
  -- the first pass fixed all signatures, so nothing is asked of the registers here
  have hnamed : Binding.TableNamedBy p₁.architecture table fun _ => False :=
    fun _ _ _ hknown => hknown.elim
  have hrewritten := Binding.rewritten_procedure hnamed
  have hprocedures := procedures_bindCalls p₁ table
  refine ⟨(p₁.bindCalls table).1, summaries₁, table, ?_, ?_, ?_, ?_, ?_⟩
  · rw [recoverCalls, hrun]
    rfl
  · rw [size, hprocedures, List.length_map]
    exact hs.size
  · intro i q' hq'
    rw [hprocedures, List.getElem?_map, Option.map_eq_some_iff] at hq'
    obtain ⟨q₁, hq₁, rfl⟩ := hq'
    exact (hrewritten q₁).id.trans (hs.numbered i q₁ hq₁)
  · rw [hs.entries, hprocedures, List.map_map]
    apply List.map_congr_left
    intro q₁ _
    show (q₁.id, q₁.signature) = (_, _)
    rw [(hrewritten q₁).id, (hrewritten q₁).signature]
  · intro i q hq
    obtain ⟨q₁, s₁, hq₁, hs₁, htreated⟩ := hs.treated i q hq
    refine ⟨_, s₁, ?_, hs₁, .of_treated htreated (hrewritten q₁)⟩
    rw [hprocedures, List.getElem?_map, hq₁]
    rfl

/-- A procedure with a stack argument, and one that pushes four bytes and calls
it and then itself. -/
def calling : Program :=
  ((Program.empty X86.architecture X86.windows).push
    (.ofGraph 0 "callee"
      ((Frame.empty 4).ensure ⟨"dwArg04", .word 32, .stackArgument 4 32⟩).2 (.empty 0 1))).push
    (.ofGraph 1 "caller" (.empty 4)
      ((Graph.empty 0 1).addBlock
        ⟨0, "entry", [⟨16, .call (.procedure 0) ⟨4, 0⟩⟩, ⟨21, .call (.procedure 1) ⟨4, 0⟩⟩]⟩))

theorem built_calling : calling.Built :=
  .push (.empty 4) (.push (.ensure _ (.empty 4)) (.empty _ _))

/-- The callee takes its stack argument, which the summaries say nothing of. -/
theorem recoverCalls_complete_calling :
    calling.Built ∧ ∃ p' summaries' table,
      calling.recoverCalls .standard .empty = .ok (p', summaries', table) ∧
      table.entries.map (fun e => e.2.parameters.map Identifier.storage) =
        [[.stackArgument 4 32], []] ∧
      ∀ i q, calling.procedures[i]? = some q → ∃ q' s', p'.procedures[i]? = some q' ∧
        summaries'.get? i = some s' ∧ Recovered q (Summaries.of .empty i) q' s' := by
  obtain ⟨p', summaries', table, hrun, -, -, -, hall⟩ :=
    recoverCalls_complete .standard built_calling .empty
  have hparameters : (calling.recoverCalls .standard .empty).toOption.map
      (fun t => t.2.2.entries.map fun e => e.2.parameters.map Identifier.storage) =
        some [[.stackArgument 4 32], []] := by
    decide +kernel
  rw [hrun] at hparameters
  exact ⟨built_calling, p', summaries', table, hrun, Option.some.inj hparameters, hall⟩

/-! ## The second pass -/

/-- Binding to the signatures of the first pass rewrites every procedure to them.
Arguments, results and returns are identifiers of the procedure's final frame,
and at a call of a procedure that the first pass made the signature of, they live
where the caller finds the callee's values. -/
theorem bindCalls_exact (settings : Settings) (hp : p.Built) (ha : p.architecture.Indexed)
    (summaries : Summaries) :
    ∃ p₁ summaries₁ table, p.synthesize settings summaries = .ok (p₁, summaries₁, table) ∧
      (∀ c, table.get? c = (p₁.procedures[c]?).map Procedure.signature) ∧
      List.Forall₂
        (Binding.ProcedureRewritten p.architecture.returnAddressSize table p.Synthesizes)
        p₁.procedures (p₁.bindCalls table).1.procedures := by
  obtain ⟨p₁, summaries₁, table, hrun, hs⟩ := exists_synthesize settings hp summaries
  refine ⟨p₁, summaries₁, table, hrun, hs.get?, ?_⟩
  rw [procedures_bindCalls, List.forall₂_map_right_iff, List.forall₂_same, hs.architecture]
  intro q _
  exact Binding.rewritten_procedure (hs.tableNamedBy ha) q

/-- What the caller pushes is the callee's argument. -/
theorem bindCalls_exact_calling :
    calling.Built ∧ calling.architecture.Indexed ∧
      ∃ p₁ summaries₁ table, calling.synthesize .standard .empty = .ok (p₁, summaries₁, table) ∧
        (p₁.bindCalls table).1.procedures.map (fun q => q.frame.storages) =
          [[.stackArgument 4 32], [.stackLocal (-4) 32]] ∧
        List.Forall₂ (Binding.ProcedureRewritten 4 table calling.Synthesizes)
          p₁.procedures (p₁.bindCalls table).1.procedures := by
  obtain ⟨p₁, summaries₁, table, hrun, -, hrewritten⟩ :=
    bindCalls_exact .standard built_calling X86.indexed_architecture .empty
  have hstorages : (calling.synthesize .standard .empty).toOption.map
      (fun t => (t.1.bindCalls t.2.2).1.procedures.map fun q => q.frame.storages) =
        some [[.stackArgument 4 32], [.stackLocal (-4) 32]] := by
    decide +kernel
  rw [hrun] at hstorages
  exact ⟨built_calling, X86.indexed_architecture, p₁, summaries₁, table, hrun,
    Option.some.inj hstorages, hrewritten⟩

end Recovery.Program
