import Recovery.Proofs.Program
/-
  Recovering the calls of a program twice.

  Binding is done once for all: after it every statement is `Settled`, no call
  being left whose target has a signature, and a settled statement is bound to
  itself without touching the frame (`statement_of_settled`). Returns carry the
  same identifier the second time, because a frame answers the same number when
  it is asked again (`Frame.ensure_ensure`). So a procedure that was bound stays
  as it is (`exists_procedure_procedure`).

  Making signatures is done once for all as well: every procedure has a valid
  one then, its summary is narrowed, and writing that summary back changes
  nothing (`synthesize_of_settled`). Both together give `recoverCalls_again`:
  a second run, under any settings, answers what it was given.
-/

namespace Recovery

namespace Binding

/-! ## Statements, blocks and procedures bound before -/

section
variable {a : Architecture} {table : SignatureTable} {f : Frame} {s : Statement}

/-- Whether a statement has no call left that can be bound. -/
def Settled (table : SignatureTable) (s : Statement) : Prop :=
  ∀ callee site, s.instruction = .call callee site → signatureOf? table callee = none

theorem call_ne_call (a : Architecture) (f : Frame) (callee : Callee) (site : CallSite)
    (signature : Signature) (callee' : Callee) (site' : CallSite) :
    (call a f callee site signature).1 ≠ .call callee' site' := by
  unfold call
  cases signature.returnValue with
  | none => exact Instruction.noConfusion
  | some x => exact Instruction.noConfusion

theorem settled_statement (a : Architecture) (table : SignatureTable) (f : Frame)
    (s : Statement) : Settled table (statement a table f s).1 := by
  obtain ⟨address, instruction⟩ := s
  intro callee site h
  cases instruction with
  | call callee' site' =>
    unfold statement at h
    cases hsig : signatureOf? table callee' with
    | none =>
      simp only [hsig] at h
      cases h
      exact hsig
    | some signature =>
      simp only [hsig] at h
      exact absurd h (call_ne_call a f callee' site' signature callee site)
  | assignment | sideEffect | branch | leave | use => cases h

theorem statement_of_settled (hs : Settled table s) :
    ∃ c, statement a table f s = (s, f, c) ∧ c.bound = 0 := by
  obtain ⟨address, instruction⟩ := s
  cases instruction with
  | call callee site =>
    refine ⟨.oneUnresolved, ?_, rfl⟩
    unfold statement
    simp only [hs callee site rfl]
  | assignment | sideEffect | branch | leave | use => exact ⟨.zero, rfl, rfl⟩

theorem Settled.carry (hs : Settled table s) (id : IdentifierId) :
    Settled table (carry id s) := by
  intro callee site h
  obtain ⟨address, instruction⟩ := s
  cases instruction with
  | leave => cases h
  | call => exact hs callee site h
  | assignment | sideEffect | branch | use => cases h

theorem carry_carry (id : IdentifierId) (s : Statement) : carry id (carry id s) = carry id s := by
  obtain ⟨address, instruction⟩ := s
  cases instruction with
  | assignment | sideEffect | branch | call | leave | use => rfl

end

section
variable {a : Architecture} {table : SignatureTable}

theorem settled_statements (body : List Statement) :
    ∀ f, ∀ s ∈ (statements a table f body).1, Settled table s := by
  induction body with
  | nil =>
    intro f s hs
    cases hs
  | cons s rest ih =>
    intro f s' hs'
    rcases List.mem_cons.1 hs' with rfl | hs'
    · exact settled_statement a table f s
    · exact ih _ s' hs'

theorem settled_blocks (bs : List Block) :
    ∀ f, ∀ b ∈ (blocks a table f bs).1, ∀ s ∈ b.statements, Settled table s := by
  induction bs with
  | nil =>
    intro f b hb
    cases hb
  | cons b rest ih =>
    intro f b' hb'
    rcases List.mem_cons.1 hb' with rfl | hb'
    · exact settled_statements b.statements f
    · exact ih _ b' hb'

theorem statements_of_settled (body : List Statement) (h : ∀ s ∈ body, Settled table s)
    (f : Frame) : ∃ c, statements a table f body = (body, f, c) ∧ c.bound = 0 := by
  induction body with
  | nil => exact ⟨.zero, rfl, rfl⟩
  | cons s rest ih =>
    obtain ⟨c, hs, hc⟩ := statement_of_settled (a := a) (f := f) (h s List.mem_cons_self)
    obtain ⟨d, hrest, hd⟩ := ih fun s' hs' => h s' (List.mem_cons_of_mem _ hs')
    refine ⟨c + d, ?_, ?_⟩
    · simp only [statements, hs, hrest]
    · show c.bound + d.bound = 0
      omega

theorem blocks_of_settled (bs : List Block) (h : ∀ b ∈ bs, ∀ s ∈ b.statements, Settled table s)
    (f : Frame) : ∃ c, blocks a table f bs = (bs, f, c) ∧ c.bound = 0 := by
  induction bs with
  | nil => exact ⟨.zero, rfl, rfl⟩
  | cons b rest ih =>
    obtain ⟨c, hb, hc⟩ :=
      statements_of_settled (a := a) b.statements (h b List.mem_cons_self) f
    obtain ⟨d, hrest, hd⟩ := ih fun b' hb' => h b' (List.mem_cons_of_mem _ hb')
    refine ⟨c + d, ?_, ?_⟩
    · simp only [blocks, hb, hrest]
    · show c.bound + d.bound = 0
      omega

end

theorem mapStatements_mapStatements (q : Procedure) (change change' : Statement → Statement) :
    (q.mapStatements change).mapStatements change' = q.mapStatements (change' ∘ change) := by
  simp [Procedure.mapStatements, Graph.mapBlocks]

theorem returns_of_some {q : Procedure} {r : Identifier} (hr : q.signature.returnValue = some r) :
    (returns q).1 = { q with frame := (q.frame.ensure r).2 }.mapStatements
      (carry (q.frame.ensure r).1) := by
  simp only [returns, hr]

theorem returns_returns (q : Procedure) : (returns (returns q).1).1 = (returns q).1 := by
  cases hr : q.signature.returnValue with
  | none => simp only [returns, hr]
  | some r =>
    let q' : Procedure := { q with frame := (q.frame.ensure r).2 }
    let change := carry (q.frame.ensure r).1
    have hvalue : (q'.mapStatements change).signature.returnValue = some r := hr
    have hframe : (q'.mapStatements change).frame.ensure r = q.frame.ensure r :=
      q.frame.ensure_ensure r
    calc (returns (returns q).1).1
        = (returns (q'.mapStatements change)).1 := by rw [returns_of_some hr]
      _ = (q'.mapStatements change).mapStatements change := by
          rw [returns_of_some hvalue, hframe]
          rfl
      _ = q'.mapStatements change := by
          rw [mapStatements_mapStatements]
          congr 1
          funext s
          exact carry_carry _ s
      _ = (returns q).1 := (returns_of_some hr).symm

theorem settled_returns {table : SignatureTable} {q : Procedure}
    (h : ∀ b ∈ q.graph.blocks, ∀ s ∈ b.statements, Settled table s) :
    ∀ b ∈ (returns q).1.graph.blocks, ∀ s ∈ b.statements, Settled table s := by
  cases hr : q.signature.returnValue with
  | none =>
    simp only [returns, hr]
    exact h
  | some r =>
    rw [returns_of_some hr]
    intro b' hb' s' hs'
    obtain ⟨b, hb, rfl⟩ := List.mem_map.1 hb'
    obtain ⟨s, hs, rfl⟩ := List.mem_map.1 hs'
    exact (h b hb s hs).carry _

/-- A procedure that was bound to a table is bound to itself. -/
theorem exists_procedure_procedure (a : Architecture) (table : SignatureTable) (q : Procedure) :
    ∃ c, procedure a table (procedure a table q).1 = ((procedure a table q).1, c) ∧
      c.bound = 0 := by
  let q₁ := (calls a table q).1
  have hsettled : ∀ b ∈ (returns q₁).1.graph.blocks, ∀ s ∈ b.statements, Settled table s :=
    settled_returns (settled_blocks q.graph.blocks q.frame)
  obtain ⟨c, hblocks, hc⟩ := blocks_of_settled (a := a) _ hsettled (returns q₁).1.frame
  have hcalls : calls a table (returns q₁).1 = ((returns q₁).1, c) := by
    simp only [calls, hblocks]
  refine ⟨{ c with returns := (returns (returns q₁).1).2 }, ?_, hc⟩
  show procedure a table (returns q₁).1 = ((returns q₁).1, _)
  simp only [procedure, hcalls, returns_returns]

end Binding

namespace Program
variable {p : Program}

/-! ## Programs recovered before -/

theorem signatures_bindCalls (p : Program) (table : SignatureTable) :
    (p.bindCalls table).1.signatures = p.signatures := by
  have hnamed : Binding.TableNamedBy p.architecture table fun _ => False :=
    fun _ _ _ hknown => hknown.elim
  have hsame : ∀ q : Procedure, (Binding.procedure p.architecture table q).1.id = q.id ∧
      (Binding.procedure p.architecture table q).1.signature = q.signature :=
    fun q => ⟨(Binding.rewritten_procedure hnamed q).id,
      (Binding.rewritten_procedure hnamed q).signature⟩
  rw [signatures, signatures, procedures_bindCalls, List.filter_map, List.map_map]
  congr 1
  simp only [Function.comp_def, hsame]

theorem bound_foldl_add (cs : List Binding.Counts) (h : ∀ c ∈ cs, c.bound = 0) :
    (cs.foldl (· + ·) Binding.Counts.zero).bound = 0 := by
  refine List.foldlRecOn (motive := fun c : Binding.Counts => c.bound = 0) cs _ rfl ?_
  intro c hc d hd
  have hd := h d hd
  show c.bound + d.bound = 0
  omega

theorem bindCalls_of_settled {table : SignatureTable}
    (h : ∀ q ∈ p.procedures, ∃ c,
      Binding.procedure p.architecture table q = (q, c) ∧ c.bound = 0) :
    ∃ c, p.bindCalls table = (p, c) ∧ c.bound = 0 := by
  have hprocedures :
      (p.procedures.map (Binding.procedure p.architecture table)).map Prod.fst = p.procedures := by
    rw [List.map_map]
    refine (List.map_congr_left fun q hq => ?_).trans (List.map_id _)
    obtain ⟨c, hc, -⟩ := h q hq
    rw [Function.comp_apply, hc, id]
  refine ⟨(p.bindCalls table).2, ?_, bound_foldl_add _ fun c hc => ?_⟩
  · rw [bindCalls, hprocedures]
  · obtain ⟨t, ht, rfl⟩ := List.mem_map.1 hc
    obtain ⟨q, hq, rfl⟩ := List.mem_map.1 ht
    obtain ⟨c, hc, hbound⟩ := h q hq
    rw [hc]
    exact hbound

/-- When every procedure has a valid signature, and writing back its narrowed
summary changes nothing, then the first pass changes nothing. -/
theorem synthesize_of_settled (settings : Settings) {summaries : Summaries}
    (hvalid : ∀ q ∈ p.procedures, q.signature.valid = true)
    (hput : ∀ q ∈ p.procedures,
      summaries.put q.id (summaries.of q.id).narrowLiveOut = summaries) :
    p.synthesize settings summaries = .ok (p, summaries, p.signatures) := by
  obtain ⟨ts, hrun, hsynthesize⟩ := exists_synthesize_run settings p summaries
  have hts : p.procedures.map (fun q => (q, (summaries.of q.id).narrowLiveOut)) = ts := by
    rw [← List.forall₂_eq_eq_eq, List.forall₂_map_left_iff]
    refine ((List.forall₂_and_left _ _).2 ⟨hvalid, hrun⟩).imp ?_
    rintro q t ⟨hq, ht⟩
    rw [Synthesis.treat_of_valid settings hq] at ht
    exact Except.ok.inj ht
  have hprocedures : ts.map Prod.fst = p.procedures := by
    rw [← hts, List.map_map]
    exact List.map_id _
  have hsummaries : ts.foldl (fun t u => t.put u.1.id u.2) summaries = summaries := by
    refine List.foldlRecOn (motive := fun t => t = summaries) ts _ rfl ?_
    rintro t rfl u hu
    rw [← hts] at hu
    obtain ⟨q, hq, rfl⟩ := List.mem_map.1 hu
    exact hput q hq
  rw [hsynthesize, hprocedures, hsummaries]

/-- Recovering the calls of a program a second time, under any settings, changes
nothing: both passes answer what they were given, and no call is bound again. -/
theorem recoverCalls_again (settings settings' : Settings) (hp : p.Numbered)
    (summaries : Summaries) :
    ∃ p' summaries' table, p.recoverCalls settings summaries = .ok (p', summaries', table) ∧
      p'.recoverCalls settings' summaries' = .ok (p', summaries', table) ∧
      p'.synthesize settings' summaries' = .ok (p', summaries', table) ∧
      ∃ counts, p'.bindCalls table = (p', counts) ∧ counts.bound = 0 := by
  obtain ⟨ts, hrun, hsynthesize⟩ := exists_synthesize_run settings p summaries
  let p₁ : Program := { p with procedures := ts.map Prod.fst }
  let written : List (ProcedureId × Summary) := ts.map fun t => (t.1.id, t.2)
  let summaries' : Summaries := written.foldl (fun t e => t.put e.1 e.2) summaries
  let table := p₁.signatures
  let p' := (p₁.bindCalls table).1
  have hfirst : p.synthesize settings summaries = .ok (p₁, summaries', table) := by
    rw [hsynthesize]
    show _ = Except.ok (p₁, written.foldl _ _, table)
    rw [List.foldl_map]
  -- a procedure of the second run is one that the first pass made, with its calls bound
  have hmade : ∀ q' ∈ p'.procedures, ∃ t ∈ ts, q'.id = t.1.id ∧
      q'.signature.valid = true ∧ t.2.narrowLiveOut = t.2 := by
    intro q' hq'
    rw [procedures_bindCalls] at hq'
    obtain ⟨q₁, hq₁, rfl⟩ := List.mem_map.1 hq'
    obtain ⟨t, ht, rfl⟩ := List.mem_map.1 hq₁
    obtain ⟨q, -, htreat⟩ := exists_left_of_mem hrun ht
    obtain ⟨-, hvalid, hnarrow⟩ := Synthesis.of_treat htreat
    have hnamed : Binding.TableNamedBy p₁.architecture table fun _ => False :=
      fun _ _ _ hknown => hknown.elim
    have hrewritten := Binding.rewritten_procedure hnamed t.1
    refine ⟨t, ht, hrewritten.id, ?_, hnarrow⟩
    rw [hrewritten.signature]
    exact hvalid
  have hsecond : p'.synthesize settings' summaries' = .ok (p', summaries', table) := by
    have hsettled : p'.synthesize settings' summaries' = .ok (p', summaries', p'.signatures) := by
      refine synthesize_of_settled settings' (fun q' hq' => ?_) fun q' hq' => ?_
      · obtain ⟨t, -, -, hvalid, -⟩ := hmade q' hq'
        exact hvalid
      · obtain ⟨t, ht, hid, -, hnarrow⟩ := hmade q' hq'
        have hwritten : (t.1.id, t.2) ∈ written := List.mem_map_of_mem ht
        have hread : summaries'.of t.1.id = t.2 := by
          rw [Summaries.of, Table.get?_foldl_put written (hp.nodup_run hrun) hwritten, Option.getD]
        rw [hid, hread, hnarrow]
        exact Table.put_foldl_put_of_mem written (hp.nodup_run hrun) hwritten summaries
    rw [hsettled, signatures_bindCalls]
  obtain ⟨counts, hagain, hbound⟩ : ∃ c, p'.bindCalls table = (p', c) ∧ c.bound = 0 := by
    refine bindCalls_of_settled fun q' hq' => ?_
    rw [procedures_bindCalls] at hq'
    obtain ⟨q₁, -, rfl⟩ := List.mem_map.1 hq'
    exact Binding.exists_procedure_procedure p₁.architecture table q₁
  refine ⟨p', summaries', table, ?_, ?_, hsecond, counts, hagain, hbound⟩
  · rw [recoverCalls, hfirst]
    rfl
  · rw [recoverCalls, hsecond]
    show Except.ok ((p'.bindCalls table).1, summaries', table) = _
    rw [hagain]

/-- A procedure that hands back two registers and returns, and one that calls it, a
routine outside and itself. -/
def dividing : Program :=
  ((Program.empty X86.architecture X86.windows).push
    (.ofGraph 0 "divide" (.empty 4)
      ((Graph.empty 0 1).addBlock ⟨0, "entry", []⟩ |>.addBlock
        ⟨1, "exit", [⟨32, .leave none⟩]⟩))).push
    (.ofGraph 1 "main" (.empty 4)
      ((Graph.empty 0 1).addBlock
        ⟨0, "entry", [⟨16, .call (.procedure 0) ⟨0, 0⟩⟩, ⟨21, .call (.external "abort") ⟨0, 0⟩⟩,
          ⟨26, .call (.procedure 1) ⟨0, 0⟩⟩]⟩))

/-- The first procedure reads and writes `eax` and writes `edx`. -/
def dividingSummaries : Summaries :=
  Table.empty.put 0
    { Summary.empty with
      mayUse := .ofList [0], liveOut := .ofList [0, 2], trashed := .ofList [0, 1, 2] }

/-- The first run puts one use before the return and binds two calls; a second one
without uses leaves all of it. -/
theorem recoverCalls_again_dividing :
    dividing.Numbered ∧ ∃ p' summaries' table,
      dividing.recoverCalls .standard dividingSummaries = .ok (p', summaries', table) ∧
      p'.procedures.map (fun q => (q.frame.size, q.graph.blocks.map fun b => b.statements.length))
        = [(3, [0, 2]), (2, [3])] ∧
      p'.recoverCalls { Settings.standard with outArgumentUses := false } summaries' =
        .ok (p', summaries', table) ∧
      ∃ counts, p'.bindCalls table = (p', counts) ∧ counts.bound = 0 := by
  have hnumbered : dividing.Numbered := by
    apply Numbered.push
    apply Numbered.push
    intro i q hq
    cases hq
  obtain ⟨p', summaries', table, hrun, hagain, -, hcounts⟩ :=
    recoverCalls_again .standard { Settings.standard with outArgumentUses := false }
      hnumbered dividingSummaries
  have hsizes : (dividing.recoverCalls .standard dividingSummaries).toOption.map
      (fun t => t.1.procedures.map fun q =>
        (q.frame.size, q.graph.blocks.map fun b => b.statements.length)) =
        some [(3, [0, 2]), (2, [3])] := by
    decide +kernel
  rw [hrun] at hsizes
  exact ⟨hnumbered, p', summaries', table, hrun, Option.some.inj hsizes, hagain, hcounts⟩

end Program
end Recovery
