import Recovery.Proofs.Idempotence
import Recovery.Proofs.Signature.Referents
/-
  Uses of what is handed back in registers.

  Where uses are asked for, a procedure that is given a signature has one `use` for each
  register out-argument at the head of its exit block (`Procedure.openExit`). Nothing else
  depends on the switch:

    1. the parameters and their referents are found in the frame again, so there is one
       use for each of them, in their order (`isUse_outArgumentUses`);
    2. binding goes past a use without looking at it, so opening the exit block and
       binding the procedure commute (`procedure_openExit`);
    3. opening the exit block changes neither a procedure's number nor its signature, so
       both programs have the same table and write the same summaries.

  `recoverCalls_outArgumentUses` compares a run of both passes with the switch on and one
  with it off.
-/

namespace Recovery

/-- Whether a statement does nothing but keep something live. -/
def Statement.IsUse (s : Statement) : Prop :=
  ∃ e out, s.instruction = .use e out

/-- Whether a statement is the use for a parameter of a frame: it reads the identifier whose
value the parameter hands back and names the parameter, both by their numbers. -/
def Frame.IsUseOf (f : Frame) (x : Identifier) (s : Statement) : Prop :=
  ∃ referent source out, x.storage.referent? = some referent ∧
    f.find? referent.storage = some source ∧ f.identifier? source = some referent ∧
    f.find? x.storage = some out ∧ f.identifier? out = some x ∧
    s = ⟨0, .use (.identifier source) (some out)⟩

theorem Frame.IsUseOf.isUse {f : Frame} {x : Identifier} {s : Statement} (h : f.IsUseOf x s) :
    s.IsUse := by
  obtain ⟨referent, source, out, -, -, -, -, -, rfl⟩ := h
  exact ⟨_, _, rfl⟩

namespace Procedure
variable {uses : List Statement}

def openBlock (exit : BlockId) (uses : List Statement) (b : Block) : Block :=
  { b with statements := (if b.id = exit then uses else []) ++ b.statements }

/-- A procedure with statements put at the head of its exit block. -/
def openExit (q : Procedure) (uses : List Statement) : Procedure :=
  { q with graph := q.graph.mapBlocks (openBlock q.graph.exit uses) }

/-- `q.Opens uses q'`: the procedure `q'` has the statements at the head of its exit block,
and is otherwise `q`. -/
structure Opens (q : Procedure) (uses : List Statement) (q' : Procedure) : Prop where
  id : q'.id = q.id
  name : q'.name = q.name
  frame : q'.frame = q.frame
  signature : q'.signature = q.signature
  entry : q'.graph.entry = q.graph.entry
  exit : q'.graph.exit = q.graph.exit
  nextId : q'.graph.nextId = q.graph.nextId
  edges : q'.graph.edges = q.graph.edges
  blocks : List.Forall₂ (fun b b' => b'.id = b.id ∧ b'.name = b.name ∧
    b'.statements = if b.id = q.graph.exit then uses ++ b.statements else b.statements)
    q.graph.blocks q'.graph.blocks

theorem opens_openExit (q : Procedure) (uses : List Statement) :
    q.Opens uses (q.openExit uses) := by
  refine ⟨rfl, rfl, rfl, rfl, rfl, rfl, rfl, rfl, ?_⟩
  show List.Forall₂ _ _ (q.graph.blocks.map (openBlock q.graph.exit uses))
  rw [List.forall₂_map_right_iff, List.forall₂_same]
  intro b _
  refine ⟨rfl, rfl, ?_⟩
  show (if b.id = q.graph.exit then uses else []) ++ b.statements = _
  split
  · rfl
  · rfl

theorem openExit_nil (q : Procedure) : q.openExit [] = q := by
  have hsame : openBlock q.graph.exit [] = fun b => b := by
    funext b
    simp [openBlock]
  rw [openExit, hsame, Graph.mapBlocks, List.map_id']

end Procedure

/-! ## Uses for parameters -/

namespace Synthesis
variable {a : Architecture} {p : Platform} {s : Summary} {q : Procedure}

theorem exists_referent {t : Storage} (h : t.isRegisterOutArgument = true) :
    ∃ i, t.referent? = some i ∧ i.storage.kind = .register := by
  unfold Storage.isRegisterOutArgument at h
  split at h
  · exact ⟨_, rfl, rfl⟩
  · cases h

/-- When the frame has the parameters and what they stand for, each register out-argument
has its use. -/
theorem isUse_outArgumentUses (hd : q.frame.Distinct)
    (hlisted : ∀ x ∈ q.signature.parameters, ∃ id, q.frame.identifier? id = some x)
    (hbacks : ∀ x ∈ q.signature.parameters, q.frame.Backs x.storage) :
    List.Forall₂ q.frame.IsUseOf
      (q.signature.parameters.filter fun x => x.storage.isRegisterOutArgument)
      (outArgumentUses q) := by
  have hfound {id : IdentifierId} {i : Identifier} (hi : q.frame.identifier? id = some i) :
      q.frame.find? i.storage = some id :=
    (Frame.find?_eq_some_iff hd).2 (Frame.holds_of_identifier? hi)
  apply forall₂_filterMap
  intro x hx
  obtain ⟨hx, hregister⟩ := List.mem_filter.1 hx
  obtain ⟨referent, hreferent, hkind⟩ := exists_referent hregister
  obtain ⟨out, hout⟩ := hlisted x hx
  obtain ⟨source, hsource⟩ := hbacks x hx referent hreferent (by simp [hkind])
  refine ⟨_, ?_, referent, source, out, hreferent, hfound hsource, hsource, hfound hout, hout, rfl⟩
  simp [hreferent, hfound hsource, hfound hout]

theorem addOutArgumentUses_eq (q : Procedure) :
    addOutArgumentUses q = q.openExit (outArgumentUses q) := by
  rw [addOutArgumentUses, Procedure.openExit, Graph.modifyBlock]
  congr 2
  funext b
  by_cases hb : b.id = q.graph.exit
  · simp [Procedure.openBlock, hb]
  · simp [Procedure.openBlock, hb]

/-- How a procedure that is treated with the switch on differs from the one with it off. -/
structure Recorded (q q₂ q₁ : Procedure) (uses : List Statement) : Prop where
  graph : q₂.graph = q.graph
  opened : q₁ = q₂.openExit uses
  kept : q.signature.valid = true → uses = []
  made : q.signature.valid = false → List.Forall₂ q₂.frame.IsUseOf
    (q₂.signature.parameters.filter fun x => x.storage.isRegisterOutArgument) uses

theorem Recorded.isUse {q₂ q₁ : Procedure} {uses : List Statement} (h : Recorded q q₂ q₁ uses) :
    ∀ u ∈ uses, u.IsUse := by
  intro u hu
  cases hq : q.signature.valid with
  | true =>
    rw [h.kept hq] at hu
    cases hu
  | false =>
    obtain ⟨x, -, hx⟩ := exists_left_of_mem (h.made hq) hu
    exact hx.isUse

theorem exists_recorded {on off : Settings} (hon : on.outArgumentUses = true)
    (hoff : off.outArgumentUses = false) (hd : q.frame.Distinct) :
    ∃ q₂ q₁ s' uses, treat off a p q s = .ok (q₂, s') ∧ treat on a p q s = .ok (q₁, s') ∧
      Recorded q q₂ q₁ uses := by
  cases hq : q.signature.valid with
  | true =>
    refine ⟨q, q, s.narrowLiveOut, [], treat_of_valid off hq, treat_of_valid on hq, rfl,
      q.openExit_nil.symm, fun _ => rfl, fun h => ?_⟩
    rw [hq] at h
    cases h
  | false =>
    obtain ⟨b, signature, hb, hbuild, -, hmake, hmade⟩ :=
      exists_ensureSignature (a := a) (p := p) (s := s.narrowLiveOut) hq
    have hmade := hmade hd
    let q₂ : Procedure := { q with frame := b.frame, signature }
    have hlisted : ∀ x ∈ q₂.signature.parameters, ∃ id, q₂.frame.identifier? id = some x :=
      fun x hx => (hmade.values x (List.mem_append_right _ hx)).1
    have huses := isUse_outArgumentUses (q := q₂) hmade.distinct hlisted
      ((backed_of_assemble hb).of_build hbuild)
    refine ⟨q₂, addOutArgumentUses q₂, { s.narrowLiveOut with signature := some signature },
      outArgumentUses q₂, ?_, ?_, rfl, addOutArgumentUses_eq q₂, fun h => ?_, fun _ => huses⟩
    · unfold treat
      rw [hmake, hoff]
      rfl
    · unfold treat
      rw [hmake, hon]
      rfl
    · rw [hq] at h
      cases h

/-- What a procedure is treated to under either setting: one summary, and the same procedure
but for the uses. -/
theorem recorded_of_treat {on off : Settings} (hon : on.outArgumentUses = true)
    (hoff : off.outArgumentUses = false) (hd : q.frame.Distinct) {t₁ t₂ : Procedure × Summary}
    (h₁ : treat on a p q s = .ok t₁) (h₂ : treat off a p q s = .ok t₂) :
    t₁.2 = t₂.2 ∧ ∃ uses, Recorded q t₂.1 t₁.1 uses := by
  obtain ⟨q₂, q₁, s', uses, htreat₂, htreat₁, hrec⟩ :=
    exists_recorded (a := a) (p := p) (s := s) hon hoff hd
  obtain rfl := Except.ok.inj (htreat₁.symm.trans h₁)
  obtain rfl := Except.ok.inj (htreat₂.symm.trans h₂)
  exact ⟨rfl, uses, hrec⟩

end Synthesis

/-! ## Binding past uses -/

namespace Binding
variable {a : Architecture} {table : SignatureTable} {uses : List Statement}

theorem statement_of_isUse {s : Statement} (hs : s.IsUse) (f : Frame) :
    statement a table f s = (s, f, .zero) := by
  obtain ⟨e, out, h⟩ := hs
  simp only [statement, h]

theorem carry_of_isUse {s : Statement} (hs : s.IsUse) (id : IdentifierId) : carry id s = s := by
  obtain ⟨e, out, h⟩ := hs
  apply carry_eq_self
  rw [h]
  exact fun _ => Instruction.noConfusion

theorem statements_append_uses (a : Architecture) (table : SignatureTable)
    (h : ∀ s ∈ uses, s.IsUse) (f : Frame) (body : List Statement) :
    ∃ c, statements a table f (uses ++ body) =
      (uses ++ (statements a table f body).1, (statements a table f body).2.1, c) := by
  induction uses with
  | nil => exact ⟨_, rfl⟩
  | cons s uses ih =>
    obtain ⟨c, hc⟩ := ih fun s' hs' => h s' (List.mem_cons_of_mem _ hs')
    refine ⟨.zero + c, ?_⟩
    rw [List.cons_append, statements, statement_of_isUse (h s List.mem_cons_self) f]
    simp only [hc]
    rfl

theorem blocks_openBlock (a : Architecture) (table : SignatureTable) (h : ∀ s ∈ uses, s.IsUse)
    (exit : BlockId) (bs : List Block) :
    ∀ f, ∃ c, blocks a table f (bs.map (Procedure.openBlock exit uses)) =
      ((blocks a table f bs).1.map (Procedure.openBlock exit uses),
        (blocks a table f bs).2.1, c) := by
  induction bs with
  | nil => exact fun f => ⟨.zero, rfl⟩
  | cons b bs ih =>
    intro f
    have hhead : ∀ s ∈ (if b.id = exit then uses else []), s.IsUse := by
      split
      · exact h
      · exact List.forall_mem_nil _
    obtain ⟨c, hc⟩ := statements_append_uses a table hhead f b.statements
    obtain ⟨d, hd⟩ := ih (statements a table f b.statements).2.1
    refine ⟨c + d, ?_⟩
    have hbody : statements a table f (Procedure.openBlock exit uses b).statements = _ := hc
    simp only [List.map_cons, blocks, hbody, hd]
    rfl

theorem calls_openExit (h : ∀ s ∈ uses, s.IsUse) (q : Procedure) :
    (calls a table (q.openExit uses)).1 = (calls a table q).1.openExit uses := by
  obtain ⟨c, hc⟩ := blocks_openBlock a table h q.graph.exit q.graph.blocks q.frame
  simp only [calls, Procedure.openExit, Graph.mapBlocks, hc]

theorem mapStatements_openExit {change : Statement → Statement} (h : ∀ s ∈ uses, change s = s)
    (q : Procedure) :
    (q.openExit uses).mapStatements change = (q.mapStatements change).openExit uses := by
  have huses : uses.map change = uses := (List.map_congr_left h).trans (List.map_id _)
  simp only [Procedure.mapStatements, Procedure.openExit, Graph.mapBlocks, List.map_map]
  congr 2
  apply List.map_congr_left
  intro b _
  by_cases hb : b.id = q.graph.exit
  · simp [Procedure.openBlock, hb, huses]
  · simp [Procedure.openBlock, hb]

theorem returns_openExit (h : ∀ s ∈ uses, s.IsUse) (q : Procedure) :
    (returns (q.openExit uses)).1 = (returns q).1.openExit uses := by
  cases hr : q.signature.returnValue with
  | none =>
    have hr' : (q.openExit uses).signature.returnValue = none := hr
    simp only [returns, hr, hr']
  | some r =>
    have hr' : (q.openExit uses).signature.returnValue = some r := hr
    rw [returns_of_some hr, returns_of_some hr']
    exact mapStatements_openExit (fun s hs => carry_of_isUse (h s hs) _)
      { q with frame := (q.frame.ensure r).2 }

/-- Binding a procedure goes past the uses at the head of its exit block. -/
theorem procedure_openExit (h : ∀ s ∈ uses, s.IsUse) (q : Procedure) :
    (procedure a table (q.openExit uses)).1 = (procedure a table q).1.openExit uses := by
  calc (procedure a table (q.openExit uses)).1
      = (returns (calls a table (q.openExit uses)).1).1 := rfl
    _ = (returns ((calls a table q).1.openExit uses)).1 := by rw [calls_openExit h]
    _ = (procedure a table q).1.openExit uses := returns_openExit h _

end Binding

/-! ## Programs -/

namespace Program
variable {p p₁ p₂ : Program}

theorem signatures_congr (h : p₁.procedures.map (fun q => (q.id, q.signature)) =
    p₂.procedures.map fun q => (q.id, q.signature)) : p₁.signatures = p₂.signatures := by
  have hvalid (p : Program) : p.signatures = Table.ofList
      ((p.procedures.map fun q => (q.id, q.signature)).filter fun e => e.2.valid) := by
    rw [List.filter_map]
    rfl
  rw [hvalid, hvalid, h]

theorem foldl_put_congr {ts₁ ts₂ : List (Procedure × Summary)}
    (h : List.Forall₂ (fun t₁ t₂ => t₁.1.id = t₂.1.id ∧ t₁.2 = t₂.2) ts₁ ts₂)
    (summaries : Summaries) :
    ts₁.foldl (fun t u => t.put u.1.id u.2) summaries =
      ts₂.foldl (fun t u => t.put u.1.id u.2) summaries := by
  induction h generalizing summaries with
  | nil => rfl
  | cons hfirst _ ih =>
    rw [List.foldl_cons, List.foldl_cons, hfirst.1, hfirst.2]
    exact ih _

theorem exists_synthesize_recorded {on off : Settings} (hon : on.outArgumentUses = true)
    (hoff : off.outArgumentUses = false) (hp : p.Built) (summaries : Summaries) :
    ∃ p₁ p₂ summaries' table, p.synthesize on summaries = .ok (p₁, summaries', table) ∧
      p.synthesize off summaries = .ok (p₂, summaries', table) ∧
      p₁.architecture = p₂.architecture ∧ p₁.size = p.size ∧ p₂.size = p.size ∧
      ∀ (i : Nat) (q : Procedure), p.procedures[i]? = some q → ∃ q₁ q₂ uses,
        p₁.procedures[i]? = some q₁ ∧ p₂.procedures[i]? = some q₂ ∧
        Synthesis.Recorded q q₂ q₁ uses := by
  obtain ⟨ts₁, hrun₁, hsynthesize₁⟩ := exists_synthesize_run on p summaries
  obtain ⟨ts₂, hrun₂, hsynthesize₂⟩ := exists_synthesize_run off p summaries
  let p₁ : Program := { p with procedures := ts₁.map Prod.fst }
  let p₂ : Program := { p with procedures := ts₂.map Prod.fst }
  have hpairs : List.Forall₂ (fun t₁ t₂ : Procedure × Summary =>
      (t₁.1.id = t₂.1.id ∧ t₁.2 = t₂.2) ∧ t₁.1.signature = t₂.1.signature) ts₁ ts₂ := by
    refine forall₂_of_common ((List.forall₂_and_left _ _).2 ⟨fun q hq => hq, hrun₁⟩) hrun₂ ?_
    rintro q t₁ t₂ ⟨hq, h₁⟩ h₂
    obtain ⟨hsummary, uses, hrec⟩ :=
      Synthesis.recorded_of_treat hon hoff (hp.distinct q hq) h₁ h₂
    rw [hrec.opened]
    exact ⟨⟨rfl, hsummary⟩, rfl⟩
  have hsummaries := foldl_put_congr (hpairs.imp fun _ _ h => h.1) summaries
  have htable : p₁.signatures = p₂.signatures := by
    apply signatures_congr
    show (ts₁.map Prod.fst).map _ = (ts₂.map Prod.fst).map _
    rw [List.map_map, List.map_map, ← List.forall₂_eq_eq_eq, List.forall₂_map_left_iff,
      List.forall₂_map_right_iff]
    exact hpairs.imp fun t₁ t₂ h => Prod.ext h.1.1 h.2
  rw [← hsummaries, ← htable] at hsynthesize₂
  refine ⟨p₁, p₂, _, p₁.signatures, hsynthesize₁, hsynthesize₂, rfl,
    (List.length_map _).trans hrun₁.length_eq.symm, (List.length_map _).trans hrun₂.length_eq.symm,
    fun i q hq => ?_⟩
  obtain ⟨t₁, ht₁, h₁⟩ := exists_right_of_getElem? hrun₁ hq
  obtain ⟨t₂, ht₂, h₂⟩ := exists_right_of_getElem? hrun₂ hq
  obtain ⟨-, uses, hrec⟩ :=
    Synthesis.recorded_of_treat hon hoff (hp.distinct q (List.mem_of_getElem? hq)) h₁ h₂
  have hread (ts : List (Procedure × Summary)) {t : Procedure × Summary} (ht : ts[i]? = some t) :
      (ts.map Prod.fst)[i]? = some t.1 := by
    rw [List.getElem?_map, ht]
    rfl
  exact ⟨t₁.1, t₂.1, uses, hread ts₁ ht₁, hread ts₂ ht₂, hrec⟩

theorem size_bindCalls (p : Program) (table : SignatureTable) :
    (p.bindCalls table).1.size = p.size := by
  rw [size, procedures_bindCalls, List.length_map, size]

theorem getElem?_bindCalls {i : Nat} {q : Procedure} (hq : p.procedures[i]? = some q)
    (table : SignatureTable) : (p.bindCalls table).1.procedures[i]? =
      some (Binding.procedure p.architecture table q).1 := by
  rw [procedures_bindCalls, List.getElem?_map, hq]
  rfl

/-- **The switch for uses.** Recovering the calls of a program with the uses of out-arguments
asked for and without them answers the same summaries and the same table, and procedures that
differ in their exit blocks alone. There, when the first pass made the signature, stands a use
for each parameter that hands a register back, in the order of the parameters, and then what
stands there without. -/
theorem recoverCalls_outArgumentUses (settings : Settings) (hp : p.Built)
    (summaries : Summaries) :
    let on : Settings := { settings with outArgumentUses := true }
    let off : Settings := { settings with outArgumentUses := false }
    ∃ p₁ p₂ p' p'' summaries' table,
      p.synthesize on summaries = .ok (p₁, summaries', table) ∧
      p.synthesize off summaries = .ok (p₂, summaries', table) ∧
      p.recoverCalls on summaries = .ok (p', summaries', table) ∧
      p.recoverCalls off summaries = .ok (p'', summaries', table) ∧
      p₁.size = p.size ∧ p₂.size = p.size ∧ p'.size = p.size ∧ p''.size = p.size ∧
      ∀ (i : Nat) (q : Procedure), p.procedures[i]? = some q →
        ∃ (uses : List Statement) (q₁ q₂ q' q'' : Procedure),
        p₁.procedures[i]? = some q₁ ∧ p₂.procedures[i]? = some q₂ ∧
        p'.procedures[i]? = some q' ∧ p''.procedures[i]? = some q'' ∧
        (q.signature.valid = true → uses = []) ∧
        (q.signature.valid = false → List.Forall₂ q₁.frame.IsUseOf
          (q₁.signature.parameters.filter fun x => x.storage.isRegisterOutArgument) uses) ∧
        q₂.graph = q.graph ∧ q₂.Opens uses q₁ ∧ q''.Opens uses q' := by
  intro on off
  have hswitch : on.outArgumentUses = true ∧ off.outArgumentUses = false := ⟨rfl, rfl⟩
  obtain ⟨p₁, p₂, summaries', table, hon, hoff, harchitecture, hsize₁, hsize₂, hall⟩ :=
    exists_synthesize_recorded hswitch.1 hswitch.2 hp summaries
  refine ⟨p₁, p₂, (p₁.bindCalls table).1, (p₂.bindCalls table).1, summaries', table, hon, hoff,
    ?_, ?_, hsize₁, hsize₂, (size_bindCalls p₁ table).trans hsize₁,
    (size_bindCalls p₂ table).trans hsize₂, fun i q hq => ?_⟩
  · rw [recoverCalls, hon]
    rfl
  · rw [recoverCalls, hoff]
    rfl
  · obtain ⟨q₁, q₂, uses, hq₁, hq₂, hrec⟩ := hall i q hq
    have hopened := q₂.opens_openExit uses
    rw [← hrec.opened] at hopened
    have hq' := getElem?_bindCalls hq₁ table
    rw [hrec.opened, Binding.procedure_openExit hrec.isUse, harchitecture] at hq'
    refine ⟨uses, q₁, q₂, _, _, hq₁, hq₂, hq', getElem?_bindCalls hq₂ table, hrec.kept,
      fun h => ?_, hrec.graph, hopened, Procedure.opens_openExit _ uses⟩
    rw [hopened.frame, hopened.signature]
    exact hrec.made h

/-- The use is in front of the return that carries the other register. -/
theorem recoverCalls_outArgumentUses_dividing :
    dividing.Built ∧ ∃ p' p'' summaries' table uses q' q'',
      dividing.recoverCalls { Settings.standard with outArgumentUses := true }
        dividingSummaries = .ok (p', summaries', table) ∧
      dividing.recoverCalls { Settings.standard with outArgumentUses := false }
        dividingSummaries = .ok (p'', summaries', table) ∧
      p'.procedures[0]? = some q' ∧ p''.procedures[0]? = some q'' ∧ q''.Opens uses q' ∧
      q'.listing = ["exit@0: use edx (edxOut)", "exit@20: return eax"] ∧
      q''.listing = ["exit@20: return eax"] := by
  have hbuilt : dividing.Built := .push (.empty 4) (.push (.empty 4) (.empty _ _))
  obtain ⟨p₁, p₂, p', p'', summaries', table, -, -, hon, hoff, -, -, -, -, hall⟩ :=
    recoverCalls_outArgumentUses .standard hbuilt dividingSummaries
  obtain ⟨uses, q₁, q₂, q', q'', -, -, hq', hq'', -, -, -, -, hopened⟩ := hall 0 _ rfl
  have hlisted : (dividing.recoverCalls { Settings.standard with outArgumentUses := true }
      dividingSummaries).toOption.map (fun t => t.1.procedures[0]?.map Procedure.listing) =
        some (some ["exit@0: use edx (edxOut)", "exit@20: return eax"]) := by
    decide +kernel
  have hlisted' : (dividing.recoverCalls { Settings.standard with outArgumentUses := false }
      dividingSummaries).toOption.map (fun t => t.1.procedures[0]?.map Procedure.listing) =
        some (some ["exit@20: return eax"]) := by
    decide +kernel
  rw [hon] at hlisted
  rw [hoff] at hlisted'
  have htext : p'.procedures[0]?.map Procedure.listing = _ := Option.some.inj hlisted
  have htext' : p''.procedures[0]?.map Procedure.listing = _ := Option.some.inj hlisted'
  rw [hq'] at htext
  rw [hq''] at htext'
  exact ⟨hbuilt, p', p'', summaries', table, uses, q', q'', hon, hoff, hq', hq'', hopened,
    Option.some.inj htext, Option.some.inj htext'⟩

end Program
end Recovery
