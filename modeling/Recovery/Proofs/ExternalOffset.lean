import Recovery.Proofs.Program
/-
  External offsets, as the callee counts them and as the caller does.

  A stack argument is known outside a procedure by its external offset, which the
  procedure's own frame tells from the size of its return address. The first pass
  takes and sorts the parameters of a signature by it. The second pass
  does not ask the callee's frame: it subtracts the return address of the
  architecture, and adds that of the caller where the slot lies above its own.

    1. A call bound to a signature reads each stack parameter from the caller's slot
       for the external offset, moved by the depth at the call and by as much as the
       return addresses of the callee and of the architecture differ
       (`bindCalls_external_offset`). Registers and other values play no part, so
       nothing is asked of how the architecture numbers them.
    2. So caller and callee agree on external offsets exactly when the callee's frame
       has the return address of the architecture, as all procedures have that the
       program made itself; one brought in with a larger one reads other slots than
       it was given (`not_external_offset_farCalling`).
-/

namespace Recovery

/-- The slot in which a frame has what lies so far from its stack pointer at entry, the
return address left out: a local of its own below, and above a stack argument. -/
def Frame.slotAt (f : Frame) (offset : Int32) (bitSize : Nat) : Storage :=
  if offset < 0 then .stackLocal offset bitSize
  else .stackArgument (offset + f.returnAddressSize) bitSize

theorem Frame.slotAt_inj {f : Frame} {o o' : Int32} {n : Nat} (h : f.slotAt o n = f.slotAt o' n) :
    o = o' := by
  unfold slotAt at h
  split at h <;> split at h
  · exact (Storage.stackLocal.inj h).1
  · cases h
  · cases h
  · exact (Int32.add_left_inj _).1 (Storage.stackArgument.inj h).1

def Instruction.arguments (i : Instruction) : List Expression :=
  (i.application?.map Application.arguments).getD []

namespace Binding
variable {a : Architecture} {table : SignatureTable} {g h : Frame}

/-- Whether a call whose target has a signature is bound to the parameters in order, each
living where the caller finds it unless it names a register that the architecture has not. -/
def TakesParameters (a : Architecture) (table : SignatureTable) (g : Frame) (s s' : Statement) :
    Prop :=
  ∀ callee site signature, s.instruction = .call callee site →
    signatureOf? table callee = some signature →
    List.Forall₂ (fun x => IsArgument a.returnAddressSize site (x.storage.NamedBy a) g x)
      signature.parameters s'.instruction.arguments

theorem TakesParameters.extend {s s' : Statement} (hgh : g.Extends h)
    (ht : TakesParameters a table g s s') : TakesParameters a table h s s' :=
  fun callee site signature hcall hsig =>
    (ht callee site signature hcall hsig).imp fun _ _ harg => harg.extend hgh

theorem arguments_carry (id : IdentifierId) (s : Statement) :
    (carry id s).instruction.arguments = s.instruction.arguments := by
  unfold carry
  split
  · next e he =>
    rw [he]
    rfl
  · rfl

theorem arguments_call (f : Frame) (callee : Callee) (site : CallSite) (s : Signature) :
    (call a f callee site s).1.arguments = (arguments a site f s.parameters).1 ∧
      (arguments a site f s.parameters).2.Extends (call a f callee site s).2 := by
  unfold call
  dsimp only
  cases s.returnValue with
  | none => exact ⟨rfl, .refl _⟩
  | some r => exact ⟨rfl, (bound_identifier site _ fun h : False => h.elim).1⟩

theorem takesParameters_statement (f : Frame) (s : Statement) :
    f.Extends (statement a table f s).2.1 ∧
      TakesParameters a table (statement a table f s).2.1 s (statement a table f s).1 := by
  obtain ⟨address, instruction⟩ := s
  cases instruction with
  | call callee site =>
    unfold statement
    dsimp only
    cases hsig : signatureOf? table callee with
    | none =>
      refine ⟨.refl f, fun callee' site' signature hcall hsig' => ?_⟩
      obtain ⟨rfl, -⟩ := Instruction.call.inj hcall
      cases hsig.symm.trans hsig'
    | some signature =>
      obtain ⟨hext, hargs⟩ := isArgument_arguments (a := a) site signature.parameters
        (fun x _ hx => hx) f
      obtain ⟨heq, hrest⟩ := arguments_call (a := a) f callee site signature
      refine ⟨hext.trans hrest, fun callee' site' signature' hcall hsig' => ?_⟩
      obtain ⟨rfl, rfl⟩ := Instruction.call.inj hcall
      cases hsig.symm.trans hsig'
      dsimp only
      rw [heq]
      exact hargs.imp fun _ _ harg => harg.extend hrest
  | assignment | sideEffect | branch | leave | use =>
    exact ⟨.refl f, fun _ _ _ hcall => nomatch hcall⟩

/-- Every call in a procedure takes its parameters in the frame the procedure ends up with. -/
theorem takesParameters_procedure (q : Procedure) :
    List.Forall₂ (fun b b' => List.Forall₂
        (TakesParameters a table (procedure a table q).1.frame) b.statements b'.statements)
      q.graph.blocks (procedure a table q).1.graph.blocks := by
  obtain ⟨-, hblocks⟩ := blocks_induction (@takesParameters_statement a table)
    (fun _ _ _ _ hgh h => h.extend hgh) q.graph.blocks q.frame
  unfold procedure calls returns
  dsimp only
  cases q.signature.returnValue with
  | none => exact hblocks.imp fun _ _ h => h.2.2
  | some x =>
    have hcarried := Frame.Extends.ensure (blocks a table q.frame q.graph.blocks).2.1 x
    show List.Forall₂ _ _ (List.map _ _)
    rw [List.forall₂_map_right_iff]
    refine hblocks.imp fun b b' hb => ?_
    rw [List.forall₂_map_right_iff]
    refine hb.2.2.imp fun s s' hs callee site signature hcall hsig => ?_
    rw [arguments_carry]
    exact hs.extend hcarried callee site signature hcall hsig

/-- Whether the argument for a stack parameter of the callee is read from the caller's slot for
its external offset, moved by the depth at the call and some more bytes. -/
def ReadsExternal (calleeFrame callerFrame : Frame) (site : CallSite) (more : Int32)
    (x : Identifier) (e : Expression) : Prop :=
  ∃ slot offset id y, calleeFrame.find? x.storage = some slot ∧
    calleeFrame.externalOffset? slot = some offset ∧ e = .identifier id ∧
    callerFrame.identifier? id = some y ∧
    y.storage = callerFrame.slotAt (offset + more - site.stackDepth) x.dataType.bitSize ∧
    (y.storage = callerFrame.slotAt (offset - site.stackDepth) x.dataType.bitSize ↔ more = 0)

/-- A stack parameter that its own frame lists is read from the slot for its external offset. -/
theorem IsArgument.readsExternal {f : Frame} {site : CallSite} {x : Identifier} {e : Expression}
    {slot : IdentifierId} (harg : IsArgument a.returnAddressSize site (x.storage.NamedBy a) g x e)
    (hd : f.Distinct) (hslot : f.identifier? slot = some x)
    (hx : x.storage.kind = .stackArgument) :
    ReadsExternal f g site (f.returnAddressSize - a.returnAddressSize) x e := by
  obtain ⟨id, ⟨y, hy, hstorage⟩, rfl⟩ := harg
  obtain ⟨name, t, storage⟩ := x
  cases storage with
  | stackArgument o n =>
    have hread : y.storage = g.slotAt (o - f.returnAddressSize +
        (f.returnAddressSize - a.returnAddressSize) - site.stackDepth) t.bitSize := by
      have hmoved : o - f.returnAddressSize + (f.returnAddressSize - a.returnAddressSize) =
          o - a.returnAddressSize := by grind
      rw [hmoved]
      exact hstorage trivial
    refine ⟨slot, o - f.returnAddressSize, id, y,
      (Frame.find?_eq_some_iff hd).2 (Frame.holds_of_identifier? hslot), ?_, rfl, hy, hread, ?_⟩
    · rw [Frame.externalOffset?, hslot]
    · rw [hread]
      refine ⟨fun h => ?_, fun h => ?_⟩
      · have hoffset := Frame.slotAt_inj h
        grind
      · rw [h, Int32.add_zero]
  | register | stackLocal | fpuStackArgument | flagGroup | outArgument => cases hx

end Binding

namespace Program
variable {p : Program}

/-- **External offsets at a call.** At every call of a procedure whose signature the first
pass made, each stack parameter is read from the caller's slot for the external offset that the
callee's frame gives it, less the depth at the call, and moved by as much as the callee's return
address is larger than the architecture's; so from the slot for the external offset itself exactly
when they are equal. -/
theorem bindCalls_external_offset (settings : Settings) (hp : p.Built) (summaries : Summaries) :
    ∃ p₁ summaries₁ table, p.synthesize settings summaries = .ok (p₁, summaries₁, table) ∧
      List.Forall₂ (fun q₁ q' => List.Forall₂ (fun b b' => List.Forall₂
          (fun s s' => ∀ c site, s.instruction = .call (.procedure c) site →
            p.Synthesizes (.procedure c) → ∃ callee, p₁.procedures[c]? = some callee ∧
              List.Forall₂ (fun x e => x.storage.kind = .stackArgument →
                  Binding.ReadsExternal callee.frame q'.frame site
                    (callee.frame.returnAddressSize - p.architecture.returnAddressSize) x e)
                callee.signature.parameters s'.instruction.arguments)
          b.statements b'.statements) q₁.graph.blocks q'.graph.blocks)
        p₁.procedures (p₁.bindCalls table).1.procedures := by
  obtain ⟨p₁, summaries₁, table, hrun, hs⟩ := exists_synthesize settings hp summaries
  refine ⟨p₁, summaries₁, table, hrun, ?_⟩
  rw [procedures_bindCalls, List.forall₂_map_right_iff, List.forall₂_same, hs.architecture]
  intro q₁ _
  refine (Binding.takesParameters_procedure q₁).imp fun b b' hb => hb.imp fun s s' htakes => ?_
  intro c site hcall ⟨q, hq, hvalid⟩
  obtain ⟨callee, s₁, hcallee, -, htreated⟩ := hs.treated c q hq
  have hmade := htreated.made hvalid
  have hsig : Binding.signatureOf? table (.procedure c) = some callee.signature := by
    show table.get? c = _
    rw [hs.get? c, hcallee]
    rfl
  have hlisted (x : Identifier) (hx : x ∈ callee.signature.parameters) :
      ∃ slot, callee.frame.identifier? slot = some x :=
    (hmade.values x (List.mem_append_right _ hx)).1
  have hboth := (List.forall₂_and_left _ _).2 ⟨hlisted, htakes _ site _ hcall hsig⟩
  refine ⟨callee, hcallee, hboth.imp fun x e ⟨⟨slot, hslot⟩, harg⟩ hx => ?_⟩
  exact harg.readsExternal hmade.distinct hslot hx

/-- A procedure with a return address of eight bytes and a stack argument right above it, and
one that pushes four bytes and calls it. -/
def farCalling : Program :=
  ((Program.empty X86.architecture X86.windows).push
    (.ofGraph 0 "callee"
      ((Frame.empty 8).ensure ⟨"dwArg08", .word 32, .stackArgument 8 32⟩).2 (.empty 0 1))).push
    (.ofGraph 1 "caller" (.empty 4)
      ((Graph.empty 0 1).addBlock ⟨0, "entry", [⟨16, .call (.procedure 0) ⟨4, 0⟩⟩]⟩))

theorem built_farCalling : farCalling.Built :=
  .push (.empty 4) (.push (.ensure _ (.empty 8)) (.empty _ _))

theorem exists_run_farCalling :
    ∃ p₁ summaries₁ table callee caller,
      farCalling.synthesize .standard .empty = .ok (p₁, summaries₁, table) ∧
      p₁.procedures[0]? = some callee ∧ (p₁.bindCalls table).1.procedures[1]? = some caller ∧
      callee.frame = ⟨[⟨"dwArg08", .word 32, .stackArgument 8 32⟩], 8⟩ ∧
      callee.signature.parameters = callee.frame.identifiers ∧
      caller.frame = ⟨[⟨"dwArg04", .word 32, .stackArgument 4 32⟩], 4⟩ ∧
      (caller.graph.blocks.flatMap fun b => b.statements.flatMap fun s =>
        s.instruction.arguments.map Expression.identifier?) = [some 0] := by
  obtain ⟨p₁, summaries₁, table, hrun, -⟩ := exists_synthesize .standard built_farCalling .empty
  have hmade : ((farCalling.synthesize .standard .empty).toOption.bind fun t =>
      t.1.procedures[0]?.bind fun callee => (t.1.bindCalls t.2.2).1.procedures[1]?.map fun caller =>
        (callee.frame, callee.signature.parameters, caller.frame,
          caller.graph.blocks.flatMap fun b => b.statements.flatMap fun s =>
            s.instruction.arguments.map Expression.identifier?)) =
      some (⟨[⟨"dwArg08", .word 32, .stackArgument 8 32⟩], 8⟩,
        [⟨"dwArg08", .word 32, .stackArgument 8 32⟩],
        ⟨[⟨"dwArg04", .word 32, .stackArgument 4 32⟩], 4⟩, [some 0]) := by
    decide +kernel
  rw [hrun] at hmade
  replace hmade : (p₁.procedures[0]?.bind fun callee => _) = some _ := hmade
  obtain ⟨callee, hcallee, hmade⟩ := Option.bind_eq_some_iff.1 hmade
  obtain ⟨caller, hcaller, hmade⟩ := Option.map_eq_some_iff.1 hmade
  simp only [Prod.mk.injEq] at hmade
  obtain ⟨hframe, hparameters, hcallerFrame, harguments⟩ := hmade
  refine ⟨p₁, summaries₁, table, callee, caller, hrun, hcallee, hcaller, hframe, ?_, hcallerFrame,
    harguments⟩
  rw [hparameters, hframe]

/-- The argument is read four bytes higher than the external offset says. -/
theorem bindCalls_external_offset_farCalling :
    farCalling.Built ∧ farCalling.Synthesizes (.procedure 0) ∧
      ∃ p₁ summaries₁ table callee,
        farCalling.synthesize .standard .empty = .ok (p₁, summaries₁, table) ∧
        p₁.procedures[0]? = some callee ∧
        callee.signature.parameters.map (fun x => x.storage.kind) = [.stackArgument] ∧
        List.Forall₂ (fun q₁ q' => List.Forall₂ (fun b b' => List.Forall₂
            (fun s s' => ∀ site, s.instruction = .call (.procedure 0) site →
              List.Forall₂ (fun x e => x.storage.kind = .stackArgument →
                  Binding.ReadsExternal callee.frame q'.frame site 4 x e)
                callee.signature.parameters s'.instruction.arguments)
            b.statements b'.statements) q₁.graph.blocks q'.graph.blocks)
          p₁.procedures (p₁.bindCalls table).1.procedures := by
  have hcalled : farCalling.Synthesizes (.procedure 0) := ⟨_, rfl, rfl⟩
  obtain ⟨p₁, summaries₁, table, callee, -, hrun, hcallee, -, hframe, hparameters, -⟩ :=
    exists_run_farCalling
  obtain ⟨p₁', summaries₁', table', hrun', hall⟩ :=
    bindCalls_external_offset .standard built_farCalling .empty
  cases hrun.symm.trans hrun'
  refine ⟨built_farCalling, hcalled, p₁, summaries₁, table, callee, hrun, hcallee, ?_, ?_⟩
  · rw [hparameters, hframe]
    rfl
  · refine hall.imp fun q₁ q' hq => hq.imp fun b b' hb => hb.imp fun s s' hs site hsite => ?_
    obtain ⟨callee', hcallee', hreads⟩ := hs 0 site hsite hcalled
    cases hcallee.symm.trans hcallee'
    have hmore : callee.frame.returnAddressSize - farCalling.architecture.returnAddressSize = 4 := by
      rw [hframe]
      rfl
    exact hmore ▸ hreads

/-- The argument lies at external offset zero, so the caller has just pushed it; but the call
reads the caller's own first argument. -/
theorem not_external_offset_farCalling :
    farCalling.Built ∧ farCalling.Synthesizes (.procedure 0) ∧
      ∃ p₁ summaries₁ table callee caller x y,
        farCalling.synthesize .standard .empty = .ok (p₁, summaries₁, table) ∧
        p₁.procedures[0]? = some callee ∧ (p₁.bindCalls table).1.procedures[1]? = some caller ∧
        callee.signature.parameters = [x] ∧ callee.frame.find? x.storage = some 0 ∧
        callee.frame.externalOffset? 0 = some 0 ∧
        (caller.graph.blocks.flatMap fun b => b.statements.flatMap fun s =>
          s.instruction.arguments.map Expression.identifier?) = [some 0] ∧
        caller.frame.identifier? 0 = some y ∧ y.storage = .stackArgument 4 32 ∧
        caller.frame.slotAt (0 - 4) x.dataType.bitSize = .stackLocal (-4) 32 := by
  obtain ⟨p₁, summaries₁, table, callee, caller, hrun, hcallee, hcaller, hframe, hparameters,
    hcallerFrame, harguments⟩ := exists_run_farCalling
  rw [hframe] at hparameters
  have hread : caller.frame.identifier? 0 = some ⟨"dwArg04", .word 32, .stackArgument 4 32⟩ := by
    rw [hcallerFrame]
    rfl
  refine ⟨built_farCalling, ⟨_, rfl, rfl⟩, p₁, summaries₁, table, callee, caller, _, _, hrun,
    hcallee, hcaller, hparameters, ?_, ?_, harguments, hread, rfl, rfl⟩
  · rw [hframe]
    rfl
  · rw [hframe]
    rfl

end Program
end Recovery
