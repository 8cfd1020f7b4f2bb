import Recovery.Proofs.Program
import Recovery.Proofs.Signature.Layout
/-
  The interfaces that the first pass gives to procedures.

  A procedure without a valid signature is given one from its summary. Two things
  are said of it here, for every program and all summaries.

    1. Registers are covered and none is passed twice: among the parameters, and
       among the values handed back, there are just the registers of the summary
       that are no part of another one of it (`synthesize_covers_registers`).
    2. Every result is handed back once: the results stand in a fixed order, the
       first is the return value, and the parameters end with one out-argument for
       each of the others (`synthesize_hands_back_results`).

  Both are read off the layout of the signature (`Synthesis.exists_laidOut_of_treat`).
-/

namespace Recovery

/-- The registers among the storages of some identifiers, in order. -/
def registerStorages (xs : List Identifier) : List Storage :=
  (xs.map Identifier.storage).filter fun s => s.kind = .register

namespace Synthesis
variable {ts : List Storage} {kind : StorageKind}

theorem filter_register_eq_nil (h : ∀ t ∈ ts, t.kind ≠ .register) :
    ts.filter (fun t => t.kind = .register) = [] := by
  rw [List.filter_eq_nil_iff]
  intro t ht
  rw [decide_eq_true_eq]
  exact h t ht

theorem filter_register_map_storage (rs : List Register) :
    (rs.map Register.storage).filter (fun t => t.kind = .register) = rs.map Register.storage := by
  rw [List.filter_eq_self]
  intro t ht
  obtain ⟨r, -, rfl⟩ := List.mem_map.1 ht
  rfl

theorem IsArguments.registers {used : List Register} (h : IsArguments used ts) :
    ts.filter (fun t => t.kind = .register) = used.map Register.storage := by
  obtain ⟨stack, slots, rfl, hstack, hslots⟩ := h
  have hstack : stack.filter (fun t => t.kind = .register) = [] :=
    filter_register_eq_nil fun t ht => by
      rw [hstack t ht]
      exact StorageKind.noConfusion
  have hslots : slots.filter (fun t => t.kind = .register) = [] :=
    filter_register_eq_nil fun t ht => by
      rw [hslots t ht]
      exact StorageKind.noConfusion
  rw [List.filter_append, List.filter_append, filter_register_map_storage, hstack, hslots,
    List.append_nil, List.append_nil]

theorem registers_resultStorages (a : Architecture) (mask : Nat) (passed : List Register)
    (depths : List Int32) :
    (resultStorages a mask passed depths).filter (fun t => t.kind = .register) =
      passed.map Register.storage := by
  have hflags : (flagsResult a mask).filter (fun t => t.kind = .register) = [] :=
    filter_register_eq_nil fun t ht => by
      rw [kind_flagsResult ht]
      exact StorageKind.noConfusion
  have hslots : (depths.map Storage.fpuStackArgument).filter (fun t => t.kind = .register) = [] :=
    filter_register_eq_nil fun t ht => by
      obtain ⟨d, -, rfl⟩ := List.mem_map.1 ht
      exact StorageKind.noConfusion
  rw [resultStorages, List.filter_append, List.filter_append, filter_register_map_storage,
    hflags, hslots, List.nil_append, List.append_nil]

end Synthesis

namespace Program
open Synthesis
variable {p : Program}

/-- The first pass puts in the place of each procedure what becomes of it with its
own summary. -/
theorem Numbered.exists_synthesize (hp : p.Numbered) (settings : Settings)
    (summaries : Summaries) :
    ∃ p₁ summaries₁ table, p.synthesize settings summaries = .ok (p₁, summaries₁, table) ∧
      ∀ i q, p.procedures[i]? = some q → ∃ t, p₁.procedures[i]? = some t.1 ∧
        treat settings p.architecture p.platform q (summaries.of i) = .ok t := by
  obtain ⟨ts, hrun, hsynthesize⟩ := exists_synthesize_run settings p summaries
  refine ⟨_, _, _, hsynthesize, fun i q hq => ?_⟩
  obtain ⟨t, ht, htreat⟩ := exists_right_of_getElem? hrun hq
  rw [hp i q hq] at htreat
  refine ⟨t, ?_, htreat⟩
  show (ts.map Prod.fst)[i]? = some t.1
  rw [List.getElem?_map, ht]
  rfl

/-- Where being a part is told by bits, the registers that a procedure receives, and
those that it hands back, cover the registers that its summary names, without those
passed as a matter of course: each of these is one of the selected ones or a part of
one, and no selected one is a part of another. -/
theorem synthesize_covers_registers (settings : Settings) (hp : p.Numbered)
    (ha : p.architecture.Indexed) (hbits : p.architecture.PartsByBits) (summaries : Summaries) :
    ∃ p₁ summaries₁ table, p.synthesize settings summaries = .ok (p₁, summaries₁, table) ∧
      ∀ i q, p.procedures[i]? = some q → q.signature.valid = false →
        ∃ q₁ used passed, p₁.procedures[i]? = some q₁ ∧
          p.architecture.Selects
            ((summaries.of i).mayUse \ p.platform.implicitRegisters) used ∧
          registerStorages q₁.signature.parameters = used.map Register.storage ∧
          p.architecture.Selects
            (((summaries.of i).liveOut ∩ (summaries.of i).trashed) \
              p.platform.implicitRegisters) passed ∧
          registerStorages q₁.signature.handedBack = passed.map Register.storage := by
  obtain ⟨p₁, summaries₁, table, hrun, htreated⟩ := hp.exists_synthesize settings summaries
  refine ⟨p₁, summaries₁, table, hrun, fun i q hq hvalid => ?_⟩
  obtain ⟨t, ht, htreat⟩ := htreated i q hq
  obtain ⟨ss, depths, xs, hlaid, hss, -, hxs⟩ := exists_laidOut_of_treat ha hvalid htreat
  have houts : (xs.tail.map Identifier.outStorage).filter (fun t => t.kind = .register) = [] :=
    filter_register_eq_nil fun t ht => by
      obtain ⟨x, -, rfl⟩ := List.mem_map.1 ht
      exact StorageKind.noConfusion
  refine ⟨t.1, _, _, ht, selects_listedRegisters ha hbits, ?_,
    selects_listedRegisters ha hbits, ?_⟩
  · rw [registerStorages, hlaid.parameters, List.filter_append, hss.registers, houts,
      List.append_nil]
  · rw [registerStorages, hlaid.handedBack hss.kind_ne, hxs, registers_resultStorages]

/-- A procedure that reads registers, an argument on the stack and the top of the
floating point stack, and leaves results in the carry flag, in registers and on top
of the floating point stack. -/
def converting : Program :=
  (Program.empty X86.architecture X86.windows).push
    ⟨0, "convert",
      (((Frame.empty 4).ensure ⟨"dwArg04", .word 32, .stackArgument 4 32⟩).2.ensure
        ⟨"rArg0", .word 64, .fpuStackArgument 0⟩).2,
      .undetermined 0 0, .empty 0 1⟩

/-- Of `al`, `ax`, `ecx` and `esp` the procedure receives `ax` and `ecx`; of `eax`,
`ax` and `edx` it hands back `eax` and `edx`. -/
def convertingSummaries : Summaries :=
  Table.empty.put 0
    { Summary.empty with
      mayUse := .ofList [16, 8, 1, 4]
      liveOut := .ofList [0, 8, 2, 3]
      trashed := .ofList [0, 8, 2]
      flagsLiveOut := 2
      flagsTrashed := 3 }

theorem built_converting : converting.Built :=
  .push (.ensure _ (.ensure _ (.empty 4))) (.empty _ _)

/-- Of `al`, `ax` and `ecx` the procedure receives `ecx` and `ax`, and of `eax`, `ax`
and `edx` it hands back `eax` and `edx`. -/
theorem synthesize_covers_registers_converting :
    converting.Numbered ∧ converting.architecture.Indexed ∧
      converting.architecture.PartsByBits ∧
      ∃ p₁ summaries₁ table q₁ used passed,
        converting.synthesize .standard convertingSummaries = .ok (p₁, summaries₁, table) ∧
        p₁.procedures[0]? = some q₁ ∧
        X86.architecture.Selects
          (RegisterSet.ofList [16, 8, 1, 4] \ X86.windows.implicitRegisters) used ∧
        registerStorages q₁.signature.parameters = used.map Register.storage ∧
        used.map Register.storage = [.register 1 32, .register 8 16] ∧
        X86.architecture.Selects
          ((RegisterSet.ofList [0, 8, 2, 3] ∩ RegisterSet.ofList [0, 8, 2]) \
            X86.windows.implicitRegisters) passed ∧
        registerStorages q₁.signature.handedBack = passed.map Register.storage ∧
        passed.map Register.storage = [.register 0 32, .register 2 32] := by
  obtain ⟨p₁, summaries₁, table, hrun, hall⟩ := synthesize_covers_registers .standard
    built_converting.numbered X86.indexed_architecture rfl convertingSummaries
  obtain ⟨q₁, used, passed, hq₁, hused, hparameters, hpassed, hback⟩ := hall 0 _ rfl rfl
  have hstorages : (converting.synthesize .standard convertingSummaries).toOption.map
      (fun t => (t.1.procedures[0]?).map fun q => (registerStorages q.signature.parameters,
        registerStorages q.signature.handedBack)) =
        some (some ([.register 1 32, .register 8 16], [.register 0 32, .register 2 32])) := by
    decide +kernel
  rw [hrun] at hstorages
  have hstorages := Option.some.inj hstorages
  dsimp only at hstorages
  rw [hq₁, Option.map_some, Option.some.injEq, Prod.mk.injEq, hparameters, hback] at hstorages
  exact ⟨built_converting.numbered, X86.indexed_architecture, rfl, p₁, summaries₁, table, q₁,
    used, passed, hrun, hq₁, hused, hparameters, hstorages.1, hpassed, hback, hstorages.2⟩

/-- A procedure hands back each result of its summary and frame exactly once: the
flags that are looked at and written, the registers, and the slots of the floating
point stack. The first result is the return value. The parameters are arguments,
first registers, then slots of the stack and of the floating point stack, and after
them one out-argument for each other result in order, which stands for the
identifier that the frame has for it. -/
theorem synthesize_hands_back_results (settings : Settings) (hp : p.Built)
    (ha : p.architecture.Indexed) (summaries : Summaries) :
    ∃ p₁ summaries₁ table, p.synthesize settings summaries = .ok (p₁, summaries₁, table) ∧
      ∀ i q, p.procedures[i]? = some q → q.signature.valid = false →
        ∃ q₁ passed depths used arguments, ∃ results : List Identifier,
          p₁.procedures[i]? = some q₁ ∧
          p.architecture.Outermost
            (((summaries.of i).liveOut ∩ (summaries.of i).trashed) \
              p.platform.implicitRegisters) passed ∧
          Depths q.frame (-q.signature.fpuStackDelta) q.signature.fpuOutMax depths ∧
          results.map Identifier.storage = resultStorages p.architecture
            ((summaries.of i).flagsLiveOut &&& (summaries.of i).flagsTrashed) passed depths ∧
          (results.map Identifier.storage).Nodup ∧
          (∀ x ∈ results, ∃ id, q₁.frame.find? x.storage = some id ∧
            q₁.frame.identifier? id = some x) ∧
          IsArguments used arguments ∧
          q₁.signature.returnValue = results.head? ∧
          q₁.signature.parameters.map Identifier.storage =
            arguments ++ results.tail.map Identifier.outStorage := by
  obtain ⟨p₁, summaries₁, table, hrun, htreated⟩ :=
    hp.numbered.exists_synthesize settings summaries
  refine ⟨p₁, summaries₁, table, hrun, fun i q hq hvalid => ?_⟩
  obtain ⟨t, ht, htreat⟩ := htreated i q hq
  obtain ⟨ss, depths, xs, hlaid, hss, hdepths, hxs⟩ := exists_laidOut_of_treat ha hvalid htreat
  have hdistinct : t.1.frame.Distinct :=
    ((Treated.of_treat (hp.distinct q (List.mem_of_getElem? hq)) htreat).made hvalid).distinct
  have hpassed := outermost_listedRegisters (p := p.platform)
    (s := (summaries.of i).liveOut ∩ (summaries.of i).trashed) ha
  refine ⟨t.1, _, depths, _, ss, xs, ht, hpassed, hdepths, hxs, ?_, fun x hx => ?_, hss,
    hlaid.returnValue, hlaid.parameters⟩
  · rw [hxs]
    exact nodup_resultStorages _ _ hpassed.nodup_storages hdepths.ascending
  · obtain ⟨id, hid⟩ := hlaid.named x hx
    exact ⟨id, (Frame.find?_eq_some_iff hdistinct).2 (Frame.holds_of_identifier? hid), hid⟩

/-- The carry flag is returned, and `eax`, `edx` and the top of the floating point
stack are handed back through parameters. The top of that stack is an argument too. -/
theorem synthesize_hands_back_results_converting :
    converting.Built ∧ converting.architecture.Indexed ∧
      ∃ p₁ summaries₁ table q₁ arguments, ∃ results : List Identifier,
        converting.synthesize .standard convertingSummaries = .ok (p₁, summaries₁, table) ∧
        p₁.procedures[0]? = some q₁ ∧
        (results.map Identifier.storage).Nodup ∧
        q₁.signature.returnValue = results.head? ∧
        results.head?.map Identifier.storage = some (.flagGroup 30 2) ∧
        q₁.signature.parameters.map Identifier.storage =
          arguments ++ results.tail.map Identifier.outStorage ∧
        arguments ++ results.tail.map Identifier.outStorage =
          [.register 1 32, .register 8 16, .stackArgument 4 32, .fpuStackArgument 0,
            .outArgument "eax" (.word 32) (.register 0 32),
            .outArgument "edx" (.word 32) (.register 2 32),
            .outArgument "rArg0" (.word 64) (.fpuStackArgument 0)] := by
  obtain ⟨p₁, summaries₁, table, hrun, hall⟩ := synthesize_hands_back_results .standard
    built_converting X86.indexed_architecture convertingSummaries
  obtain ⟨q₁, passed, depths, used, arguments, results, hq₁, -, -, -, hnodup, -, -, hreturn,
    hparameters⟩ := hall 0 _ rfl rfl
  have hstorages : (converting.synthesize .standard convertingSummaries).toOption.map
      (fun t => (t.1.procedures[0]?).map fun q =>
        (q.signature.returnValue.map Identifier.storage,
          q.signature.parameters.map Identifier.storage)) =
        some (some (some (.flagGroup 30 2),
          [.register 1 32, .register 8 16, .stackArgument 4 32, .fpuStackArgument 0,
            .outArgument "eax" (.word 32) (.register 0 32),
            .outArgument "edx" (.word 32) (.register 2 32),
            .outArgument "rArg0" (.word 64) (.fpuStackArgument 0)])) := by
    decide +kernel
  rw [hrun] at hstorages
  have hstorages := Option.some.inj hstorages
  dsimp only at hstorages
  rw [hq₁, Option.map_some, Option.some.injEq, Prod.mk.injEq, hreturn, hparameters] at hstorages
  exact ⟨built_converting, X86.indexed_architecture, p₁, summaries₁, table, q₁, arguments,
    results, hrun, hq₁, hnodup, hreturn, hstorages.1, hparameters, hstorages.2⟩

end Program
end Recovery
