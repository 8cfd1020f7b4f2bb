import Recovery.Proofs.Interface
/-
  Values bound at a call never meet.

  A call is bound in the caller's frame, one identifier for each value of the
  callee. When the callee's signature was made by the first pass, values that go
  in lie in different identifiers, and so do values that come out, whatever the
  caller's frame holds and however deep both stacks are at the call.

  Three facts are put together:

    1. a signature that is made has no two arguments in one place, even with the
       widths of stack arguments left out, and no two results in one storage
       (`Signature.Separate`);
    2. different places of the callee are different places of the caller
       (`Storage.unsized_eq_of_atCall_eq`): stack arguments keep their distances
       when they are split into locals and arguments of the caller;
    3. an identifier of the caller's last frame lives in one place only
       (`Binding.nodup_of_bound`).
-/

namespace Recovery

/-! ## What a bound call names -/

/-- The identifier whose place an expression hands out, when it does. -/
def Expression.outArgument? : Expression → Option IdentifierId
  | outArgument id => some id
  | _ => none

namespace Instruction

/-- The identifiers that a bound call passes in. -/
def passed : Instruction → List IdentifierId
  | assignment _ (.application _ es) | sideEffect (.application _ es) =>
    es.filterMap Expression.identifier?
  | _ => []

/-- The identifiers in which a bound call hands back: what it is assigned to, and what it
hands out. -/
def received : Instruction → List IdentifierId
  | assignment target (.application _ es) => target :: es.filterMap Expression.outArgument?
  | sideEffect (.application _ es) => es.filterMap Expression.outArgument?
  | _ => []

end Instruction

/-- The parameters that pass a value in. -/
def Signature.passed (s : Signature) : List Identifier :=
  s.parameters.filter fun x => !x.storage.isOutArgument

/-! ## Places at a call -/

namespace Storage
variable {s t : Storage} {calleeReturn callerReturn : Int32} {site : CallSite} {u w : DataType}

/-- Whether a storage is of a kind that values of a signature that is made have. -/
def Passable (s : Storage) : Prop := s.kind ≠ .stackLocal ∧ s.kind ≠ .outArgument

/-- The place of the callee that a caller's place stands for, its width left out. -/
def ofCaller (calleeReturn callerReturn : Int32) (site : CallSite) : Storage → Storage
  | .stackLocal o _ => .stackArgument (o + site.stackDepth + calleeReturn) 0
  | .stackArgument o _ => .stackArgument (o - callerReturn + site.stackDepth + calleeReturn) 0
  | .fpuStackArgument d => .fpuStackArgument (d - site.fpuDepth)
  | s => s

theorem ofCaller_atCall (hs : s.Passable) :
    (s.atCall calleeReturn callerReturn site u).ofCaller calleeReturn callerReturn site =
      s.unsized := by
  cases s with
  | register | flagGroup => rfl
  | stackLocal => exact absurd rfl hs.1
  | outArgument => exact absurd rfl hs.2
  | fpuStackArgument d =>
    show fpuStackArgument (d + site.fpuDepth - site.fpuDepth) = _
    rw [Int32.add_sub_cancel]
    rfl
  | stackArgument o n =>
    -- the same offset comes back from either side of the caller's return address
    have hoffset {o' : Int32} (h : o' = o) : stackArgument o' 0 = (stackArgument o n).unsized := by
      rw [h]
      rfl
    rw [atCall]
    split
    · apply hoffset
      rw [Int32.sub_add_cancel, Int32.sub_add_cancel]
    · apply hoffset
      rw [Int32.add_sub_cancel, Int32.sub_add_cancel, Int32.sub_add_cancel]

/-- What a caller finds in one place is in one place of the callee, widths aside. -/
theorem unsized_eq_of_atCall_eq (hs : s.Passable) (ht : t.Passable)
    (h : s.atCall calleeReturn callerReturn site u = t.atCall calleeReturn callerReturn site w) :
    s.unsized = t.unsized := by
  rw [← ofCaller_atCall hs, h, ofCaller_atCall ht]

end Storage

/-- Values in different places of the callee are found in different places at a call. -/
theorem nodup_atCall {xs : List Identifier} (hxs : ∀ x ∈ xs, x.storage.Passable)
    (h : (xs.map fun x => x.storage.unsized).Nodup) (calleeReturn callerReturn : Int32)
    (site : CallSite) :
    (xs.map fun x => x.storage.atCall calleeReturn callerReturn site x.dataType).Nodup := by
  rw [List.Nodup, List.pairwise_map] at h ⊢
  apply h.imp_of_mem
  intro x y hx hy hne heq
  exact hne (Storage.unsized_eq_of_atCall_eq (hxs x hx) (hxs y hy) heq)

/-! ## Signatures that are made -/

/-- No two values that go in share a place, and no two that come out, widths aside. -/
structure Signature.Separate (s : Signature) : Prop where
  passed : (s.passed.map fun x => x.storage.unsized).Nodup
  handedBack : (s.handedBack.map fun x => x.storage.unsized).Nodup
  passable : ∀ x, x ∈ s.passed ∨ x ∈ s.handedBack → x.storage.Passable

namespace Synthesis
variable {a : Architecture} {mask : Nat} {rs : List Register} {depths : List Int32}

theorem IsArguments.passable {used : List Register} {ss : List Storage} (h : IsArguments used ss) :
    ∀ s ∈ ss, s.Passable := by
  intro s hs
  rcases h.kind_mem hs with hkind | hkind | hkind <;> simp [Storage.Passable, hkind]

theorem passable_of_mem_resultStorages {s : Storage}
    (hs : s ∈ resultStorages a mask rs depths) : s.Passable ∧ s.kind ≠ .stackArgument := by
  have hkind : s.kind = .flagGroup ∨ s.kind = .register ∨ s.kind = .fpuStackArgument := by
    rcases List.mem_append.1 hs with hs | hs
    · rcases List.mem_append.1 hs with hs | hs
      · exact Or.inl (kind_flagsResult hs)
      · obtain ⟨r, -, rfl⟩ := List.mem_map.1 hs
        exact Or.inr (Or.inl rfl)
    · obtain ⟨d, -, rfl⟩ := List.mem_map.1 hs
      exact Or.inr (Or.inr rfl)
  rcases hkind with hkind | hkind | hkind <;> simp [Storage.Passable, hkind]

theorem LaidOut.passed {signature : Signature} {f : Frame} {ss : List Storage}
    {xs : List Identifier} (h : LaidOut signature f ss xs) (hss : ∀ s ∈ ss, s.kind ≠ .outArgument) :
    signature.passed.map Identifier.storage = ss := by
  have hin : ss.filter (fun s => !s.isOutArgument) = ss := by
    rw [List.filter_eq_self]
    intro s hs
    cases s with
    | outArgument => exact absurd rfl (hss _ hs)
    | register | stackArgument | stackLocal | fpuStackArgument | flagGroup => rfl
  have hout : (xs.tail.map Identifier.outStorage).filter (fun s => !s.isOutArgument) = [] := by
    rw [List.filter_eq_nil_iff]
    intro s hs
    obtain ⟨x, -, rfl⟩ := List.mem_map.1 hs
    exact Bool.noConfusion
  calc signature.passed.map Identifier.storage
      = (signature.parameters.map Identifier.storage).filter (fun s => !s.isOutArgument) := by
        rw [Signature.passed, List.filter_map]
        rfl
    _ = ss := by rw [h.parameters, List.filter_append, hin, hout, List.append_nil]

theorem separate_of_treat {settings : Settings} {p : Platform} {q : Procedure} {s : Summary}
    {t : Procedure × Summary} (ha : a.Indexed) (hq : q.signature.valid = false)
    (ht : treat settings a p q s = .ok t) : t.1.signature.Separate := by
  obtain ⟨ss, depths, xs, hlaid, hss, hapart, hdepths, hxs⟩ :=
    exists_laidOut_apart_of_treat ha hq ht
  have hpassed := hlaid.passed hss.kind_ne
  have hback := hlaid.handedBack hss.kind_ne
  have hresults (x : Identifier) (hx : x ∈ xs) := passable_of_mem_resultStorages
    (hxs ▸ List.mem_map_of_mem (f := Identifier.storage) hx)
  have hunsized : xs.map (fun x => x.storage.unsized) = xs.map Identifier.storage :=
    List.map_congr_left fun x hx => Storage.unsized_eq_self (hresults x hx).2
  refine ⟨?_, ?_, fun x hx => ?_⟩
  · rw [← hpassed, List.map_map] at hapart
    exact hapart
  · rw [hback, hunsized, hxs]
    exact nodup_resultStorages _ _ (outermost_listedRegisters ha).nodup_storages hdepths.ascending
  · rcases hx with hx | hx
    · exact hss.passable _ (hpassed ▸ List.mem_map_of_mem hx)
    · exact (hresults x (hback ▸ hx)).1

end Synthesis

/-! ## Calls bound to them -/

namespace Binding
variable {r : Int32} {site : CallSite} {known : Prop} {g : Frame} {callee : Callee} {s : Signature}
  {i : Instruction} {ps xs : List Identifier} {es : List Expression} {ids : List IdentifierId}

/-- A call bound so that values that go in lie in different identifiers, and so do values
that come out. -/
structure BoundApart (calleeReturn : Int32) (site : CallSite) (g : Frame) (callee : Callee)
    (s : Signature) (instruction : Instruction) : Prop where
  isCall : IsCall calleeReturn site True g callee s instruction
  passed : instruction.passed.Nodup
  received : instruction.received.Nodup

theorem nodup_of_bound (h : List.Forall₂ (Bound r site True g) xs ids)
    (hxs : (xs.map fun x =>
      x.storage.atCall r g.returnAddressSize site x.dataType).Nodup) : ids.Nodup := by
  have hplaces : ids.map (fun id => (g.identifier? id).map Identifier.storage) =
      (xs.map fun x => x.storage.atCall r g.returnAddressSize site x.dataType).map some := by
    clear hxs
    induction h with
    | nil => rfl
    | cons hb _ ih =>
      obtain ⟨y, hy, hstorage⟩ := hb
      rw [List.map_cons, List.map_cons, List.map_cons, ih, hy, ← hstorage trivial]
      rfl
  have hsome := hxs.map (Option.some_injective Storage)
  rw [← hplaces] at hsome
  exact hsome.of_map

theorem forall₂_passed (h : List.Forall₂ (IsArgument r site known g) ps es) :
    List.Forall₂ (Bound r site known g) (ps.filter fun x => !x.storage.isOutArgument)
      (es.filterMap Expression.identifier?) := by
  rw [← List.filterMap_eq_filter]
  refine List.rel_filterMap (fun x e harg => ?_) h
  obtain ⟨id, hb, rfl⟩ := harg
  cases hout : x.storage.isOutArgument with
  | true => simp [Option.guard, hout, Expression.identifier?]
  | false => simpa [Option.guard, hout, Expression.identifier?] using Option.Rel.some hb

theorem forall₂_handedOut (h : List.Forall₂ (IsArgument r site known g) ps es) :
    List.Forall₂ (Bound r site known g) (ps.filterMap fun x => x.storage.referent?)
      (es.filterMap Expression.outArgument?) := by
  refine List.rel_filterMap (fun x e harg => ?_) h
  obtain ⟨id, hb, rfl⟩ := harg
  obtain ⟨name, t, storage⟩ := x
  cases storage with
  | outArgument => exact .some hb
  | register | stackArgument | stackLocal | fpuStackArgument | flagGroup => exact .none

theorem IsCall.forall₂_passed (h : IsCall r site known g callee s i) :
    List.Forall₂ (Bound r site known g) s.passed i.passed := by
  obtain ⟨es, hes, hi⟩ := h
  have hpassed := Binding.forall₂_passed hes
  cases hr : s.returnValue with
  | none =>
    simp only [hr] at hi
    rw [hi]
    exact hpassed
  | some x =>
    simp only [hr] at hi
    obtain ⟨id, -, rfl⟩ := hi
    exact hpassed

theorem IsCall.forall₂_received (h : IsCall r site known g callee s i) :
    List.Forall₂ (Bound r site known g) s.handedBack i.received := by
  obtain ⟨es, hes, hi⟩ := h
  have hout := forall₂_handedOut hes
  rw [Signature.handedBack]
  cases hr : s.returnValue with
  | none =>
    simp only [hr] at hi
    rw [hi]
    exact hout
  | some x =>
    simp only [hr] at hi
    obtain ⟨id, hb, rfl⟩ := hi
    exact .cons hb hout

/-- A call bound to a signature that keeps its values separate keeps its identifiers so. -/
theorem IsCall.apart (h : IsCall r site True g callee s i) (hs : s.Separate) :
    BoundApart r site g callee s i := by
  refine ⟨h, nodup_of_bound h.forall₂_passed ?_, nodup_of_bound h.forall₂_received ?_⟩
  · exact nodup_atCall (fun x hx => hs.passable x (Or.inl hx)) hs.passed _ _ _
  · exact nodup_atCall (fun x hx => hs.passable x (Or.inr hx)) hs.handedBack _ _ _

end Binding

namespace Program
variable {p : Program}

theorem exists_synthesize_separate (settings : Settings) (hp : p.Built)
    (ha : p.architecture.Indexed) (summaries : Summaries) :
    ∃ p₁ summaries₁ table, p.synthesize settings summaries = .ok (p₁, summaries₁, table) ∧
      Synthesized p summaries p₁ summaries₁ table ∧
      ∀ c, p.Synthesizes (.procedure c) →
        ∃ signature, table.get? c = some signature ∧ signature.Separate := by
  obtain ⟨p₁, summaries₁, table, hrun, hs⟩ := exists_synthesize settings hp summaries
  obtain ⟨p₁', summaries₁', table', hrun', htreated⟩ :=
    hp.numbered.exists_synthesize settings summaries
  obtain rfl : p₁' = p₁ := congrArg Prod.fst (Except.ok.inj (hrun'.symm.trans hrun))
  refine ⟨p₁', summaries₁, table, hrun, hs, fun c ⟨q, hq, hvalid⟩ => ?_⟩
  obtain ⟨t, ht, htreat⟩ := htreated c q hq
  refine ⟨t.1.signature, ?_, Synthesis.separate_of_treat ha hvalid htreat⟩
  rw [hs.get? c, ht]
  rfl

/-- **Bound values never meet.** At a call of a procedure that the first pass made the
signature of, the identifiers that go in are different ones, and so are those that come
out: for any frame of the caller and any depths at the call, and so for every call in
the program. -/
theorem bindCalls_separate (settings : Settings) (hp : p.Built) (ha : p.architecture.Indexed)
    (summaries : Summaries) :
    ∃ p₁ summaries₁ table, p.synthesize settings summaries = .ok (p₁, summaries₁, table) ∧
      (∀ c, p.Synthesizes (.procedure c) → ∃ signature, table.get? c = some signature ∧
        ∀ f site, Binding.BoundApart p.architecture.returnAddressSize site
          (Binding.call p.architecture f (.procedure c) site signature).2 (.procedure c) signature
          (Binding.call p.architecture f (.procedure c) site signature).1) ∧
      List.Forall₂ (fun q₁ q' => List.Forall₂ (fun b b' => List.Forall₂
          (fun s s' => ∀ c site, s.instruction = .call (.procedure c) site →
            p.Synthesizes (.procedure c) → ∃ signature, table.get? c = some signature ∧
              Binding.BoundApart p.architecture.returnAddressSize site q'.frame (.procedure c)
                signature s'.instruction)
          b.statements b'.statements) q₁.graph.blocks q'.graph.blocks)
        p₁.procedures (p₁.bindCalls table).1.procedures := by
  obtain ⟨p₁, summaries₁, table, hrun, hs, hseparate⟩ :=
    exists_synthesize_separate settings hp ha summaries
  have hnamed := hs.tableNamedBy ha
  refine ⟨p₁, summaries₁, table, hrun, fun c hc => ?_, ?_⟩
  · obtain ⟨signature, hsig, hsep⟩ := hseparate c hc
    refine ⟨signature, hsig, fun f site => ?_⟩
    obtain ⟨-, hcall⟩ := Binding.isCall_call (.procedure c) site signature
      (fun _ => hnamed (.procedure c) signature hsig hc) f
    exact hcall.apart hsep
  · rw [procedures_bindCalls, List.forall₂_map_right_iff, List.forall₂_same, hs.architecture]
    intro q₁ _
    have hrewritten := Binding.rewritten_procedure hnamed q₁
    refine hrewritten.blocks.imp fun b b' hb => hb.statements.imp fun s s' hstatement => ?_
    intro c site hcall hc
    obtain ⟨signature, hsig, hsep⟩ := hseparate c hc
    refine ⟨signature, hsig, ?_⟩
    obtain ⟨-, hinstruction⟩ := hstatement
    have hsig' : Binding.signatureOf? table (.procedure c) = some signature := hsig
    simp only [hcall, hsig'] at hinstruction
    rw [eq_true hc] at hinstruction
    exact hinstruction.apart hsep

/-- A procedure that calls the one that reads and leaves values of every kind, with four
bytes pushed and one slot of the floating point stack in use. -/
def consulting : Program :=
  converting.push (.ofGraph 1 "consult" (.empty 4)
    ((Graph.empty 0 1).addBlock ⟨0, "entry", [⟨16, .call (.procedure 0) ⟨4, -1⟩⟩]⟩))

theorem built_consulting : consulting.Built := .push (.empty 4) built_converting

/-- Two registers, what was pushed and a slot go in; the flags, two registers and that slot
come out. -/
theorem bindCalls_separate_consulting :
    consulting.Built ∧ consulting.architecture.Indexed ∧
      consulting.Synthesizes (.procedure 0) ∧
      ∃ p₁ summaries₁ table signature, ∃ bound : Instruction × Frame,
        consulting.synthesize .standard convertingSummaries = .ok (p₁, summaries₁, table) ∧
        table.get? 0 = some signature ∧
        bound = Binding.call X86.architecture (.empty 4) (.procedure 0) ⟨4, -1⟩ signature ∧
        bound.1.passed = [0, 1, 2, 3] ∧ bound.1.received = [6, 4, 5, 3] ∧
        bound.2.storages.take 4 =
          [.register 1 32, .register 8 16, .stackLocal (-4) 32, .fpuStackArgument (-1)] ∧
        Binding.BoundApart 4 ⟨4, -1⟩ bound.2 (.procedure 0) signature bound.1 := by
  have hmade : consulting.Synthesizes (.procedure 0) := ⟨_, rfl, rfl⟩
  obtain ⟨p₁, summaries₁, table, hrun, hcalls, -⟩ := bindCalls_separate .standard
    built_consulting X86.indexed_architecture convertingSummaries
  obtain ⟨signature, hsig, hapart⟩ := hcalls 0 hmade
  have hbound : ((consulting.synthesize .standard convertingSummaries).toOption.bind fun t =>
      (t.2.2.get? 0).map fun signature =>
        let bound := Binding.call X86.architecture (.empty 4) (.procedure 0) ⟨4, -1⟩ signature
        (bound.1.passed, bound.1.received, bound.2.storages.take 4)) =
      some ([0, 1, 2, 3], [6, 4, 5, 3],
        [.register 1 32, .register 8 16, .stackLocal (-4) 32, .fpuStackArgument (-1)]) := by
    decide +kernel
  rw [hrun] at hbound
  replace hbound : (table.get? 0).map _ = some _ := hbound
  rw [hsig] at hbound
  obtain ⟨hpassed, hreceived⟩ := Prod.mk.inj (Option.some.inj hbound)
  obtain ⟨hreceived, hstorages⟩ := Prod.mk.inj hreceived
  exact ⟨built_consulting, X86.indexed_architecture, hmade, p₁, summaries₁, table, signature, _,
    hrun, hsig, rfl, hpassed, hreceived, hstorages, hapart _ _⟩

end Program
end Recovery
