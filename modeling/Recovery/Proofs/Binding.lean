import Recovery.Architecture.X86
import Recovery.Binding
import Recovery.Proofs.Signature.Builder
/-
  What binding a call makes of it.

  Statements are bound one after the other, and each may append to the frame
  that the statements before it already name identifiers of. What is said of a
  bound statement is therefore said in a frame (`Rewritten`), and it stays true
  in every frame that extends that one (`Rewritten.extend`); so a run over
  statements, blocks or arguments speaks of its last frame only.

  `Storage.atCall` is the place of a callee's value as its caller sees it, read
  off the storages alone. A bound identifier lives there as far as the callee's
  signature names registers as the architecture does (`NamedBy`). That is asked
  only where `known` holds of the callee, since a signature that came from
  elsewhere may name any register.
-/

namespace Recovery

/-- Whether each register stands under its own index. -/
def Architecture.Indexed (a : Architecture) : Prop :=
  ∀ i r, a.register? i = some r → r.index = i

theorem X86.indexed_architecture : X86.architecture.Indexed := by
  intro i r hr
  have hi : X86.registers[i]? = some r := hr
  have hindex : (X86.registers.map Register.index)[i]? = some r.index := by
    rw [List.getElem?_map, hi]
    rfl
  rw [X86.index_registers, List.getElem?_eq_some_iff] at hindex
  obtain ⟨hlt, hr⟩ := hindex
  rw [List.getElem_range] at hr
  exact hr.symm

/-- Whether every register in a storage is the one that the architecture has
under its index, at its own width. -/
def Storage.NamedBy (a : Architecture) : Storage → Prop
  | .register i n => ∃ r, a.register? i = some r ∧ r.storage = .register i n
  | .outArgument _ _ referent => referent.NamedBy a
  | _ => True

theorem Storage.namedBy_of_definedBy {a : Architecture} (ha : a.Indexed) {s : Storage}
    (hs : s.DefinedBy a) : s.NamedBy a := by
  induction s with
  | register i n =>
    obtain ⟨j, r, hj, hr⟩ := hs
    obtain ⟨hi, -⟩ := Storage.register.inj hr
    rw [ha j r hj] at hi
    exact ⟨r, hi ▸ hj, hr⟩
  | outArgument name t referent ih => exact ih hs
  | stackArgument | stackLocal | fpuStackArgument | flagGroup => trivial

/-- Where a caller finds a callee's value of some type at a call: the same
register or flags; the stack slot as far above the return address, a local while
the caller has pushed that far and beyond that an argument; the slot of the
floating point stack counted from the depth at the call; the place of the
referent for an out-argument. A stack slot is as wide as the type. The callee
counts its arguments from below its return address, the caller from below its own. -/
def Storage.atCall (calleeReturn callerReturn : Int32) (site : CallSite) (t : DataType) :
    Storage → Storage
  | .register i n => .register i n
  | .stackArgument o _ =>
    if o - calleeReturn - site.stackDepth < 0 then
      .stackLocal (o - calleeReturn - site.stackDepth) t.bitSize
    else .stackArgument (o - calleeReturn - site.stackDepth + callerReturn) t.bitSize
  | .stackLocal o _ => .stackLocal o t.bitSize
  | .fpuStackArgument d => .fpuStackArgument (d + site.fpuDepth)
  | .flagGroup r m => .flagGroup r m
  | .outArgument _ u referent => referent.atCall calleeReturn callerReturn site u

namespace Binding

/-- A number bound to a callee's identifier: it names an identifier of the frame,
which lives where the caller finds the callee's value. -/
def Bound (calleeReturn : Int32) (site : CallSite) (known : Prop) (g : Frame)
    (x : Identifier) (id : IdentifierId) : Prop :=
  ∃ y, g.identifier? id = some y ∧
    (known → y.storage = x.storage.atCall calleeReturn g.returnAddressSize site x.dataType)

/-- The argument for a parameter: handed out for an out-argument, else read. -/
def IsArgument (calleeReturn : Int32) (site : CallSite) (known : Prop) (g : Frame)
    (x : Identifier) (e : Expression) : Prop :=
  ∃ id, Bound calleeReturn site known g x id ∧
    e = if x.storage.isOutArgument then .outArgument id else .identifier id

/-- A call bound to a signature: an application with one argument for each
parameter in order, assigned when there is a return value. -/
def IsCall (calleeReturn : Int32) (site : CallSite) (known : Prop) (g : Frame)
    (callee : Callee) (s : Signature) (instruction : Instruction) : Prop :=
  ∃ es, List.Forall₂ (IsArgument calleeReturn site known g) s.parameters es ∧
    match s.returnValue with
    | none => instruction = .sideEffect (.application callee es)
    | some x => ∃ id, Bound calleeReturn site known g x id ∧
        instruction = .assignment id (.application callee es)

/-- What becomes of a statement: a call whose target has a signature is bound to
it, a return carries the return value of its procedure if it has one, and any
other statement stays. The address stays in every case. -/
def Rewritten (calleeReturn : Int32) (table : SignatureTable) (known : Callee → Prop)
    (result : Option Identifier) (g : Frame) (s s' : Statement) : Prop :=
  s'.address = s.address ∧
    match s.instruction with
    | .call callee site =>
      match signatureOf? table callee with
      | some signature =>
        IsCall calleeReturn site (known callee) g callee signature s'.instruction
      | none => s'.instruction = s.instruction
    | .leave _ =>
      match result with
      | some x => ∃ id, g.Holds id x.storage ∧ s'.instruction = .leave (some (.identifier id))
      | none => s'.instruction = s.instruction
    | _ => s'.instruction = s.instruction

/-- What becomes of a block: its statements are rewritten one by one. -/
structure BlockRewritten (calleeReturn : Int32) (table : SignatureTable)
    (known : Callee → Prop) (result : Option Identifier) (g : Frame) (b b' : Block) : Prop where
  id : b'.id = b.id
  name : b'.name = b.name
  statements : List.Forall₂ (Rewritten calleeReturn table known result g)
    b.statements b'.statements

/-- What becomes of a procedure: its frame is appended to, its blocks are
rewritten one by one, and all else stays. -/
structure ProcedureRewritten (calleeReturn : Int32) (table : SignatureTable)
    (known : Callee → Prop) (q q' : Procedure) : Prop where
  id : q'.id = q.id
  name : q'.name = q.name
  signature : q'.signature = q.signature
  frame : q.frame.Extends q'.frame
  entry : q'.graph.entry = q.graph.entry
  exit : q'.graph.exit = q.graph.exit
  nextId : q'.graph.nextId = q.graph.nextId
  edges : q'.graph.edges = q.graph.edges
  blocks : List.Forall₂
    (BlockRewritten calleeReturn table known q.signature.returnValue q'.frame)
    q.graph.blocks q'.graph.blocks

/-! ## Later frames -/

section
variable {r : Int32} {site : CallSite} {g h : Frame} {table : SignatureTable}

theorem Bound.extend {known : Prop} {x : Identifier} {id : IdentifierId}
    (hb : Bound r site known g x id) (hgh : g.Extends h) : Bound r site known h x id := by
  obtain ⟨y, hy, hstorage⟩ := hb
  refine ⟨y, hgh.identifier? hy, fun hk => ?_⟩
  rw [hgh.returnAddressSize]
  exact hstorage hk

theorem IsArgument.extend {known : Prop} {x : Identifier} {e : Expression}
    (ha : IsArgument r site known g x e) (hgh : g.Extends h) :
    IsArgument r site known h x e := by
  obtain ⟨id, hb, he⟩ := ha
  exact ⟨id, hb.extend hgh, he⟩

theorem IsCall.extend {known : Prop} {callee : Callee} {s : Signature}
    {instruction : Instruction} (hc : IsCall r site known g callee s instruction)
    (hgh : g.Extends h) : IsCall r site known h callee s instruction := by
  obtain ⟨es, hes, hinstruction⟩ := hc
  refine ⟨es, hes.imp fun _ _ ha => ha.extend hgh, ?_⟩
  cases hr : s.returnValue with
  | none =>
    rw [hr] at hinstruction
    exact hinstruction
  | some x =>
    rw [hr] at hinstruction
    obtain ⟨id, hb, hi⟩ := hinstruction
    exact ⟨id, hb.extend hgh, hi⟩

/-- What a call was bound to in a frame, it is bound to in every later one. -/
theorem Rewritten.extend {known : Callee → Prop} {s s' : Statement}
    (hs : Rewritten r table known none g s s') (hgh : g.Extends h) :
    Rewritten r table known none h s s' := by
  obtain ⟨haddress, hinstruction⟩ := hs
  refine ⟨haddress, ?_⟩
  cases hi : s.instruction with
  | call callee site =>
    simp only [hi] at hinstruction ⊢
    cases hsig : signatureOf? table callee with
    | none =>
      simp only [hsig] at hinstruction ⊢
      exact hinstruction
    | some signature =>
      simp only [hsig] at hinstruction ⊢
      exact hinstruction.extend hgh
  | assignment | sideEffect | branch | leave | use =>
    simp only [hi] at hinstruction ⊢
    exact hinstruction

end

/-! ## Binding one value -/

section
variable {a : Architecture} {known : Prop} {x : Identifier}

/-- Looking up the place of a callee's value asks the frame for one identifier. -/
theorem exists_place_eq_ensure (site : CallSite) (f : Frame) (s : Storage) (t : DataType) :
    ∃ i, place a site f t s = f.ensure i ∧
      (s.NamedBy a → i.storage = s.atCall a.returnAddressSize f.returnAddressSize site t) := by
  induction s generalizing t with
  | register index n =>
    -- an undefined index is bound as it is, and then `NamedBy` does not hold
    unfold place
    cases hr : a.register? index with
    | none =>
      refine ⟨_, rfl, fun ⟨r, hindex, _⟩ => ?_⟩
      rw [hr] at hindex
      cases hindex
    | some r =>
      refine ⟨⟨r.name, .word r.bitSize, r.storage⟩, rfl, fun ⟨r', hindex, hstorage⟩ => ?_⟩
      rw [hr] at hindex
      rw [Option.some.inj hindex]
      exact hstorage
  | stackArgument o n =>
    unfold place
    dsimp only
    split
    · next hlow =>
      refine ⟨_, rfl, fun _ => ?_⟩
      rw [Storage.atCall, if_pos hlow]
    · next hhigh =>
      refine ⟨_, rfl, fun _ => ?_⟩
      rw [Storage.atCall, if_neg hhigh]
  | stackLocal o n => exact ⟨_, rfl, fun _ => rfl⟩
  | fpuStackArgument d => exact ⟨_, rfl, fun _ => rfl⟩
  | flagGroup r m => exact ⟨_, rfl, fun _ => rfl⟩
  | outArgument name u referent ih => exact ih u

theorem bound_identifier (site : CallSite) (f : Frame) (hx : known → x.storage.NamedBy a) :
    f.Extends (identifier a site f x).2 ∧
      Bound a.returnAddressSize site known (identifier a site f x).2 x
        (identifier a site f x).1 := by
  obtain ⟨i, hi, hstorage⟩ := exists_place_eq_ensure site f x.storage x.dataType
  rw [identifier, hi]
  have hext := Frame.Extends.ensure f i
  obtain ⟨y, hy, hys⟩ := Frame.holds_iff.1 (Frame.holds_ensure f i)
  refine ⟨hext, y, hy, fun hk => ?_⟩
  rw [hext.returnAddressSize]
  exact hys.trans (hstorage (hx hk))

theorem isArgument_argument (site : CallSite) (f : Frame) (hx : known → x.storage.NamedBy a) :
    f.Extends (argument a site f x).2 ∧
      IsArgument a.returnAddressSize site known (argument a site f x).2 x
        (argument a site f x).1 := by
  obtain ⟨hext, hbound⟩ := bound_identifier site f hx
  exact ⟨hext, _, hbound, rfl⟩

end

/-! ## Binding one after the other -/

/-- Every value of a known callee names registers as the architecture does. -/
def TableNamedBy (a : Architecture) (table : SignatureTable) (known : Callee → Prop) : Prop :=
  ∀ callee s, signatureOf? table callee = some s → known callee →
    ∀ x ∈ s.values, x.storage.NamedBy a

section
variable {a : Architecture} {table : SignatureTable} {known : Callee → Prop}

theorem isArgument_arguments {k : Identifier → Prop} (site : CallSite)
    (parameters : List Identifier) (hp : ∀ x ∈ parameters, k x → x.storage.NamedBy a) :
    ∀ f, f.Extends (arguments a site f parameters).2 ∧
      List.Forall₂ (fun x => IsArgument a.returnAddressSize site (k x)
        (arguments a site f parameters).2 x) parameters (arguments a site f parameters).1 := by
  induction parameters with
  | nil => exact fun f => ⟨.refl f, .nil⟩
  | cons x rest ih =>
    intro f
    obtain ⟨hext, harg⟩ := isArgument_argument site f (hp x List.mem_cons_self)
    obtain ⟨hrest, hargs⟩ :=
      ih (fun y hy => hp y (List.mem_cons_of_mem _ hy)) (argument a site f x).2
    exact ⟨hext.trans hrest, .cons (harg.extend hrest) hargs⟩

theorem isCall_call {k : Prop} (callee : Callee) (site : CallSite) (s : Signature)
    (hs : k → ∀ x ∈ s.values, x.storage.NamedBy a) (f : Frame) :
    f.Extends (call a f callee site s).2 ∧
      IsCall a.returnAddressSize site k (call a f callee site s).2 callee s
        (call a f callee site s).1 := by
  have hp (x : Identifier) (hx : x ∈ s.parameters) (hk : k) : x.storage.NamedBy a :=
    hs hk x (List.mem_append_right _ hx)
  obtain ⟨hext, hargs⟩ := isArgument_arguments site s.parameters hp f
  unfold call
  dsimp only
  cases hr : s.returnValue with
  | none =>
    refine ⟨hext, _, hargs, ?_⟩
    simp only [hr]
  | some x =>
    have hx : k → x.storage.NamedBy a := fun hk =>
      hs hk x (List.mem_append_left _ (by rw [hr]; exact List.mem_singleton_self x))
    obtain ⟨hext', hbound⟩ := bound_identifier site (arguments a site f s.parameters).2 hx
    refine ⟨hext.trans hext', _, hargs.imp fun _ _ h => h.extend hext', ?_⟩
    simp only [hr]
    exact ⟨_, hbound, rfl⟩

theorem rewritten_statement (ht : TableNamedBy a table known) (f : Frame) (s : Statement) :
    f.Extends (statement a table f s).2.1 ∧
      Rewritten a.returnAddressSize table known none (statement a table f s).2.1 s
        (statement a table f s).1 := by
  obtain ⟨address, instruction⟩ := s
  cases instruction with
  | call callee site =>
    unfold statement
    dsimp only
    cases hsig : signatureOf? table callee with
    | none =>
      refine ⟨.refl f, rfl, ?_⟩
      simp only [hsig]
    | some signature =>
      obtain ⟨hext, hcall⟩ := isCall_call callee site signature (ht callee signature hsig) f
      refine ⟨hext, rfl, ?_⟩
      simp only [hsig]
      exact hcall
  | assignment | sideEffect | branch | leave | use => exact ⟨.refl f, rfl, rfl⟩

section
variable {R : Frame → Statement → Statement → Prop}

/-- What binding a statement makes true of it, in the frame left and in every later one, binding
some statements makes true of each. -/
theorem statements_induction
    (hstep : ∀ f s, f.Extends (statement a table f s).2.1 ∧
      R (statement a table f s).2.1 s (statement a table f s).1)
    (hlater : ∀ g h s s', g.Extends h → R g s s' → R h s s') (body : List Statement) :
    ∀ f, f.Extends (statements a table f body).2.1 ∧
      List.Forall₂ (R (statements a table f body).2.1) body (statements a table f body).1 := by
  induction body with
  | nil => exact fun f => ⟨.refl f, .nil⟩
  | cons s rest ih =>
    intro f
    obtain ⟨hext, hs⟩ := hstep f s
    obtain ⟨hrest, hall⟩ := ih (statement a table f s).2.1
    exact ⟨hext.trans hrest, .cons (hlater _ _ _ _ hrest hs) hall⟩

/-- And so does binding some blocks, which changes nothing else of them. -/
theorem blocks_induction
    (hstep : ∀ f s, f.Extends (statement a table f s).2.1 ∧
      R (statement a table f s).2.1 s (statement a table f s).1)
    (hlater : ∀ g h s s', g.Extends h → R g s s' → R h s s') (bs : List Block) :
    ∀ f, f.Extends (blocks a table f bs).2.1 ∧
      List.Forall₂ (fun b b' => b'.id = b.id ∧ b'.name = b.name ∧
        List.Forall₂ (R (blocks a table f bs).2.1) b.statements b'.statements)
        bs (blocks a table f bs).1 := by
  induction bs with
  | nil => exact fun f => ⟨.refl f, .nil⟩
  | cons b rest ih =>
    intro f
    obtain ⟨hext, hs⟩ := statements_induction hstep hlater b.statements f
    -- the later blocks only append, so what was said of this one's frame is said of theirs
    obtain ⟨hrest, hall⟩ := ih (statements a table f b.statements).2.1
    exact ⟨hext.trans hrest,
      .cons ⟨rfl, rfl, hs.imp fun _ _ h => hlater _ _ _ _ hrest h⟩ hall⟩

end

theorem rewritten_blocks (ht : TableNamedBy a table known) (bs : List Block) (f : Frame) :
    f.Extends (blocks a table f bs).2.1 ∧
      List.Forall₂ (BlockRewritten a.returnAddressSize table known none
        (blocks a table f bs).2.1) bs (blocks a table f bs).1 := by
  obtain ⟨hext, hblocks⟩ := blocks_induction (rewritten_statement ht)
    (fun _ _ _ _ hgh h => h.extend hgh) bs f
  exact ⟨hext, hblocks.imp fun _ _ ⟨hid, hname, hstatements⟩ => ⟨hid, hname, hstatements⟩⟩

end

/-! ## Procedures -/

section
variable {r : Int32} {table : SignatureTable} {known : Callee → Prop} {g h : Frame}

theorem address_carry (id : IdentifierId) (s : Statement) : (carry id s).address = s.address := by
  unfold carry
  split
  · rfl
  · rfl

theorem instruction_carry_leave {id : IdentifierId} {s : Statement} {e : Option Expression}
    (hs : s.instruction = .leave e) :
    (carry id s).instruction = .leave (some (.identifier id)) := by
  unfold carry
  rw [hs]

theorem carry_eq_self {id : IdentifierId} {s : Statement}
    (hs : ∀ e, s.instruction ≠ .leave e) : carry id s = s := by
  unfold carry
  split
  · next e he => exact absurd he (hs e)
  · rfl

theorem IsCall.ne_leave {known : Prop} {site : CallSite} {callee : Callee} {s : Signature}
    {instruction : Instruction} (hc : IsCall r site known g callee s instruction)
    (e : Option Expression) : instruction ≠ .leave e := by
  obtain ⟨es, -, hi⟩ := hc
  cases hr : s.returnValue with
  | none =>
    rw [hr] at hi
    rw [hi]
    exact Instruction.noConfusion
  | some x =>
    rw [hr] at hi
    obtain ⟨id, -, hi⟩ := hi
    rw [hi]
    exact Instruction.noConfusion

theorem Rewritten.carry {x : Identifier} {id : IdentifierId} {s s' : Statement}
    (hs : Rewritten r table known none g s s') (hgh : g.Extends h) (hid : h.Holds id x.storage) :
    Rewritten r table known (some x) h s (carry id s') := by
  obtain ⟨haddress, hinstruction⟩ := hs.extend hgh
  refine ⟨(address_carry id s').trans haddress, ?_⟩
  have hkeep (hne : ∀ e, s'.instruction ≠ .leave e) : Binding.carry id s' = s' := carry_eq_self hne
  cases hi : s.instruction with
  | leave e =>
    simp only [hi] at hinstruction
    exact ⟨id, hid, instruction_carry_leave hinstruction⟩
  | call callee site =>
    simp only [hi] at hinstruction ⊢
    cases hsig : signatureOf? table callee with
    | none =>
      simp only [hsig] at hinstruction ⊢
      rw [hkeep (by rw [hinstruction]; exact fun _ => Instruction.noConfusion)]
      exact hinstruction
    | some signature =>
      simp only [hsig] at hinstruction ⊢
      rw [hkeep hinstruction.ne_leave]
      exact hinstruction
  | assignment | sideEffect | branch | use =>
    simp only [hi] at hinstruction ⊢
    rw [hkeep (by rw [hinstruction]; exact fun _ => Instruction.noConfusion)]
    exact hinstruction

theorem BlockRewritten.carry {x : Identifier} {id : IdentifierId} {b b' : Block}
    (hb : BlockRewritten r table known none g b b') (hgh : g.Extends h)
    (hid : h.Holds id x.storage) :
    BlockRewritten r table known (some x) h b
      { b' with statements := b'.statements.map (Binding.carry id) } := by
  refine ⟨hb.id, hb.name, ?_⟩
  rw [List.forall₂_map_right_iff]
  exact hb.statements.imp fun _ _ hs => hs.carry hgh hid

end

theorem rewritten_procedure {a : Architecture} {table : SignatureTable} {known : Callee → Prop}
    (ht : TableNamedBy a table known) (q : Procedure) :
    ProcedureRewritten a.returnAddressSize table known q (procedure a table q).1 := by
  obtain ⟨hext, hblocks⟩ := rewritten_blocks ht q.graph.blocks q.frame
  unfold procedure calls returns
  dsimp only
  cases hr : q.signature.returnValue with
  | none =>
    refine ⟨rfl, rfl, rfl, hext, rfl, rfl, rfl, rfl, ?_⟩
    rw [hr]
    exact hblocks
  | some x =>
    have hcarried := Frame.Extends.ensure (blocks a table q.frame q.graph.blocks).2.1 x
    refine ⟨rfl, rfl, rfl, hext.trans hcarried, rfl, rfl, rfl, rfl, ?_⟩
    rw [hr]
    show List.Forall₂ _ _ (List.map _ _)
    rw [List.forall₂_map_right_iff]
    exact hblocks.imp fun _ _ hb => hb.carry hcarried (Frame.holds_ensure _ x)

end Binding
end Recovery
