import Recovery.Proofs.Signature.Builder
/-
  What a builder lists, in order.

  `Lists start b ss xs` says what a builder has listed since it was started:
  arguments in the storages `ss`, and then the results `xs`, the first of them as
  the return value and each other one through a parameter that stands for it.
  Arguments come first, while there is at most one result (`Lists.argument`), and
  each goes to the end when its index or slot was free. A result goes to the end
  as well when its storage is new among the results (`exists_addResult_lists`).
  The signature that is built says just this (`Lists.exists_build`).

  A frame keeps what was listed while it grows (`Lists.keep`). What is said from
  one builder on can be put after what was said before it (`Lists.root`,
  `Lists.trans`), which is how runs over slots of one frame are put together.
-/

namespace Recovery.Signature.Builder
variable {start b c : Builder} {ss ss' : List Storage} {xs ys : List Identifier} {s : Storage}
  {x : Identifier} {id : IdentifierId}

/-- `Lists start b ss xs`: out of `start` the builder `b` came to list arguments in
the storages `ss` and the results `xs`, which are identifiers of its frame. -/
structure Lists (start b : Builder) (ss : List Storage) (xs : List Identifier) : Prop where
  architecture : b.architecture = start.architecture
  fpuStackDelta : b.fpuStackDelta = start.fpuStackDelta
  fpuOutMax : b.fpuOutMax = start.fpuOutMax
  frame : start.frame.Keeps b.frame
  parameters : List.Forall₂ b.frame.Holds b.parameters
    (ss ++ xs.tail.map Identifier.outStorage)
  arguments : ∀ s ∈ ss, s.kind ≠ .outArgument
  results : ∃ ids : List IdentifierId, b.returnValue = ids.head? ∧
    List.Forall₂ (fun id x => b.frame.identifier? id = some x ∧
      x.storage.kind ≠ .stackArgument) ids xs

theorem Lists.root (h : Lists start b ss xs) : Lists b b ss xs :=
  ⟨rfl, rfl, rfl, .refl _, h.parameters, h.arguments, h.results⟩

theorem Lists.trans (h : Lists start b ss xs) (h' : Lists b c ss' ys) : Lists start c ss' ys :=
  ⟨h'.architecture.trans h.architecture, h'.fpuStackDelta.trans h.fpuStackDelta,
    h'.fpuOutMax.trans h.fpuOutMax, h.frame.trans h'.frame, h'.parameters, h'.arguments,
    h'.results⟩

theorem Lists.keep (h : Lists start b ss xs) {f : Frame} (hf : b.frame.Keeps f) :
    Lists start { b with frame := f } ss xs := by
  obtain ⟨ids, hreturn, hnamed⟩ := h.results
  refine ⟨h.architecture, h.fpuStackDelta, h.fpuOutMax, h.frame.trans hf, ?_, h.arguments,
    ids, hreturn, ?_⟩
  · exact h.parameters.imp fun _ _ hs => hf.grows.holds hs
  · exact hnamed.imp fun id x hx => ⟨hf.identifier? id x hx.1 hx.2, hx.2⟩

theorem lists_start (a : Architecture) (f : Frame) (fpuStackDelta fpuOutMax : Int32) :
    Lists (.start a f fpuStackDelta fpuOutMax) (.start a f fpuStackDelta fpuOutMax) [] [] := by
  refine ⟨rfl, rfl, rfl, .refl _, .nil, fun s hs => ?_, [], rfl, .nil⟩
  cases hs

/-! ## Arguments -/

theorem Lists.argument (h : Lists start b ss xs) (hfirst : xs.tail = []) {f : Frame}
    (hf : b.frame.Keeps f) (hs : f.Holds id s) (hkind : s.kind ≠ .outArgument)
    (registers : List Nat) (stackSlots fpuSlots : Table Int32 Nat) :
    Lists start { b with
      frame := f, registers, stackSlots, fpuSlots, parameters := b.parameters ++ [id] }
      (ss ++ [s]) xs := by
  have hkept := h.keep hf
  have hparameters := hkept.parameters
  refine ⟨hkept.architecture, hkept.fpuStackDelta, hkept.fpuOutMax, hkept.frame, ?_, ?_,
    hkept.results⟩
  · rw [hfirst, List.map_nil, List.append_nil] at hparameters ⊢
    exact List.rel_append hparameters (.cons hs .nil)
  · intro t ht
    rcases List.mem_append.1 ht with ht | ht
    · exact h.arguments t ht
    · rw [List.mem_singleton.1 ht]
      exact hkind

theorem lists_addRegister (h : Lists start b ss xs) (hfirst : xs.tail = []) {i : Nat}
    {r : Register} (hr : b.architecture.register? i = some r)
    (hpart : b.architecture.isPartOfAny i b.registers = false) (hnew : i ∉ b.registers) :
    Lists start (b.addRegister i).2 (ss ++ [r.storage]) xs ∧
      (b.addRegister i).2.registers = b.registers ++ [i] := by
  have hcontains : b.registers.contains i = false := by
    rw [← Bool.not_eq_true, List.contains_iff_mem]
    exact hnew
  let named : Identifier := ⟨r.name, .word r.bitSize, r.storage⟩
  have hkeeps : b.frame.Keeps (b.frame.ensure named).2 := .ensure _ _ fun hslot => by cases hslot
  have hholds := Frame.holds_ensure b.frame named
  have hadd : (b.addRegister i).2 = { b with
      frame := (b.frame.ensure named).2
      registers := b.registers ++ [i]
      parameters := b.parameters ++ [(b.frame.ensure named).1] } := by
    unfold addRegister
    simp only [hr, hpart, hcontains, Bool.or_self, Bool.false_eq_true, if_false]
    rfl
  rw [hadd]
  refine ⟨h.argument hfirst hkeeps hholds ?_ _ _ _, rfl⟩
  exact StorageKind.noConfusion

theorem offer_of_free {f : Frame} {parameters : List IdentifierId} {slots : Table Int32 Nat}
    {slot : Int32} (hfree : slot ∉ slots.keys) :
    offer f parameters slots slot id =
      (parameters ++ [id], slots.put slot parameters.length) := by
  rw [offer, Table.get?_eq_none_iff.2 hfree]

theorem keys_put_of_free {slots : Table Int32 Nat} {slot : Int32} (hfree : slot ∉ slots.keys)
    (place : Nat) : (slots.put slot place).keys = slots.keys ++ [slot] := by
  rw [Table.keys_put, if_neg hfree]

theorem lists_addStackArgument (h : Lists start b ss xs) (hfirst : xs.tail = []) {offset : Int32}
    (hs : b.frame.Holds id s) (hkind : s.kind ≠ .outArgument)
    (hfree : offset ∉ b.stackSlots.keys) :
    Lists start (b.addStackArgument offset id) (ss ++ [s]) xs ∧
      (b.addStackArgument offset id).stackSlots.keys = b.stackSlots.keys ++ [offset] := by
  rw [addStackArgument, offer_of_free hfree]
  exact ⟨h.argument hfirst (.refl _) hs hkind _ _ _, keys_put_of_free hfree _⟩

theorem lists_addFpuArgument (h : Lists start b ss xs) (hfirst : xs.tail = []) {depth : Int32}
    (hs : b.frame.Holds id s) (hkind : s.kind ≠ .outArgument)
    (hfree : depth ∉ b.fpuSlots.keys) :
    Lists start (b.addFpuArgument depth id) (ss ++ [s]) xs ∧
      (b.addFpuArgument depth id).fpuSlots.keys = b.fpuSlots.keys ++ [depth] := by
  rw [addFpuArgument, offer_of_free hfree]
  exact ⟨h.argument hfirst (.refl _) hs hkind _ _ _, keys_put_of_free hfree _⟩

/-! ## Results -/

theorem Lists.returnValue_eq_none_iff (h : Lists start b ss xs) :
    b.returnValue = none ↔ xs = [] := by
  obtain ⟨ids, hreturn, hnamed⟩ := h.results
  rw [hreturn]
  cases hnamed with
  | nil => simp
  | cons => simp

theorem Lists.results_append (h : Lists start b ss xs) (hx : b.frame.identifier? id = some x)
    (hkind : x.storage.kind ≠ .stackArgument) :
    ∃ ids : List IdentifierId, (b.returnValue.orElse fun _ => some id) = ids.head? ∧
      List.Forall₂ (fun id x => b.frame.identifier? id = some x ∧
        x.storage.kind ≠ .stackArgument) ids (xs ++ [x]) := by
  obtain ⟨ids, hreturn, hnamed⟩ := h.results
  refine ⟨ids ++ [id], ?_, List.rel_append hnamed (.cons ⟨hx, hkind⟩ .nil)⟩
  rw [hreturn]
  cases ids with
  | nil => rfl
  | cons => rfl

/-- A number holds one storage only, so one that is not listed is not a parameter. -/
theorem Lists.not_mem_parameters (h : Lists start b ss xs) {out : IdentifierId}
    (hout : b.frame.Holds out x.outStorage) (hnew : x.storage ∉ xs.map Identifier.storage) :
    out ∉ b.parameters := by
  intro hmem
  obtain ⟨s, hs, hholds⟩ := exists_right_of_mem h.parameters hmem
  have hsame : s = x.outStorage := Option.some.inj (hholds.symm.trans hout)
  rcases List.mem_append.1 hs with hs | hs
  · apply h.arguments s hs
    rw [hsame]
    rfl
  · -- the parameter would stand for the same result
    obtain ⟨y, hy, rfl⟩ := List.mem_map.1 hs
    obtain ⟨-, -, hstorage⟩ := Storage.outArgument.inj hsame
    rw [← hstorage] at hnew
    exact hnew (List.mem_map_of_mem (List.mem_of_mem_tail hy))

/-- A result in a storage that none of the others has is listed after them. -/
theorem exists_addResult_lists (h : Lists start b ss xs) (hx : b.frame.identifier? id = some x)
    (hkind : x.storage.kind ≠ .stackArgument) (hnew : x.storage ∉ xs.map Identifier.storage) :
    ∃ c, b.addResult id = .ok c ∧ Lists start c ss (xs ++ [x]) := by
  obtain ⟨ids, hreturn, hnamed⟩ := h.results_append hx hkind
  unfold addResult
  cases hr : b.returnValue with
  | none =>
    obtain rfl := h.returnValue_eq_none_iff.1 hr
    rw [hr] at hreturn
    exact ⟨_, rfl, h.architecture, h.fpuStackDelta, h.fpuOutMax, h.frame, h.parameters,
      h.arguments, ids, hreturn, hnamed⟩
  | some first =>
    have hxs : xs ≠ [] := by
      intro hxs
      rw [h.returnValue_eq_none_iff.2 hxs] at hr
      cases hr
    let out : Identifier :=
      ⟨Frame.outName x.name, .pointer x.dataType b.architecture.pointerBitSize, x.outStorage⟩
    have hkept : Lists start { b with frame := (b.frame.ensure out).2 } ss xs :=
      h.keep (.ensure _ _ fun hslot => by cases hslot)
    have hout : (b.frame.ensure out).2.Holds (b.frame.ensure out).1 x.outStorage :=
      Frame.holds_ensure b.frame out
    have hcontains : b.parameters.contains (b.frame.ensure out).1 = false := by
      rw [← Bool.not_eq_true, List.contains_iff_mem]
      exact hkept.not_mem_parameters hout hnew
    have hlast : (xs ++ [x]).tail.map Identifier.outStorage =
        xs.tail.map Identifier.outStorage ++ [x.outStorage] := by
      rw [List.tail_append_of_ne_nil hxs, List.map_append]
      rfl
    obtain ⟨ids', hreturn', hnamed'⟩ := hkept.results_append
      ((Frame.Extends.ensure b.frame out).identifier? hx) hkind
    rw [Frame.ensureOutArgument, Frame.get_eq_ok hx]
    refine ⟨_, rfl, hkept.architecture, hkept.fpuStackDelta, hkept.fpuOutMax, hkept.frame, ?_,
      hkept.arguments, ids', ?_, hnamed'⟩
    · show List.Forall₂ _ (if b.parameters.contains (b.frame.ensure out).1 then _ else _) _
      rw [hcontains, hlast, ← List.append_assoc]
      exact List.rel_append hkept.parameters (.cons hout .nil)
    · rw [← hreturn']
      show some first = _
      rw [hr]
      rfl

theorem exists_addResult_ensure (h : Lists start b ss xs) (i : Identifier)
    (hslot : i.storage.kind = .fpuStackArgument → i.storage ∈ b.frame.storages)
    (hkind : i.storage.kind ≠ .stackArgument) (hnew : i.storage ∉ xs.map Identifier.storage) :
    ∃ c x, { b with frame := (b.frame.ensure i).2 }.addResult (b.frame.ensure i).1 = .ok c ∧
      Lists start c ss (xs ++ [x]) ∧ x.storage = i.storage := by
  obtain ⟨x, hx, hstorage⟩ := Frame.holds_iff.1 (Frame.holds_ensure b.frame i)
  rw [← hstorage] at hkind hnew
  obtain ⟨c, hc, hlists⟩ := exists_addResult_lists (h.keep (.ensure _ i hslot)) hx hkind hnew
  exact ⟨c, x, hc, hlists, hstorage⟩

/-- Results in different storages, none of which was there before, are listed in order. -/
theorem exists_foldlM_results {α : Type} {f : Builder → α → Except Error Builder}
    {t : α → Option Storage} (l : List α)
    (hstep : ∀ b xs, Lists start b ss xs → ∀ y ∈ l,
      (∀ s, t y = some s → s ∉ xs.map Identifier.storage) →
      ∃ c ys, f b y = .ok c ∧ Lists start c ss (xs ++ ys) ∧
        ys.map Identifier.storage = (t y).toList)
    (h : Lists start b ss xs)
    (hd : (xs.map Identifier.storage ++ l.filterMap t).Nodup) :
    ∃ c ys, l.foldlM f b = .ok c ∧ Lists start c ss (xs ++ ys) ∧
      ys.map Identifier.storage = l.filterMap t := by
  have hrun := exists_foldlM_along (f := f)
    (motive := fun done b => ∃ ys, Lists start b ss (xs ++ ys) ∧
      ys.map Identifier.storage = done.filterMap t) l ?_ b ⟨[], ?_, rfl⟩
  · obtain ⟨c, hc, ys, hlists, hys⟩ := hrun
    exact ⟨c, ys, hc, hlists, hys⟩
  · rintro done y rest hl b ⟨ys, hlists, hys⟩
    have hnew : ∀ s, t y = some s → s ∉ (xs ++ ys).map Identifier.storage := by
      intro s hs hmem
      rw [← hl, List.filterMap_append, List.filterMap_cons_some hs, ← List.append_assoc,
        ← hys, ← List.map_append, List.nodup_append] at hd
      exact hd.2.2 s hmem s List.mem_cons_self rfl
    obtain ⟨c, zs, hc, hlists', hzs⟩ := hstep b (xs ++ ys) hlists y (mem_of_split hl) hnew
    refine ⟨c, hc, ys ++ zs, ?_, ?_⟩
    · rw [← List.append_assoc]
      exact hlists'
    · rw [List.map_append, hys, hzs, List.filterMap_append]
      cases ht : t y with
      | none => simp [ht]
      | some s => simp [ht]
  · rw [List.append_nil]
    exact h

/-! ## The signature -/

theorem Lists.exists_build (h : Lists start b ss xs) :
    ∃ signature, b.build = .ok signature ∧ signature.returnValue = xs.head? ∧
      signature.parameters.map Identifier.storage =
        ss ++ xs.tail.map Identifier.outStorage := by
  obtain ⟨ids, hreturn, hnamed⟩ := h.results
  have hget : ∀ id ∈ b.parameters, ∃ x, b.frame.get id = .ok x ∧
      b.frame.identifier? id = some x := by
    intro id hid
    obtain ⟨s, -, hs⟩ := exists_right_of_mem h.parameters hid
    obtain ⟨x, hx⟩ := hs.exists_identifier
    exact ⟨x, Frame.get_eq_ok hx, hx⟩
  obtain ⟨ps, hps, hread⟩ := exists_mapM_ok b.parameters hget
  have hstorages : ps.map Identifier.storage = ss ++ xs.tail.map Identifier.outStorage := by
    have hholds : List.Forall₂ b.frame.Holds b.parameters (ps.map Identifier.storage) :=
      List.forall₂_map_right_iff.2 (hread.imp fun _ _ hx => Frame.holds_of_identifier? hx)
    refine List.right_unique_forall₂' (fun id s t hs ht => ?_) hholds h.parameters
    exact Option.some.inj (hs.symm.trans ht)
  unfold build
  rw [hreturn, hps]
  cases hnamed with
  | nil => exact ⟨_, rfl, rfl, hstorages⟩
  | cons hx _ =>
    rw [List.head?_cons]
    dsimp only
    rw [Frame.get_eq_ok hx.1]
    exact ⟨_, rfl, rfl, hstorages⟩

end Recovery.Signature.Builder
