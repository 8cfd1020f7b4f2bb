import Recovery.Proofs.Signature.Listing
import Recovery.Proofs.Signature.Registers
import Recovery.Proofs.Signature.Synthesis
/-
  The layout of a signature that is made from a summary.

  `assemble` makes six runs, and each adds to the end of what is listed: the flags
  as a first result, arguments in registers, on the stack and on the floating point
  stack, and then results in registers and on the floating point stack. A run over
  slots looks them up in the frame it starts with; what is said while it goes on is
  said of that frame (`Lists.root`) and put after the rest at the end
  (`Lists.trans`). `exists_arguments_lists` puts the first four runs together, and
  `exists_results_lists` the last two.

  `LaidOut` says the same of the finished signature: which storages its arguments
  have (`IsArguments`) and which its results (`resultStorages`). No result comes
  twice (`nodup_resultStorages`), and no argument is in the place of another, the
  widths of stack arguments left out (`nodup_unsized_arguments`). The results can
  be read off the signature again (`LaidOut.handedBack`).
-/

namespace Recovery.Synthesis
open Signature (Builder)
open Signature.Builder

variable {a : Architecture} {p : Platform} {start b : Builder} {ss : List Storage}
  {xs : List Identifier}

/-- The storage of the flags that a procedure hands back, if there are any. -/
def flagsResult (a : Architecture) (mask : Nat) : List Storage :=
  if mask = 0 then [] else a.flagsRegister.toList.map fun flags => .flagGroup flags.index mask

/-! ## Runs -/

theorem exists_addFlagGroup_lists (a : Architecture) (f : Frame) (fpuStackDelta fpuOutMax : Int32)
    (mask : Nat) :
    ∃ xs, Lists (.start a f fpuStackDelta fpuOutMax)
        ((Builder.start a f fpuStackDelta fpuOutMax).addFlagGroup mask) [] xs ∧
      xs.map Identifier.storage =
        a.flagsRegister.toList.map fun flags => .flagGroup flags.index mask := by
  have hstart := lists_start a f fpuStackDelta fpuOutMax
  unfold addFlagGroup
  cases hflags : (Builder.start a f fpuStackDelta fpuOutMax).architecture.flagsRegister with
  | none =>
    have hflags : a.flagsRegister = none := hflags
    exact ⟨[], hstart, by rw [hflags]; rfl⟩
  | some flags =>
    have hflags : a.flagsRegister = some flags := hflags
    -- with no return value so far, the group is added as any first result is
    obtain ⟨c, x, hc, hlists, hstorage⟩ := exists_addResult_ensure hstart
      ⟨a.flagGroupName mask, .bool, .flagGroup flags.index mask⟩ (fun hslot => by cases hslot)
      StorageKind.noConfusion List.not_mem_nil
    cases hc
    refine ⟨[x], hlists, ?_⟩
    rw [hflags, List.map_singleton, hstorage]
    rfl

theorem lists_addRegister_listed {s : RegisterSet} {done rest : List Nat} {i : Nat}
    (hl : done ++ i :: rest = listed a p s) (ha : start.architecture = a)
    (h : Lists start b ((done.filterMap a.register?).map Register.storage) xs)
    (hfirst : xs.tail = []) (htaken : ∀ j ∈ b.registers, j ∈ done) :
    Lists start (b.addRegister i).2
        (((done ++ [i]).filterMap a.register?).map Register.storage) xs ∧
      ∀ j ∈ (b.addRegister i).2.registers, j ∈ done ++ [i] := by
  have harch : b.architecture = a := h.architecture.trans ha
  have hlisted : ∀ j ∈ done ++ [i], j ∈ listed a p s := by
    intro j hj
    rw [← hl, List.append_cons]
    exact List.mem_append_left _ hj
  rw [List.filterMap_append]
  cases hi : a.register? i with
  | none =>
    have hskip : (b.addRegister i).2 = b := by
      unfold addRegister
      simp only [harch, hi]
    rw [hskip, List.filterMap_cons_none hi, List.filterMap_nil, List.append_nil]
    exact ⟨h, fun j hj => List.mem_append_left _ (htaken j hj)⟩
  | some r =>
    have hpart : a.isPartOfAny i b.registers = false :=
      isPartOfAny_of_listed hi (hlisted i (List.mem_append_right _ List.mem_cons_self))
        fun j hj => hlisted j (List.mem_append_left _ (htaken j hj))
    have hnew : i ∉ b.registers := by
      intro hib
      have hpairwise := pairwise_listed a p s
      rw [← hl, List.pairwise_append] at hpairwise
      exact Nat.lt_irrefl i (hpairwise.2.2 i (htaken i hib) i List.mem_cons_self)
    have hi' : b.architecture.register? i = some r := by rw [harch, hi]
    rw [← harch] at hpart
    obtain ⟨hadded, hregisters⟩ := lists_addRegister h hfirst hi' hpart hnew
    rw [List.filterMap_cons_some hi, List.filterMap_nil, List.map_append, hregisters]
    refine ⟨hadded, fun j hj => ?_⟩
    rcases List.mem_append.1 hj with hj | hj
    · exact List.mem_append_left _ (htaken j hj)
    · exact List.mem_append_right _ hj

/-- The registers that are listed are arguments, in order: none of them is a part
of another one, so the builder takes them all. -/
theorem lists_addRegisters {s : RegisterSet} (ha : start.architecture = a)
    (h : Lists start b [] xs) (hfirst : xs.tail = []) (hfree : b.registers = []) :
    Lists start ((listed a p s).foldl (fun b i => (b.addRegister i).2) b)
      ((listedRegisters a p s).map Register.storage) xs := by
  refine (foldl_along (f := fun b i => (Builder.addRegister b i).2)
    (motive := fun done b => Lists start b ((done.filterMap a.register?).map Register.storage) xs ∧
      ∀ i ∈ b.registers, i ∈ done) (listed a p s) ?_ b ⟨h, ?_⟩).1
  · intro done i rest hl b hb
    exact lists_addRegister_listed hl ha hb.1 hfirst hb.2
  · rw [hfree]
    exact fun i hi => hi

theorem slots_addRegisters (l : List Nat) (b : Builder) :
    (l.foldl (fun b i => (b.addRegister i).2) b).stackSlots = b.stackSlots ∧
      (l.foldl (fun b i => (b.addRegister i).2) b).fpuSlots = b.fpuSlots := by
  refine List.foldlRecOn (motive := fun c : Builder =>
    c.stackSlots = b.stackSlots ∧ c.fpuSlots = b.fpuSlots) l _ ⟨rfl, rfl⟩ ?_
  intro c hc i _
  unfold addRegister
  split
  · exact hc
  · split
    · exact hc
    · exact hc

theorem not_mem_done_of_slots {f : Frame} {kind : StorageKind} {first : Int32}
    {done rest : List (Int32 × IdentifierId)} {slot : Int32 × IdentifierId}
    (hl : done ++ slot :: rest = slots f kind first) : slot.1 ∉ done.map Prod.fst := by
  intro hmem
  have hpairwise := pairwise_slots f kind first
  rw [← hl, List.map_append, List.pairwise_append] at hpairwise
  exact Int32.lt_irrefl (hpairwise.2.2 _ hmem _ List.mem_cons_self)

theorem exists_addStackSlot_lists (s : Summary) (h : Lists start b ss xs) (hfirst : xs.tail = [])
    {offset : Int32} {id : IdentifierId} {t : Storage} (ht : b.frame.Holds id t)
    (hkind : t.kind = .stackArgument) (hfree : offset ∉ b.stackSlots.keys) :
    ∃ c, addStackSlot s b (offset, id) = .ok c ∧ Lists start c (ss ++ [t]) xs ∧
      c.stackSlots.keys = b.stackSlots.keys ++ [offset] ∧ c.fpuSlots = b.fpuSlots := by
  have hkind' : t.kind ≠ .outArgument := by
    rw [hkind]
    exact StorageKind.noConfusion
  unfold addStackSlot
  dsimp only
  cases s.stackArguments.get? id with
  | none =>
    obtain ⟨hlists, hkeys⟩ := lists_addStackArgument h hfirst ht hkind' hfree
    exact ⟨_, rfl, hlists, hkeys, rfl⟩
  | some bits =>
    obtain ⟨i, hi⟩ := ht.exists_identifier
    obtain ⟨g, hg⟩ := ht.exists_setDataType (i.dataType.narrow bits)
    have hkeeps : b.frame.Keeps g := .setDataType hg ht hkind
    obtain ⟨hlists, hkeys⟩ :=
      lists_addStackArgument (h.keep hkeeps) hfirst (hkeeps.grows.holds ht) hkind' hfree
    refine ⟨_, ?_, hlists, hkeys, rfl⟩
    rw [Frame.get_eq_ok hi]
    show (b.frame.setDataType id (i.dataType.narrow bits) >>= fun frame =>
      pure ({ b with frame := frame }.addStackArgument offset id)) = _
    rw [hg]
    rfl

theorem exists_foldlM_addStackSlot (s : Summary) (h : Lists start b ss xs)
    (hfirst : xs.tail = []) (hfree : b.stackSlots.keys = []) :
    ∃ c stack, (slots b.frame .stackArgument 0).foldlM (addStackSlot s) b = .ok c ∧
      Lists start c (ss ++ stack) xs ∧
      stack.map Storage.unsized = ((slots b.frame .stackArgument 0).map Prod.fst).map
        (fun o => .stackArgument (o + b.frame.returnAddressSize) 0) ∧
      c.fpuSlots = b.fpuSlots := by
  have hrun := exists_foldlM_along (f := addStackSlot s)
    (motive := fun done c => (∃ stack, Lists b c (ss ++ stack) xs ∧
        stack.map Storage.unsized = (done.map Prod.fst).map fun o =>
          .stackArgument (o + b.frame.returnAddressSize) 0) ∧
      c.stackSlots.keys = done.map Prod.fst ∧ c.fpuSlots = b.fpuSlots)
    (slots b.frame .stackArgument 0) ?_ b ⟨⟨[], ?_, rfl⟩, hfree, rfl⟩
  · obtain ⟨c, hc, ⟨stack, hlists, hstack⟩, -, hfpu⟩ := hrun
    exact ⟨c, stack, hc, h.trans hlists, hstack, hfpu⟩
  · intro done slot rest hl c ⟨⟨stack, hlists, hstack⟩, hkeys, hfpu⟩
    obtain ⟨t, ht, hunsized⟩ := holds_of_mem_stackSlots slot (mem_of_split hl)
    have hkind : t.kind = .stackArgument := by
      rw [← Storage.kind_unsized, hunsized]
      rfl
    have hfree : slot.1 ∉ c.stackSlots.keys := by
      rw [hkeys]
      exact not_mem_done_of_slots hl
    obtain ⟨d, hd, hlists', hkeys', hfpu'⟩ := exists_addStackSlot_lists s hlists hfirst
      (hlists.frame.grows.holds ht) hkind hfree
    refine ⟨d, hd, ⟨stack ++ [t], ?_, ?_⟩, ?_, hfpu'.trans hfpu⟩
    · rw [← List.append_assoc]
      exact hlists'
    · rw [List.map_append, List.map_append, List.map_append, hstack, List.map_singleton, hunsized]
      rfl
    · rw [hkeys', hkeys, List.map_append]
      rfl
  · rw [List.append_nil]
    exact h.root

theorem lists_addFpuArguments (h : Lists start b ss xs) (hfirst : xs.tail = [])
    (hfree : b.fpuSlots.keys = []) :
    Lists start ((slots b.frame .fpuStackArgument 0).foldl
        (fun b (depth, id) => b.addFpuArgument depth id) b)
      (ss ++ (slots b.frame .fpuStackArgument 0).map fun slot => .fpuStackArgument slot.1) xs := by
  have hrun := foldl_along (f := fun (b : Builder) (slot : Int32 × IdentifierId) =>
      b.addFpuArgument slot.1 slot.2)
    (motive := fun done c =>
      Lists b c (ss ++ done.map fun slot => .fpuStackArgument slot.1) xs ∧
        c.fpuSlots.keys = done.map Prod.fst)
    (slots b.frame .fpuStackArgument 0) ?_ b ⟨?_, hfree⟩
  · exact h.trans hrun.1
  · intro done slot rest hl c ⟨hlists, hkeys⟩
    have hholds := hlists.frame.grows.holds (holds_of_mem_depths slot (mem_of_split hl))
    have hfree : slot.1 ∉ c.fpuSlots.keys := by
      rw [hkeys]
      exact not_mem_done_of_slots hl
    obtain ⟨hlists', hkeys'⟩ :=
      lists_addFpuArgument hlists hfirst hholds StorageKind.noConfusion hfree
    rw [List.map_append, List.map_append, ← List.append_assoc, hkeys', hkeys]
    exact ⟨hlists', rfl⟩
  · rw [List.map_nil, List.append_nil]
    exact h.root

theorem exists_addRegisterResult_lists (ha : start.architecture = a) (h : Lists start b ss xs)
    (i : Nat)
    (hnew : ∀ s, (a.register? i).map Register.storage = some s →
      s ∉ xs.map Identifier.storage) :
    ∃ c ys, addRegisterResult b i = .ok c ∧ Lists start c ss (xs ++ ys) ∧
      ys.map Identifier.storage = ((a.register? i).map Register.storage).toList := by
  obtain rfl : b.architecture = a := h.architecture.trans ha
  unfold addRegisterResult
  cases hi : b.architecture.register? i with
  | none =>
    refine ⟨b, [], rfl, ?_, rfl⟩
    rw [List.append_nil]
    exact h
  | some r =>
    rw [hi] at hnew
    obtain ⟨c, x, hc, hlists, hstorage⟩ := exists_addResult_ensure h
      ⟨r.name, .word r.bitSize, r.storage⟩ (fun hslot => by cases hslot)
      StorageKind.noConfusion (hnew r.storage rfl)
    refine ⟨c, [x], hc, hlists, ?_⟩
    rw [List.map_singleton, hstorage]
    rfl

theorem exists_foldlM_addRegisterResult {s : RegisterSet} (ha : start.architecture = a)
    (h : Lists start b ss xs)
    (hd : (xs.map Identifier.storage ++
      (listedRegisters a p s).map Register.storage).Nodup) :
    ∃ c ys, (listed a p s).foldlM addRegisterResult b = .ok c ∧ Lists start c ss (xs ++ ys) ∧
      ys.map Identifier.storage = (listedRegisters a p s).map Register.storage := by
  rw [listedRegisters, List.map_filterMap] at hd ⊢
  exact exists_foldlM_results _
    (fun b xs hlists i _ hnew => exists_addRegisterResult_lists ha hlists i hnew) h hd

/-- The storage of the result in a slot of the floating point stack, if it is not
too deep. -/
def fpuResult (fpuOutMax : Int32) (slot : Int32 × IdentifierId) : Option Storage :=
  if slot.1 ≤ fpuOutMax then some (.fpuStackArgument slot.1) else none

theorem exists_addFpuResult_lists (h : Lists start b ss xs) {slot : Int32 × IdentifierId}
    (hslot : b.frame.Holds slot.2 (.fpuStackArgument slot.1))
    (hnew : ∀ s, fpuResult start.fpuOutMax slot = some s → s ∉ xs.map Identifier.storage) :
    ∃ c ys, addFpuResult b slot = .ok c ∧ Lists start c ss (xs ++ ys) ∧
      ys.map Identifier.storage = (fpuResult start.fpuOutMax slot).toList := by
  obtain ⟨depth, id⟩ := slot
  unfold addFpuResult fpuResult
  rw [← h.fpuOutMax] at hnew ⊢
  by_cases hdeep : depth ≤ b.fpuOutMax
  · obtain ⟨i, hi⟩ := hslot.exists_identifier
    obtain ⟨c, x, hc, hlists, hstorage⟩ := exists_addResult_ensure h
      ⟨"rArg" ++ toString depth, i.dataType, .fpuStackArgument depth⟩
      (fun _ => List.mem_of_getElem? hslot) StorageKind.noConfusion (hnew _ (if_pos hdeep))
    refine ⟨c, [x], ?_, hlists, ?_⟩
    · dsimp only
      rw [if_pos hdeep, Frame.get_eq_ok hi]
      exact hc
    · rw [List.map_singleton, hstorage, if_pos hdeep]
      rfl
  · refine ⟨b, [], ?_, ?_, ?_⟩
    · dsimp only
      rw [if_neg hdeep]
      rfl
    · rw [List.append_nil]
      exact h
    · rw [if_neg hdeep]
      rfl

theorem exists_foldlM_addFpuResult (h : Lists start b ss xs)
    (hd : (xs.map Identifier.storage ++ (slots b.frame .fpuStackArgument
      (-b.fpuStackDelta)).filterMap (fpuResult start.fpuOutMax)).Nodup) :
    ∃ c ys, (slots b.frame .fpuStackArgument (-b.fpuStackDelta)).foldlM addFpuResult b = .ok c ∧
      Lists start c ss (xs ++ ys) ∧
      ys.map Identifier.storage = (slots b.frame .fpuStackArgument
        (-b.fpuStackDelta)).filterMap (fpuResult start.fpuOutMax) := by
  rw [← h.fpuOutMax] at hd ⊢
  have hrun := exists_foldlM_results (f := addFpuResult) (t := fpuResult b.fpuOutMax)
    (slots b.frame .fpuStackArgument (-b.fpuStackDelta)) ?_ h.root hd
  · obtain ⟨c, ys, hc, hlists, hys⟩ := hrun
    exact ⟨c, ys, hc, h.trans hlists, hys⟩
  · intro c ys hlists slot hslot hnew
    have hholds := hlists.frame.grows.holds (holds_of_mem_depths slot hslot)
    exact exists_addFpuResult_lists hlists hholds hnew

theorem filterMap_fpuResult (fpuOutMax : Int32) (l : List (Int32 × IdentifierId)) :
    l.filterMap (fpuResult fpuOutMax) =
      ((l.map Prod.fst).filter (· ≤ fpuOutMax)).map .fpuStackArgument := by
  induction l with
  | nil => rfl
  | cons slot rest ih =>
    by_cases hdeep : slot.1 ≤ fpuOutMax
    · simp [fpuResult, hdeep, ih]
    · simp [fpuResult, hdeep, ih]

/-- The depths at which a frame has slots of the floating point stack, between two
bounds and in ascending order. -/
structure Depths (f : Frame) (first last : Int32) (depths : List Int32) : Prop where
  ascending : depths.Pairwise (· < ·)
  mem_iff : ∀ d, d ∈ depths ↔ first ≤ d ∧ d ≤ last ∧ .fpuStackArgument d ∈ f.storages

theorem depths_slots {f g : Frame} (hfg : f.Keeps g) (first last : Int32) :
    Depths f first last
      (((slots g .fpuStackArgument first).map Prod.fst).filter (· ≤ last)) := by
  refine ⟨(pairwise_slots g .fpuStackArgument first).filter _, fun d => ?_⟩
  rw [List.mem_filter, mem_depths_iff, decide_eq_true_eq, and_assoc, and_comm (b := d ≤ last)]
  refine and_congr_right fun _ => and_congr_right fun _ => ⟨hfg.fpuSlots d, fun hd => ?_⟩
  exact hfg.grows.storages.subset hd

/-! ## All of it -/

/-- Whether some storages are those of arguments: the registers that are used, then
slots of the stack, then slots of the floating point stack. -/
def IsArguments (used : List Register) (ss : List Storage) : Prop :=
  ∃ stack slots, ss = used.map Register.storage ++ stack ++ slots ∧
    (∀ t ∈ stack, t.kind = .stackArgument) ∧ ∀ t ∈ slots, t.kind = .fpuStackArgument

/-- The storages of results: the flags, then registers, then slots of the floating
point stack. -/
def resultStorages (a : Architecture) (mask : Nat) (passed : List Register)
    (depths : List Int32) : List Storage :=
  flagsResult a mask ++ passed.map Register.storage ++ depths.map .fpuStackArgument

section
variable {mask : Nat} {t : Storage}

theorem tail_flagsResult (a : Architecture) (mask : Nat) : (flagsResult a mask).tail = [] := by
  unfold flagsResult
  split
  · rfl
  · cases a.flagsRegister with
    | none => rfl
    | some flags => rfl

theorem kind_flagsResult (ht : t ∈ flagsResult a mask) : t.kind = .flagGroup := by
  unfold flagsResult at ht
  split at ht
  · cases ht
  · obtain ⟨flags, -, rfl⟩ := List.mem_map.1 ht
    rfl

theorem nodup_flagsResult (a : Architecture) (mask : Nat) : (flagsResult a mask).Nodup := by
  have htail := tail_flagsResult a mask
  cases h : flagsResult a mask with
  | nil => exact List.nodup_nil
  | cons t ts =>
    rw [h, List.tail_cons] at htail
    rw [htail]
    exact List.nodup_singleton t

theorem nodup_append_of_kind_ne {ss ts : List Storage} (hs : ss.Nodup) (ht : ts.Nodup)
    (h : ∀ s ∈ ss, ∀ t ∈ ts, s.kind ≠ t.kind) : (ss ++ ts).Nodup := by
  rw [List.nodup_append]
  exact ⟨hs, ht, fun s hs t ht hst => h s hs t ht (congrArg Storage.kind hst)⟩

theorem nodup_map_fpuStackArgument {depths : List Int32} (h : depths.Pairwise (· < ·)) :
    (depths.map Storage.fpuStackArgument).Nodup := by
  apply List.Nodup.map (fun _ _ => Storage.fpuStackArgument.inj)
  exact h.imp fun hlt => Int32.ne_of_lt hlt

theorem nodup_resultStorages (a : Architecture) (mask : Nat) {passed : List Register}
    {depths : List Int32} (hpassed : (passed.map Register.storage).Nodup)
    (hdepths : depths.Pairwise (· < ·)) : (resultStorages a mask passed depths).Nodup := by
  have hregister {t : Storage} (ht : t ∈ passed.map Register.storage) : t.kind = .register := by
    obtain ⟨r, -, rfl⟩ := List.mem_map.1 ht
    rfl
  apply nodup_append_of_kind_ne _ (nodup_map_fpuStackArgument hdepths)
  · intro t ht u hu
    obtain ⟨d, -, rfl⟩ := List.mem_map.1 hu
    rcases List.mem_append.1 ht with ht | ht
    · rw [kind_flagsResult ht]
      exact StorageKind.noConfusion
    · rw [hregister ht]
      exact StorageKind.noConfusion
  · apply nodup_append_of_kind_ne (nodup_flagsResult a mask) hpassed
    intro t ht u hu
    rw [kind_flagsResult ht, hregister hu]
    exact StorageKind.noConfusion

/-- Arguments of different kinds do not meet, and stack arguments lie at different offsets, so
no place comes twice even with the widths of stack arguments left out. -/
theorem nodup_unsized_arguments {used : List Register} {stack : List Storage} {r : Int32}
    {found depths : List Int32} (hused : (used.map Register.storage).Nodup)
    (hstack : stack.map Storage.unsized = found.map fun o => .stackArgument (o + r) 0)
    (hfound : found.Pairwise (· < ·)) (hdepths : depths.Pairwise (· < ·)) :
    ((used.map Register.storage ++ stack ++ depths.map Storage.fpuStackArgument).map
      Storage.unsized).Nodup := by
  have hregisters : (used.map Register.storage).map Storage.unsized =
      used.map Register.storage := by
    rw [List.map_map]
    rfl
  have hslots : (depths.map Storage.fpuStackArgument).map Storage.unsized =
      depths.map Storage.fpuStackArgument := by
    rw [List.map_map]
    rfl
  have hoffsets : (found.map fun o => Storage.stackArgument (o + r) 0).Nodup := by
    apply List.Nodup.map _ (hfound.imp fun hlt => Int32.ne_of_lt hlt)
    intro o o' h
    exact (Int32.add_left_inj r).1 (Storage.stackArgument.inj h).1
  rw [List.map_append, List.map_append, hregisters, hslots, hstack]
  apply nodup_append_of_kind_ne _ (nodup_map_fpuStackArgument hdepths)
  · intro t ht u hu
    obtain ⟨d, -, rfl⟩ := List.mem_map.1 hu
    rcases List.mem_append.1 ht with ht | ht
    · obtain ⟨_, -, rfl⟩ := List.mem_map.1 ht
      exact StorageKind.noConfusion
    · obtain ⟨_, -, rfl⟩ := List.mem_map.1 ht
      exact StorageKind.noConfusion
  · apply nodup_append_of_kind_ne hused hoffsets
    intro t ht u hu
    obtain ⟨_, -, rfl⟩ := List.mem_map.1 ht
    obtain ⟨_, -, rfl⟩ := List.mem_map.1 hu
    exact StorageKind.noConfusion

end

/-- The flags are the first result, and nothing else has been added by then. -/
theorem exists_flagsResult_lists (a : Architecture) (f : Frame) (fpuStackDelta fpuOutMax : Int32)
    (mask : Nat) :
    let start := Builder.start a f fpuStackDelta fpuOutMax
    ∃ b xs, (if mask = 0 then start else start.addFlagGroup mask) = b ∧ Lists start b [] xs ∧
      xs.map Identifier.storage = flagsResult a mask ∧
      b.registers = [] ∧ b.stackSlots.keys = [] ∧ b.fpuSlots.keys = [] := by
  intro start
  unfold flagsResult
  split
  · exact ⟨start, [], rfl, lists_start a f fpuStackDelta fpuOutMax, rfl, rfl, rfl, rfl⟩
  · obtain ⟨xs, hlists, hxs⟩ := exists_addFlagGroup_lists a f fpuStackDelta fpuOutMax mask
    refine ⟨_, xs, rfl, hlists, hxs, ?_⟩
    unfold addFlagGroup
    split
    · exact ⟨rfl, rfl, rfl⟩
    · exact ⟨rfl, rfl, rfl⟩

/-- The first four runs list the arguments, after the flags as a first result. -/
theorem exists_arguments_lists (a : Architecture) (p : Platform) (s : Summary) (f : Frame)
    (fpuStackDelta fpuOutMax : Int32) :
    ∃ b ss xs, assemble a p s (.start a f fpuStackDelta fpuOutMax) =
        ((listed a p s.liveOut).foldlM addRegisterResult b >>= fun b =>
          (slots b.frame .fpuStackArgument (-b.fpuStackDelta)).foldlM addFpuResult b) ∧
      Lists (.start a f fpuStackDelta fpuOutMax) b ss xs ∧
      IsArguments (listedRegisters a p s.mayUse) ss ∧
      (((listedRegisters a p s.mayUse).map Register.storage).Nodup →
        (ss.map Storage.unsized).Nodup) ∧
      xs.map Identifier.storage = flagsResult a s.flagsLiveOut := by
  obtain ⟨b₁, xs, hrun₁, hlists₁, hxs, hregisters, hstack, hfpu⟩ :=
    exists_flagsResult_lists a f fpuStackDelta fpuOutMax s.flagsLiveOut
  have hfirst : xs.tail = [] := by
    rw [← List.map_eq_nil_iff (f := Identifier.storage), List.map_tail, hxs, tail_flagsResult]
  have hlists₂ := lists_addRegisters (a := a) (p := p) (s := s.mayUse) rfl hlists₁ hfirst
    hregisters
  obtain ⟨hstack₂, hfpu₂⟩ := slots_addRegisters (listed a p s.mayUse) b₁
  rw [← hstack₂] at hstack
  rw [← hfpu₂] at hfpu
  obtain ⟨b₃, stack, hrun₃, hlists₃, hunsized, hfpu₃⟩ :=
    exists_foldlM_addStackSlot s hlists₂ hfirst hstack
  rw [← hfpu₃] at hfpu
  have hlists₄ := lists_addFpuArguments hlists₃ hfirst hfpu
  refine ⟨_, _, xs, ?_, hlists₄, ⟨stack, _, rfl, fun t ht => ?_, fun t ht => ?_⟩,
    fun hused => ?_, hxs⟩
  · unfold assemble
    dsimp only
    rw [hrun₁, hrun₃]
    rfl
  · have ht' : t.unsized ∈ stack.map Storage.unsized := List.mem_map_of_mem ht
    rw [hunsized] at ht'
    obtain ⟨o, -, heq⟩ := List.mem_map.1 ht'
    rw [← Storage.kind_unsized, ← heq]
    rfl
  · obtain ⟨slot, -, rfl⟩ := List.mem_map.1 ht
    rfl
  · have hslots : (slots b₃.frame .fpuStackArgument 0).map
        (fun slot => Storage.fpuStackArgument slot.1) =
          ((slots b₃.frame .fpuStackArgument 0).map Prod.fst).map .fpuStackArgument := by
      rw [List.map_map]
      rfl
    rw [hslots]
    exact nodup_unsized_arguments hused hunsized (pairwise_slots _ _ _) (pairwise_slots _ _ _)

/-- The last two runs list the results in registers and on the floating point stack. -/
theorem exists_results_lists {s : RegisterSet} {mask : Nat} (ha : start.architecture = a)
    (hindexed : a.Indexed) (h : Lists start b ss xs)
    (hxs : xs.map Identifier.storage = flagsResult a mask) :
    ∃ c depths ys, ((listed a p s).foldlM addRegisterResult b >>= fun b =>
        (slots b.frame .fpuStackArgument (-b.fpuStackDelta)).foldlM addFpuResult b) = .ok c ∧
      Lists start c ss ys ∧
      Depths start.frame (-start.fpuStackDelta) start.fpuOutMax depths ∧
      ys.map Identifier.storage = resultStorages a mask (listedRegisters a p s) depths := by
  have hpassed : ((listedRegisters a p s).map Register.storage).Nodup :=
    (outermost_listedRegisters hindexed).nodup_storages
  have hresults := nodup_resultStorages a mask hpassed List.Pairwise.nil
  rw [resultStorages, List.map_nil, List.append_nil, ← hxs] at hresults
  obtain ⟨c, ys, hrun, hlists, hys⟩ := exists_foldlM_addRegisterResult ha h hresults
  let found := slots c.frame .fpuStackArgument (-c.fpuStackDelta)
  let depths := (found.map Prod.fst).filter (· ≤ start.fpuOutMax)
  have hdepths : Depths start.frame (-start.fpuStackDelta) start.fpuOutMax depths := by
    rw [← hlists.fpuStackDelta]
    exact depths_slots hlists.frame _ _
  have hslots : found.filterMap (fpuResult start.fpuOutMax) = depths.map .fpuStackArgument :=
    filterMap_fpuResult start.fpuOutMax found
  have hall : (xs ++ ys).map Identifier.storage ++ depths.map .fpuStackArgument =
      resultStorages a mask (listedRegisters a p s) depths := by
    rw [resultStorages, List.map_append, hxs, hys]
  have hnodup := nodup_resultStorages a mask hpassed hdepths.ascending
  rw [← hall, ← hslots] at hnodup
  obtain ⟨d, zs, hrun', hlists', hzs⟩ := exists_foldlM_addFpuResult hlists hnodup
  refine ⟨d, depths, xs ++ ys ++ zs, ?_, hlists', hdepths, ?_⟩
  · rw [hrun]
    exact hrun'
  · rw [List.map_append, hzs, ← hall]
    exact congrArg _ hslots

/-- Whether a signature lists arguments in some storages and some results: the first
result is its return value, and each other one has a parameter after the arguments,
which stands for it. The results are identifiers of the frame. -/
structure LaidOut (signature : Signature) (f : Frame) (ss : List Storage)
    (xs : List Identifier) : Prop where
  returnValue : signature.returnValue = xs.head?
  parameters : signature.parameters.map Identifier.storage =
    ss ++ xs.tail.map Identifier.outStorage
  named : ∀ x ∈ xs, ∃ id, f.identifier? id = some x

/-- A signature that is made of a summary lists the registers that the summary says
are used, no argument in the place of another, and the results that it says are looked
at and written. -/
theorem exists_laidOut_apart_of_treat {settings : Settings} {q : Procedure} {s : Summary}
    {t : Procedure × Summary} (ha : a.Indexed) (hq : q.signature.valid = false)
    (ht : treat settings a p q s = .ok t) :
    ∃ ss depths xs, LaidOut t.1.signature t.1.frame ss xs ∧
      IsArguments (listedRegisters a p s.mayUse) ss ∧
      (ss.map Storage.unsized).Nodup ∧
      Depths q.frame (-q.signature.fpuStackDelta) q.signature.fpuOutMax depths ∧
      xs.map Identifier.storage = resultStorages a (s.flagsLiveOut &&& s.flagsTrashed)
        (listedRegisters a p (s.liveOut ∩ s.trashed)) depths := by
  obtain ⟨b, signature, q', s', rfl, rfl, hb, hbuild, -, htreat, -⟩ :=
    exists_treat_of_invalid (a := a) (p := p) (s := s) settings hq
  obtain ⟨b₀, ss, xs₀, hrun, hlists₀, hss, hapart, hxs₀⟩ := exists_arguments_lists a p
    s.narrowLiveOut q.frame q.signature.fpuStackDelta q.signature.fpuOutMax
  obtain ⟨c, depths, xs, hrun', hlists, hdepths, hxs⟩ :=
    exists_results_lists (p := p) (s := s.narrowLiveOut.liveOut) rfl ha hlists₀ hxs₀
  obtain rfl : b = c := Except.ok.inj (hb.symm.trans (hrun.trans hrun'))
  obtain ⟨signature', hbuild', hreturn, hparameters⟩ := hlists.exists_build
  obtain rfl : signature = signature' := Except.ok.inj (hbuild.symm.trans hbuild')
  have hlaid : LaidOut signature b.frame ss xs := by
    refine ⟨hreturn, hparameters, fun x hx => ?_⟩
    obtain ⟨ids, -, hnamed⟩ := hlists.results
    obtain ⟨id, -, hid, -⟩ := exists_left_of_mem hnamed hx
    exact ⟨id, hid⟩
  refine ⟨ss, depths, xs, ?_, hss, hapart (outermost_listedRegisters ha).nodup_storages,
    hdepths, hxs⟩
  obtain rfl := Except.ok.inj (htreat.symm.trans ht)
  -- the uses change neither the signature nor the frame
  cases settings.outArgumentUses with
  | true => exact hlaid
  | false => exact hlaid

theorem exists_laidOut_of_treat {settings : Settings} {q : Procedure} {s : Summary}
    {t : Procedure × Summary} (ha : a.Indexed) (hq : q.signature.valid = false)
    (ht : treat settings a p q s = .ok t) :
    ∃ ss depths xs, LaidOut t.1.signature t.1.frame ss xs ∧
      IsArguments (listedRegisters a p s.mayUse) ss ∧
      Depths q.frame (-q.signature.fpuStackDelta) q.signature.fpuOutMax depths ∧
      xs.map Identifier.storage = resultStorages a (s.flagsLiveOut &&& s.flagsTrashed)
        (listedRegisters a p (s.liveOut ∩ s.trashed)) depths := by
  obtain ⟨ss, depths, xs, hlaid, hss, -, hdepths, hxs⟩ := exists_laidOut_apart_of_treat ha hq ht
  exact ⟨ss, depths, xs, hlaid, hss, hdepths, hxs⟩

end Recovery.Synthesis

namespace Recovery

/-- What a procedure with a signature hands back: its return value, and what its
out-arguments stand for. -/
def Signature.handedBack (s : Signature) : List Identifier :=
  s.returnValue.toList ++ s.parameters.filterMap fun x => x.storage.referent?

theorem Synthesis.IsArguments.kind_mem {used : List Register} {ss : List Storage}
    (h : IsArguments used ss) {s : Storage} (hs : s ∈ ss) :
    s.kind = .register ∨ s.kind = .stackArgument ∨ s.kind = .fpuStackArgument := by
  obtain ⟨stack, slots, rfl, hstack, hslots⟩ := h
  rcases List.mem_append.1 hs with hs | hs
  · rcases List.mem_append.1 hs with hs | hs
    · obtain ⟨r, -, rfl⟩ := List.mem_map.1 hs
      exact Or.inl rfl
    · exact Or.inr (Or.inl (hstack s hs))
  · exact Or.inr (Or.inr (hslots s hs))

theorem Synthesis.IsArguments.kind_ne {used : List Register} {ss : List Storage}
    (h : IsArguments used ss) : ∀ s ∈ ss, s.kind ≠ .outArgument := by
  intro s hs
  rcases h.kind_mem hs with hkind | hkind | hkind <;> simp [hkind]

theorem Synthesis.LaidOut.handedBack {signature : Signature} {f : Frame} {ss : List Storage}
    {xs : List Identifier} (h : LaidOut signature f ss xs)
    (hss : ∀ s ∈ ss, s.kind ≠ .outArgument) : signature.handedBack = xs := by
  have hnone : ss.filterMap Storage.referent? = [] := by
    rw [List.filterMap_eq_nil_iff]
    intro s hs
    cases s with
    | outArgument => exact absurd rfl (hss _ hs)
    | register | stackArgument | stackLocal | fpuStackArgument | flagGroup => rfl
  have hback : (xs.tail.map Identifier.outStorage).filterMap Storage.referent? = xs.tail := by
    rw [List.filterMap_map]
    exact List.filterMap_some
  calc signature.handedBack
      = xs.head?.toList ++ (signature.parameters.map Identifier.storage).filterMap
          Storage.referent? := by
        rw [Signature.handedBack, h.returnValue, List.filterMap_map]
        rfl
    _ = xs.head?.toList ++ xs.tail := by
        rw [h.parameters, List.filterMap_append, hnone, hback, List.nil_append]
    _ = xs := by
        cases xs with
        | nil => rfl
        | cons x xs => rfl

end Recovery
