import Recovery.Table
/-
  Tables written one entry after the other.

  When no key occurs twice among the entries written, the writes do not meet:
  each key reads its own entry, whatever the table held before
  (`get?_foldl_put`), and a table that starts empty lists the entries as they
  were written (`entries_ofList`), so that it can be read off them
  (`get?_eq_some_of_mem`). Nor does it matter when they are written: an entry can
  be written again without effect (`put_foldl_put_of_mem`), and all of them in any
  order once the keys are there (`foldl_put_perm`).
-/

namespace Recovery.Table
variable {κ α : Type} [DecidableEq κ]

theorem get?_foldl_put_of_not_mem {key : κ} (entries : List (κ × α))
    (h : key ∉ entries.map Prod.fst) :
    ∀ t : Table κ α, (entries.foldl (fun t e => t.put e.1 e.2) t).get? key = t.get? key := by
  induction entries with
  | nil => exact fun _ => rfl
  | cons e entries ih =>
    intro t
    rw [List.map_cons, List.mem_cons, not_or] at h
    rw [List.foldl_cons, ih h.2, get?_put, if_neg (Ne.symm h.1)]

theorem mem_keys_put {t : Table κ α} {key k : κ} {a : α} :
    k ∈ (t.put key a).keys ↔ k ∈ t.keys ∨ k = key := by
  rw [keys_put]
  split
  · next hkey =>
    refine ⟨Or.inl, ?_⟩
    rintro (hk | rfl)
    · exact hk
    · exact hkey
  · rw [List.mem_append, List.mem_singleton]

theorem mem_keys_foldl_put {key : κ} (entries : List (κ × α)) :
    ∀ t : Table κ α, key ∈ (entries.foldl (fun t e => t.put e.1 e.2) t).keys ↔
      key ∈ t.keys ∨ key ∈ entries.map Prod.fst := by
  induction entries with
  | nil => simp
  | cons e entries ih =>
    intro t
    rw [List.foldl_cons, ih, mem_keys_put, List.map_cons, List.mem_cons, or_assoc]

theorem get?_foldl_put {key : κ} {a : α} (entries : List (κ × α))
    (hd : (entries.map Prod.fst).Nodup) (h : (key, a) ∈ entries) :
    ∀ t : Table κ α, (entries.foldl (fun t e => t.put e.1 e.2) t).get? key = some a := by
  induction entries with
  | nil => cases h
  | cons e entries ih =>
    intro t
    rw [List.map_cons, List.nodup_cons] at hd
    rw [List.foldl_cons]
    -- the entry written first is not written again
    rcases List.mem_cons.1 h with rfl | h
    · rw [get?_foldl_put_of_not_mem entries hd.1, get?_put, if_pos rfl]
    · exact ih hd.2 h _

theorem entries_foldl_put (entries : List (κ × α)) :
    ∀ t : Table κ α, ((t.entries ++ entries).map Prod.fst).Nodup →
      (entries.foldl (fun t e => t.put e.1 e.2) t).entries = t.entries ++ entries := by
  induction entries with
  | nil => exact fun t _ => (List.append_nil _).symm
  | cons e entries ih =>
    intro t hd
    have hnew : e.1 ∉ t.keys := by
      rw [List.map_append, List.nodup_append] at hd
      intro he
      exact hd.2.2 e.1 he e.1 List.mem_cons_self rfl
    have hput : (t.put e.1 e.2).entries = t.entries ++ [e] := by
      rw [put]
      dsimp only
      rw [if_neg hnew]
    have hsplit : t.entries ++ e :: entries = (t.put e.1 e.2).entries ++ entries := by
      rw [hput, List.append_assoc, List.singleton_append]
    rw [hsplit] at hd ⊢
    exact ih _ hd

theorem entries_ofList (entries : List (κ × α)) (hd : (entries.map Prod.fst).Nodup) :
    (ofList entries).entries = entries :=
  entries_foldl_put entries .empty hd

theorem get?_eq_some_of_mem {t : Table κ α} {key : κ} {a : α} (hd : t.keys.Nodup)
    (h : (key, a) ∈ t.entries) : t.get? key = some a := by
  obtain ⟨entries⟩ := t
  show (entries.find? fun e => decide (e.1 = key)).map Prod.snd = some a
  change (entries.map Prod.fst).Nodup at hd
  induction entries with
  | nil => cases h
  | cons e entries ih =>
    rw [List.map_cons, List.nodup_cons] at hd
    rw [List.find?_cons]
    rcases List.mem_cons.1 h with rfl | h
    · rw [decide_eq_true rfl]
      rfl
    · have hne : e.1 ≠ key := by
        intro he
        rw [he] at hd
        exact hd.1 (List.mem_map.2 ⟨_, h, rfl⟩)
      rw [decide_eq_false hne]
      exact ih h hd.2

/-! ## Writing in another order -/

theorem put_put (t : Table κ α) (key : κ) (a b : α) : (t.put key a).put key b = t.put key b := by
  rw [put, if_pos (mem_keys_put.2 (Or.inr rfl))]
  by_cases hkey : key ∈ t.keys
  · simp only [put, if_pos hkey, List.map_map, mk.injEq]
    apply List.map_congr_left
    intro e _
    by_cases he : e.1 = key <;> simp [he]
  · -- the first write came at the end, and no other entry has its key
    have hkeep : t.entries.map (fun e => if e.1 = key then (key, b) else e) = t.entries := by
      refine (List.map_congr_left fun e he => if_neg fun h => ?_).trans (List.map_id _)
      exact hkey (List.mem_map.2 ⟨e, he, h⟩)
    simp only [put, if_neg hkey, List.map_append, hkeep, mk.injEq]
    simp

/-- Writes to different keys commute when one of the keys is there already; two
new keys would come in the other order. -/
theorem put_comm {t : Table κ α} {key key' : κ} (hkey : key ∈ t.keys) (hne : key ≠ key')
    (a b : α) : (t.put key' b).put key a = (t.put key a).put key' b := by
  have hkeys : (t.put key a).keys = t.keys := by rw [keys_put, if_pos hkey]
  rw [put, if_pos (mem_keys_put.2 (Or.inl hkey)), put, put, hkeys, put, if_pos hkey]
  by_cases hkey' : key' ∈ t.keys
  · simp only [if_pos hkey', List.map_map, mk.injEq]
    apply List.map_congr_left
    intro e _
    by_cases he : e.1 = key
    · simp [he, hne]
    · by_cases he' : e.1 = key' <;> simp [he, he', Ne.symm hne]
  · simp [if_neg hkey', Ne.symm hne]

theorem put_foldl_put {key : κ} (entries : List (κ × α)) (h : key ∉ entries.map Prod.fst)
    (a : α) : ∀ t : Table κ α, key ∈ t.keys →
      (entries.foldl (fun t e => t.put e.1 e.2) t).put key a =
        entries.foldl (fun t e => t.put e.1 e.2) (t.put key a) := by
  induction entries with
  | nil => exact fun _ _ => rfl
  | cons e entries ih =>
    intro t hkey
    rw [List.map_cons, List.mem_cons, not_or] at h
    rw [List.foldl_cons, List.foldl_cons, ih h.2 _ (mem_keys_put.2 (Or.inl hkey)),
      put_comm hkey h.1]

/-- Of two writes to the same keys, in the same order, the second stays. -/
theorem foldl_put_foldl_put {entries entries' : List (κ × α)}
    (hkeys : entries.map Prod.fst = entries'.map Prod.fst)
    (hd : (entries.map Prod.fst).Nodup) : ∀ t : Table κ α,
    entries'.foldl (fun t e => t.put e.1 e.2) (entries.foldl (fun t e => t.put e.1 e.2) t) =
      entries'.foldl (fun t e => t.put e.1 e.2) t := by
  induction entries generalizing entries' with
  | nil =>
    intro t
    rw [List.map_nil, eq_comm, List.map_eq_nil_iff] at hkeys
    rw [hkeys]
    rfl
  | cons e entries ih =>
    intro t
    cases entries' with
    | nil => cases hkeys
    | cons e' entries' =>
      rw [List.map_cons, List.map_cons, List.cons.injEq] at hkeys
      rw [List.map_cons, List.nodup_cons] at hd
      simp only [List.foldl_cons]
      -- the second write to the first key is moved to just after the first one
      rw [← hkeys.1, put_foldl_put entries hd.1 _ _ (mem_keys_put.2 (Or.inr rfl)), put_put]
      exact ih hkeys.2 hd.2 _

theorem put_foldl_put_of_mem {key : κ} {a : α} (entries : List (κ × α))
    (hd : (entries.map Prod.fst).Nodup) (h : (key, a) ∈ entries) :
    ∀ t : Table κ α, (entries.foldl (fun t e => t.put e.1 e.2) t).put key a =
      entries.foldl (fun t e => t.put e.1 e.2) t := by
  induction entries with
  | nil => cases h
  | cons e entries ih =>
    intro t
    rw [List.map_cons, List.nodup_cons] at hd
    rw [List.foldl_cons]
    rcases List.mem_cons.1 h with rfl | h
    · rw [put_foldl_put entries hd.1 a _ (mem_keys_put.2 (Or.inr rfl)), put_put]
    · exact ih hd.2 h _

/-- Entries with different keys can be written in any order to a table that has
the keys. -/
theorem foldl_put_perm {entries entries' : List (κ × α)} (hperm : entries.Perm entries') :
    (entries.map Prod.fst).Nodup → ∀ t : Table κ α, (∀ e ∈ entries, e.1 ∈ t.keys) →
      entries.foldl (fun t e => t.put e.1 e.2) t =
        entries'.foldl (fun t e => t.put e.1 e.2) t := by
  induction hperm with
  | nil => exact fun _ _ _ => rfl
  | cons e _ ih =>
    intro hd t hkeys
    rw [List.map_cons, List.nodup_cons] at hd
    exact ih hd.2 _ fun e' he' => mem_keys_put.2 (Or.inl (hkeys e' (List.mem_cons_of_mem _ he')))
  | swap e e' rest =>
    intro hd t hkeys
    rw [List.map_cons, List.map_cons, List.nodup_cons, List.mem_cons, not_or] at hd
    have he : e.1 ∈ t.keys := hkeys e (List.mem_cons_of_mem _ List.mem_cons_self)
    simp only [List.foldl_cons]
    rw [put_comm he (Ne.symm hd.1.1)]
  | trans hleft _ ihleft ihright =>
    intro hd t hkeys
    rw [ihleft hd t hkeys]
    exact ihright ((hleft.map Prod.fst).nodup_iff.1 hd) t fun e he =>
      hkeys e (hleft.mem_iff.2 he)

end Recovery.Table
