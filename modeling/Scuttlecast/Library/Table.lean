import Mathlib.Data.List.AList

/-! Key-value tables with one value a key, as `AList`s of a constant type, and what a lookup
finds after the operations a hash map offers. -/

abbrev Table (K V : Type) := AList fun _ : K => V

namespace Table

variable {K V : Type} [DecidableEq K]

def values (t : Table K V) : List V := t.entries.map Sigma.snd

/-- Change the value at `k`, if there is one. -/
def modify (k : K) (f : V → V) (t : Table K V) : Table K V :=
  match t.lookup k with
  | some v => t.insert k (f v)
  | none => t

def mapValues (f : V → V) (t : Table K V) : Table K V :=
  ⟨t.entries.map fun e => ⟨e.1, f e.2⟩, t.nodupKeys.map₂ (fun _ => f)⟩

def retain (p : K → Bool) (t : Table K V) : Table K V :=
  ⟨t.entries.filter fun e => p e.1, t.nodupKeys.sublist List.filter_sublist⟩

def eraseAll (ks : List K) (t : Table K V) : Table K V := ks.foldl (fun t k => t.erase k) t

theorem lookup_eq_some_iff {t : Table K V} {k : K} {v : V} :
    t.lookup k = some v ↔ ⟨k, v⟩ ∈ t.entries := AList.mem_lookup_iff

theorem mem_iff_lookup {t : Table K V} {k : K} : k ∈ t ↔ ∃ v, t.lookup k = some v := by
  rw [← AList.lookup_isSome, Option.isSome_iff_exists]

theorem mem_values {t : Table K V} {v : V} : v ∈ t.values ↔ ∃ k, t.lookup k = some v := by
  simp only [values, List.mem_map, lookup_eq_some_iff]
  constructor
  · rintro ⟨⟨k, w⟩, hm, rfl⟩
    exact ⟨k, hm⟩
  · rintro ⟨k, hm⟩
    exact ⟨⟨k, v⟩, hm, rfl⟩

theorem lookup_insert' {t : Table K V} (k k' : K) (v : V) :
    (t.insert k v).lookup k' = if k' = k then some v else t.lookup k' := by
  split_ifs with h
  · rw [h, AList.lookup_insert]
  · exact AList.lookup_insert_ne h

theorem lookup_erase' {t : Table K V} (k k' : K) :
    (t.erase k).lookup k' = if k' = k then none else t.lookup k' := by
  split_ifs with h
  · rw [h, AList.lookup_erase]
  · exact AList.lookup_erase_ne h

@[simp] theorem lookup_modify {t : Table K V} (k k' : K) (f : V → V) :
    (t.modify k f).lookup k' = if k' = k then (t.lookup k').map f else t.lookup k' := by
  unfold modify
  split
  next v h =>
    rw [lookup_insert']
    split_ifs with he
    · rw [he, h]; rfl
    · rfl
  next h =>
    split_ifs with he
    · rw [he, h]; rfl
    · rfl

theorem ne_of_lookup {t : Table K V} {k k' : K} {v : V} (hnone : t.lookup k = none)
    (h : t.lookup k' = some v) : k ≠ k' := by
  rintro rfl
  rw [hnone] at h
  cases h

/-- A value in the changed table is one of the table before, changed if it is the one at `k`. -/
theorem lookup_modify_eq_some {t : Table K V} {k k' : K} {f : V → V} {v : V} :
    (t.modify k f).lookup k' = some v ↔
      ∃ u, t.lookup k' = some u ∧ v = if k = k' then f u else u := by
  rw [lookup_modify]
  by_cases hk : k = k'
  · simp only [if_pos hk, if_pos hk.symm, Option.map_eq_some_iff]
    exact exists_congr fun u => and_congr_right' eq_comm
  · simp [hk, Ne.symm hk]

/-- Putting a new value for the one at `k` is to change it. -/
theorem lookup_insert_eq_some {t : Table K V} {k k' : K} {f : V → V} {u v : V}
    (h : t.lookup k = some u) : (t.insert k (f u)).lookup k' = some v ↔
      ∃ u', t.lookup k' = some u' ∧ v = if k = k' then f u' else u' := by
  rw [← lookup_modify_eq_some]
  unfold modify
  rw [h]

@[simp] theorem lookup_mapValues {t : Table K V} (f : V → V) (k : K) :
    (t.mapValues f).lookup k = (t.lookup k).map f :=
  @List.dlookup_map₂ K _ (fun _ => V) (fun _ => V) t.entries (fun _ => f) k

theorem lookup_eraseAll {t : Table K V} (ks : List K) (k : K) :
    (t.eraseAll ks).lookup k = if k ∈ ks then none else t.lookup k := by
  unfold eraseAll
  induction ks generalizing t with
  | nil => simp
  | cons k' ks ih =>
    rw [List.foldl_cons, ih, lookup_erase']
    by_cases h : k ∈ ks
    · simp [h]
    · by_cases he : k = k' <;> simp [h, he]

theorem lookup_retain {t : Table K V} (p : K → Bool) (k : K) :
    (t.retain p).lookup k = if p k then t.lookup k else none := by
  apply Option.ext
  intro v
  have hmem : ⟨k, v⟩ ∈ (t.retain p).entries ↔ ⟨k, v⟩ ∈ t.entries ∧ p k = true := List.mem_filter
  rw [lookup_eq_some_iff, hmem]
  split_ifs with hp
  · simp [hp, lookup_eq_some_iff]
  · simp [hp]

theorem length_erase {t : Table K V} {k : K} {v : V} (h : t.lookup k = some v) :
    (t.erase k).entries.length + 1 = t.entries.length := by
  have hmem : k ∈ t.keys := mem_iff_lookup.mpr ⟨v, h⟩
  have hlen (t : Table K V) : t.entries.length = t.keys.length := (List.length_map _).symm
  have hpos := List.length_pos_of_mem hmem
  rw [hlen, hlen, AList.keys_erase, List.length_erase_of_mem hmem]
  omega

/-- A table whose keys lie among `m` numbers in a row has no more entries than that. -/
theorem length_entries_le {t : Table ℕ V} {n m : ℕ}
    (h : ∀ k v, t.lookup k = some v → n ≤ k ∧ k < n + m) : t.entries.length ≤ m := by
  have hsub : t.keys ⊆ List.range' n m := by
    intro k hk
    obtain ⟨v, hv⟩ := mem_iff_lookup.mp (AList.mem_keys.mp hk)
    exact List.mem_range'_1.mpr (h k v hv)
  have hlen := (List.subperm_of_subset t.keys_nodup hsub).length_le
  rwa [AList.keys, List.keys, List.length_map, List.length_range'] at hlen

/-- The values have a bound, each by its own measure. -/
theorem exists_bound (t : Table K V) (f : V → ℕ) :
    ∃ n, ∀ k v, t.lookup k = some v → f v ≤ n := by
  obtain ⟨n, hn⟩ : ∃ n, ∀ v ∈ t.values, f v ≤ n := by
    induction t.values with
    | nil => exact ⟨0, by simp⟩
    | cons v vs ih =>
      obtain ⟨n, hn⟩ := ih
      refine ⟨max (f v) n, fun u hu => ?_⟩
      rcases List.mem_cons.mp hu with rfl | hu
      · exact Nat.le_max_left ..
      · exact Nat.le_trans (hn u hu) (Nat.le_max_right ..)
  exact ⟨n, fun k v hv => hn v (mem_values.mpr ⟨k, hv⟩)⟩

theorem values_eq_nil_iff {t : Table K V} : t.values = [] ↔ ∀ k, t.lookup k = none := by
  rw [List.eq_nil_iff_forall_not_mem]
  simp only [mem_values, not_exists]
  constructor
  · intro h k
    exact Option.eq_none_iff_forall_ne_some.mpr fun v => h v k
  · intro h v k
    simp [h k]

end Table
