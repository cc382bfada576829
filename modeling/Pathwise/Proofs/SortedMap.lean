import Pathwise.SortedMap

/-!
# Looking things up in a finite map

A map is known by its look-ups: each operation has one equation that says what is found after it,
and two maps in which the same is found are equal.
-/

namespace Pathwise.SortedMap

variable {κ α β : Type} [Ord κ]

/-- Nothing is found in the empty map. -/
@[simp]
theorem get?_empty (k : κ) : (empty : SortedMap κ α).get? k = none := rfl

/-- Two maps with the same entries are equal, since the order of the entries is a proof. -/
theorem eq_of_entries {m n : SortedMap κ α} (h : m.entries = n.entries) : m = n := by
  cases m
  cases n
  cases h
  rfl

/-- A map contains the keys at which a value is found. -/
theorem contains_iff {m : SortedMap κ α} {k : κ} :
    m.contains k = true ↔ ∃ v, m.get? k = some v := by
  simp [contains, Option.isSome_iff_exists]

/-- What is found after a function has been applied to every value. -/
theorem get?_mapValues (m : SortedMap κ α) (f : α → β) (k : κ) :
    (m.mapValues f).get? k = (m.get? k).map f := by
  have hentries : ∀ l : List (κ × α),
      findEntry k (l.map fun e => (e.1, f e.2)) = (findEntry k l).map f := by
    intro l
    induction l with
    | nil => rfl
    | cons e rest ih =>
      rw [List.map_cons, findEntry, findEntry, ih]
      split <;> rfl
  exact hentries m.entries

/-- Values may be changed before or after entries are taken out by their keys. -/
theorem mapValues_filter (m : SortedMap κ α) (f : α → β) (p : κ → Bool) :
    (m.filter fun k _ => p k).mapValues f = (m.mapValues f).filter fun k _ => p k := by
  apply eq_of_entries
  simp only [mapValues, filter, List.filter_map]
  rfl

section Lawful

variable [Std.LawfulEqOrd κ]

/-- In an increasing list an entry is found exactly if it is there. -/
theorem findEntry_eq_some_iff {l : List (κ × α)}
    (h : l.Pairwise fun a b => compare a.1 b.1 = .lt) {k : κ} {v : α} :
    findEntry k l = some v ↔ (k, v) ∈ l := by
  induction l with
  | nil => simp [findEntry]
  | cons e rest ih =>
    obtain ⟨he, hrest⟩ := List.pairwise_cons.1 h
    by_cases hk : compare k e.1 = .eq
    · have hke : k = e.1 := Std.LawfulEqCmp.eq_of_compare hk
      have hnot : (k, v) ∉ rest := by
        intro hmem
        have hlt := he (k, v) hmem
        simp [hke] at hlt
      have hfound : findEntry k (e :: rest) = some e.2 := by simp [findEntry, hk]
      rw [hfound, List.mem_cons, or_iff_left hnot]
      constructor
      · intro hv
        exact Prod.ext hke (Option.some.inj hv).symm
      · intro hv
        rw [← hv]
    · have hne : (k, v) ≠ e := by
        rintro rfl
        exact hk Std.ReflCmp.compare_self
      rw [List.mem_cons, or_iff_right hne, ← ih hrest]
      simp [findEntry, hk]

/-- What is found for a key stands in the entries. -/
theorem get?_eq_some_iff {m : SortedMap κ α} {k : κ} {v : α} :
    m.get? k = some v ↔ (k, v) ∈ m.entries :=
  findEntry_eq_some_iff m.sorted

/-- After filtering, a value is found if it was found before and satisfies the test. -/
theorem get?_filter (m : SortedMap κ α) (p : κ → α → Bool) (k : κ) :
    (m.filter p).get? k = (m.get? k).filter (p k) := by
  apply Option.ext
  intro v
  rw [get?_eq_some_iff, Option.filter_eq_some_iff, get?_eq_some_iff]
  simp [filter]

/-- The key that is erased is not found any more, and the others as before. -/
theorem get?_erase [DecidableEq κ] (m : SortedMap κ α) (k k' : κ) :
    (m.erase k).get? k' = if k' = k then none else m.get? k' := by
  rw [erase, get?_filter]
  by_cases h : k' = k
  · subst h
    cases m.get? k' <;> simp
  · have hne : (compare k k' != .eq) = true := by simpa using Ne.symm h
    cases m.get? k' <;> simp [h, hne]

/-- The values are what is found at some key. -/
theorem mem_values {m : SortedMap κ α} {v : α} : v ∈ m.values ↔ ∃ k, m.get? k = some v := by
  simp [values, get?_eq_some_iff]

/-- The keys are those at which something is found. -/
theorem mem_keys {m : SortedMap κ α} {k : κ} : k ∈ m.keys ↔ ∃ v, m.get? k = some v := by
  simp [keys, get?_eq_some_iff]

/-- No key occurs twice. -/
theorem keys_nodup (m : SortedMap κ α) : m.keys.Nodup := by
  refine List.pairwise_map.2 (m.sorted.imp fun {a b} hlt hkey => ?_)
  simp [hkey] at hlt

/-- Keys that are numbers are listed in increasing order. -/
theorem keys_increasing (m : SortedMap Nat α) : m.keys.Pairwise (· < ·) :=
  List.pairwise_map.2 (m.sorted.imp Nat.compare_eq_lt.1)

variable [Std.TransOrd κ]

/-- Storing a value changes the look-up of its key only. -/
@[simp]
theorem get?_insert_self (m : SortedMap κ α) (k : κ) (v : α) : (m.insert k v).get? k = some v := by
  rw [get?_insert]
  simp

/-- At the other keys an insertion changes nothing. -/
@[simp]
theorem get?_insert_of_ne (m : SortedMap κ α) {k k' : κ} (v : α) (h : k' ≠ k) :
    (m.insert k v).get? k' = m.get? k' := by
  rw [get?_insert, if_neg]
  simpa using h

/-- What is found after an insertion, at any key. -/
theorem get?_insert_eq [DecidableEq κ] (m : SortedMap κ α) (k k' : κ) (v : α) :
    (m.insert k v).get? k' = if k' = k then some v else m.get? k' := by
  by_cases h : k' = k
  · subst h
    simp
  · simp [h]

/-- An insertion adds its key and no other. -/
theorem contains_insert [DecidableEq κ] (m : SortedMap κ α) (k k' : κ) (v : α) :
    (m.insert k v).contains k' = (decide (k' = k) || m.contains k') := by
  unfold contains
  rw [get?_insert_eq]
  by_cases h : k' = k <;> simp [h]

/-- Two maps in which the same is found are equal. -/
theorem ext_get? {m n : SortedMap κ α} (h : ∀ k, m.get? k = n.get? k) : m = n := by
  apply eq_of_entries
  have hmem : ∀ e, e ∈ m.entries ↔ e ∈ n.entries := by
    intro e
    rw [← get?_eq_some_iff, ← get?_eq_some_iff, h]
  have hnodup : ∀ p : SortedMap κ α, p.entries.Nodup := by
    intro p
    refine p.sorted.imp ?_
    rintro a b hlt rfl
    simp at hlt
  refine List.Perm.eq_of_pairwise ?_ m.sorted n.sorted
    ((List.perm_ext_iff_of_nodup (hnodup m) (hnodup n)).2 hmem)
  intro a b _ _ hab hba
  have hgt := Std.OrientedCmp.gt_iff_lt.2 hba
  rw [hab] at hgt
  exact Ordering.noConfusion hgt

/-- Storing what is stored changes nothing. -/
theorem insert_of_get? [DecidableEq κ] {m : SortedMap κ α} {k : κ} {v : α}
    (h : m.get? k = some v) : m.insert k v = m := by
  refine ext_get? fun k' => ?_
  rw [get?_insert_eq]
  split
  · next hk => rw [hk, h]
  · rfl

/-- What is stored last stays. -/
theorem insert_insert [DecidableEq κ] (m : SortedMap κ α) (k : κ) (v w : α) :
    (m.insert k v).insert k w = m.insert k w := by
  refine ext_get? fun k' => ?_
  simp only [get?_insert_eq]
  split <;> rfl

/-- Insertions at different keys may be made in either order. -/
theorem insert_comm [DecidableEq κ] (m : SortedMap κ α) {k k' : κ} (h : k ≠ k') (v w : α) :
    (m.insert k v).insert k' w = (m.insert k' w).insert k v := by
  refine ext_get? fun key => ?_
  simp only [get?_insert_eq]
  by_cases hk : key = k
  · simp [hk, h]
  · simp [hk]

/-- Values may be changed before or after an insertion. -/
theorem mapValues_insert [DecidableEq κ] (m : SortedMap κ α) (f : α → β) (k : κ) (v : α) :
    (m.insert k v).mapValues f = (m.mapValues f).insert k (f v) := by
  refine ext_get? fun k' => ?_
  simp only [get?_mapValues, get?_insert_eq]
  split <;> rfl

/-- Storing the entries of a list finds a value only if it is in the list or was there before. -/
theorem get?_foldl_insert {l : List (κ × α)} {m : SortedMap κ α} {k : κ} {v : α}
    (h : (l.foldl (fun m e => m.insert e.1 e.2) m).get? k = some v) :
    (k, v) ∈ l ∨ m.get? k = some v := by
  induction l generalizing m with
  | nil => exact .inr h
  | cons e rest ih =>
    rcases ih h with hrest | hm
    · exact .inl (List.mem_cons_of_mem _ hrest)
    · rw [get?_insert] at hm
      split at hm
      · next heq =>
        have hk : k = e.1 := by simpa using heq
        have hv : e.2 = v := by simpa using hm
        left
        rw [hk, ← hv]
        exact List.mem_cons_self
      · exact .inr hm

/-- A key that is inserted on the way, or was there, is found in the end. -/
theorem isSome_get?_foldl_insert {l : List (κ × α)} {m : SortedMap κ α} {k : κ}
    (h : k ∈ l.map (·.1) ∨ (m.get? k).isSome) :
    ((l.foldl (fun m e => m.insert e.1 e.2) m).get? k).isSome := by
  induction l generalizing m with
  | nil => simpa using h
  | cons e rest ih =>
    apply ih
    rw [get?_insert]
    by_cases hk : compare k e.1 = .eq
    · simp [hk]
    · have hne : k ≠ e.1 := by
        rintro rfl
        exact hk Std.ReflCmp.compare_self
      simpa [hk, hne] using h

/-- What is found in the map of a list stands in the list. -/
theorem mem_of_get?_ofList {l : List (κ × α)} {k : κ} {v : α} (h : (ofList l).get? k = some v) :
    (k, v) ∈ l := by
  rcases get?_foldl_insert h with h | h
  · exact h
  · simp at h

/-- Every key of a list is found in the map of the list. -/
theorem get?_ofList_isSome {l : List (κ × α)} {k : κ} (h : k ∈ l.map (·.1)) :
    ((ofList l).get? k).isSome :=
  isSome_get?_foldl_insert (.inl h)

/-- A map is made again from its own entries. -/
theorem ofList_entries (m : SortedMap κ α) : ofList m.entries = m := by
  refine ext_get? fun k => Option.ext fun v => ⟨fun h => ?_, fun h => ?_⟩
  · exact get?_eq_some_iff.2 (mem_of_get?_ofList h)
  · have hkey : k ∈ m.entries.map (·.1) := List.mem_map_of_mem (get?_eq_some_iff.1 h)
    obtain ⟨w, hw⟩ := Option.isSome_iff_exists.1 (get?_ofList_isSome hkey)
    have hsame := get?_eq_some_iff.2 (mem_of_get?_ofList hw)
    rw [h] at hsame
    rwa [hsame]

end Lawful

end Pathwise.SortedMap

namespace Pathwise.SortedSet

variable {κ : Type} [Ord κ] [Std.TransOrd κ] [Std.LawfulEqOrd κ]

/-- A set has one more member than before. -/
theorem mem_toList_add {s : SortedSet κ} {k k' : κ} :
    k' ∈ (s.add k).toList ↔ k' = k ∨ k' ∈ s.toList := by
  simp only [toList, add, SortedMap.mem_keys, SortedMap.get?_insert]
  by_cases h : k' = k
  · simp [h]
  · simp [h]

/-- Two sets with the same members are equal. -/
theorem ext_mem {s t : SortedSet κ} (h : ∀ k, k ∈ s.toList ↔ k ∈ t.toList) : s = t := by
  refine SortedMap.ext_get? fun k => Option.ext fun u => ?_
  have hmem : ∀ r : SortedSet κ, SortedMap.get? r k = some u ↔ k ∈ r.toList := by
    intro r
    rw [toList, SortedMap.mem_keys]
    constructor
    · intro hu
      exact ⟨u, hu⟩
    · rintro ⟨_, hu⟩
      exact hu
  rw [hmem, hmem, h]

/-- The set of a list has the members of the list. -/
@[simp]
theorem mem_toList_ofMembers {l : List κ} {k : κ} : k ∈ (ofMembers l).toList ↔ k ∈ l := by
  have hfold : ∀ (l : List κ) (s : SortedSet κ),
      k ∈ (l.foldl add s).toList ↔ k ∈ l ∨ k ∈ s.toList := by
    intro l
    induction l with
    | nil => simp
    | cons a rest ih =>
      intro s
      rw [List.foldl_cons, ih, mem_toList_add, List.mem_cons, or_left_comm, or_assoc]
  have hempty : k ∉ toList (SortedMap.empty : SortedSet κ) := List.not_mem_nil
  exact (hfold l .empty).trans (or_iff_left hempty)

end Pathwise.SortedSet
