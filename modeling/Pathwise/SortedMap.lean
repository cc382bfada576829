/-!
# Finite maps in key order

A map is the list of its entries in strictly increasing key order, and the order is part of the
type. A map therefore has one representation: two maps with the same look-ups are equal, which
is what lets program states be compared as plain data, and listing a map lists it by key.
-/

namespace Pathwise

variable {κ α β : Type} [Ord κ]

/-- A finite map from `κ` to `α` as its entries in strictly increasing key order. -/
structure SortedMap (κ α : Type) [Ord κ] where
  /-- The entries, smallest key first. -/
  entries : List (κ × α)
  /-- Keys increase strictly from entry to entry. -/
  sorted : entries.Pairwise fun a b => compare a.1 b.1 = .lt

namespace SortedMap

/-- Puts an entry at its place in a sorted list, in place of an entry with the same key. -/
def insertEntry (k : κ) (v : α) : List (κ × α) → List (κ × α)
  | [] => [(k, v)]
  | e :: rest =>
    match compare k e.1 with
    | .lt => (k, v) :: e :: rest
    | .eq => (k, v) :: rest
    | .gt => e :: insertEntry k v rest

theorem mem_insertEntry {k : κ} {v : α} {e : κ × α} {l : List (κ × α)}
    (h : e ∈ insertEntry k v l) : e = (k, v) ∨ e ∈ l := by
  induction l with
  | nil => simpa [insertEntry] using h
  | cons x rest ih =>
    rw [insertEntry] at h
    split at h
    · simpa using h
    · rcases List.mem_cons.1 h with h | h
      · exact .inl h
      · exact .inr (List.mem_cons_of_mem _ h)
    · rcases List.mem_cons.1 h with h | h
      · exact .inr (h ▸ List.mem_cons_self)
      · exact (ih h).imp_right (List.mem_cons_of_mem _)

theorem insertEntry_sorted [Std.TransOrd κ] (k : κ) (v : α) {l : List (κ × α)}
    (h : l.Pairwise fun a b => compare a.1 b.1 = .lt) :
    (insertEntry k v l).Pairwise fun a b => compare a.1 b.1 = .lt := by
  induction l with
  | nil => simp [insertEntry]
  | cons x rest ih =>
    obtain ⟨hx, hrest⟩ := List.pairwise_cons.1 h
    rw [insertEntry]
    split
    · next hlt =>
      refine List.pairwise_cons.2 ⟨fun e he => ?_, h⟩
      rcases List.mem_cons.1 he with rfl | he
      · exact hlt
      · exact Std.TransCmp.lt_trans hlt (hx e he)
    · next heq =>
      exact List.pairwise_cons.2 ⟨fun e he => Std.TransCmp.lt_of_eq_of_lt heq (hx e he), hrest⟩
    · next hgt =>
      refine List.pairwise_cons.2 ⟨fun e he => ?_, ih hrest⟩
      rcases mem_insertEntry he with rfl | he
      · exact Std.OrientedCmp.gt_iff_lt.1 hgt
      · exact hx e he

/-- The map without entries. -/
def empty : SortedMap κ α := ⟨[], .nil⟩

instance : Inhabited (SortedMap κ α) := ⟨empty⟩

instance [DecidableEq κ] [DecidableEq α] : DecidableEq (SortedMap κ α) := fun m n =>
  decidable_of_iff (m.entries = n.entries)
    ⟨fun h => by cases m; cases n; cases h; rfl, fun h => h ▸ rfl⟩

/-- The value at the first entry with the given key in a list of entries. -/
def findEntry (k : κ) : List (κ × α) → Option α
  | [] => none
  | e :: rest => if compare k e.1 == .eq then some e.2 else findEntry k rest

/-- The value stored for a key. -/
def get? (m : SortedMap κ α) (k : κ) : Option α :=
  findEntry k m.entries

/-- Whether the key has a value. -/
def contains (m : SortedMap κ α) (k : κ) : Bool :=
  (m.get? k).isSome

/-- The keys in increasing order. -/
def keys (m : SortedMap κ α) : List κ := m.entries.map (·.1)

/-- The values in the order of their keys. -/
def values (m : SortedMap κ α) : List α := m.entries.map (·.2)

/-- The number of entries. -/
def size (m : SortedMap κ α) : Nat := m.entries.length

/-- Whether there is no entry. -/
def isEmpty (m : SortedMap κ α) : Bool := m.entries.isEmpty

/-- Stores a value for a key, in place of an earlier one. -/
def insert [Std.TransOrd κ] (m : SortedMap κ α) (k : κ) (v : α) : SortedMap κ α :=
  ⟨insertEntry k v m.entries, insertEntry_sorted k v m.sorted⟩

theorem findEntry_insertEntry [Std.TransOrd κ] (k k' : κ) (v : α) (l : List (κ × α)) :
    findEntry k' (insertEntry k v l) =
      if compare k' k == .eq then some v else findEntry k' l := by
  induction l with
  | nil => simp [insertEntry, findEntry]
  | cons e rest ih =>
    rw [insertEntry]
    split
    · simp [findEntry]
    · next heq =>
      have hcongr : compare k' k = compare k' e.1 := Std.TransCmp.congr_right heq
      by_cases hk : compare k' e.1 = .eq <;> simp [findEntry, hcongr, hk]
    · next hgt =>
      rw [findEntry, ih, findEntry]
      by_cases hk : compare k' e.1 = .eq
      · have hcongr : compare k' k = compare e.1 k := Std.TransCmp.congr_left hk
        have hlt : compare e.1 k = .lt := Std.OrientedCmp.gt_iff_lt.1 hgt
        simp [hk, hcongr, hlt]
      · simp [hk]

/-- Storing a value changes the look-up of its key only. -/
theorem get?_insert [Std.TransOrd κ] (m : SortedMap κ α) (k k' : κ) (v : α) :
    (m.insert k v).get? k' = if compare k' k == .eq then some v else m.get? k' :=
  findEntry_insertEntry k k' v m.entries

/-- Keeps the entries that satisfy a test. -/
def filter (m : SortedMap κ α) (p : κ → α → Bool) : SortedMap κ α :=
  ⟨m.entries.filter fun e => p e.1 e.2, m.sorted.sublist List.filter_sublist⟩

/-- Removes the entry of a key. -/
def erase (m : SortedMap κ α) (k : κ) : SortedMap κ α :=
  m.filter fun k' _ => compare k k' != .eq

/-- Applies a function to every value. -/
def mapValues (m : SortedMap κ α) (f : α → β) : SortedMap κ β :=
  ⟨m.entries.map fun e => (e.1, f e.2), List.pairwise_map.2 m.sorted⟩

/-- Stores the entries of a list one after the other, so that the last value of a key stays. -/
def ofList [Std.TransOrd κ] (l : List (κ × α)) : SortedMap κ α :=
  l.foldl (fun m e => m.insert e.1 e.2) empty

end SortedMap

/-- A finite set in increasing order. -/
abbrev SortedSet (κ : Type) [Ord κ] := SortedMap κ Unit

namespace SortedSet

/-- The members in increasing order. -/
def toList (s : SortedSet κ) : List κ := SortedMap.keys s

/-- Adds a member. -/
def add [Std.TransOrd κ] (s : SortedSet κ) (k : κ) : SortedSet κ := SortedMap.insert s k ()

/-- The set of the members of a list. -/
def ofMembers [Std.TransOrd κ] (l : List κ) : SortedSet κ :=
  l.foldl add SortedMap.empty

end SortedSet

end Pathwise
