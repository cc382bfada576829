/-!
# Sets of identities

A set of identities is one flag per identity. Identities are handed out one after the other, so the
flags are dense, and a test takes the same time however many identities are in the set.
-/

namespace Pathwise

/-- A set of identities. -/
structure Marks where
  /-- The flag of each identity; an identity behind the last flag is not in the set. -/
  flags : Array Bool

namespace Marks

/-- The set without identities. -/
def empty : Marks := ⟨#[]⟩

/-- Whether an identity is in the set. -/
def has (m : Marks) (id : Nat) : Bool := m.flags.getD id false

/-- Puts an identity in. -/
def add (m : Marks) (id : Nat) : Marks :=
  if id < m.flags.size then
    ⟨m.flags.setIfInBounds id true⟩
  else
    ⟨(m.flags ++ Array.replicate (id - m.flags.size) false).push true⟩

@[simp]
theorem has_empty (id : Nat) : empty.has id = false := by
  simp [empty, has]

/-- Putting an identity in changes the answer for that identity only. -/
@[simp]
theorem has_add (m : Marks) (id i : Nat) : (m.add id).has i = (i == id || m.has i) := by
  simp only [has, Array.getD_eq_getD_getElem?]
  rw [add]
  split
  · next h =>
    by_cases hi : i = id
    · subst hi
      simp [h]
    · simp [hi, Ne.symm hi]
  · next h =>
    have hsize : (m.flags ++ Array.replicate (id - m.flags.size) false).size = id := by
      simp
      omega
    rw [Array.getElem?_push, hsize]
    by_cases hi : i = id
    · simp [hi]
    · rw [if_neg hi, Array.getElem?_append]
      by_cases hlt : i < m.flags.size
      · simp [hlt, hi]
      · rw [if_neg hlt, Array.getElem?_eq_none (Nat.le_of_not_lt hlt), Array.getElem?_replicate]
        split <;> simp [hi]

end Marks

end Pathwise
