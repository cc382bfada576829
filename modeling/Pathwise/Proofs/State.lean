import Pathwise.Proofs.Ledger
import Pathwise.State.Basic

/-!
# Laws of states

What each operation on a state changes, field by field, and what it leaves alone. A state is drawn
from a ledger if all values in it are; every operation that is given such values keeps that.
-/

namespace Pathwise

namespace ConstraintSet

/-- The empty set has no member. -/
@[simp]
theorem get?_empty (d : Domain) : empty.get? d = none := by
  cases d <;> rfl

/-- A member that is inserted replaces the one of its domain. -/
theorem get?_insert (set : ConstraintSet) (c : Constraint) (d : Domain) :
    (set.insert c).get? d = if d = c.domain then some c else set.get? d := by
  cases c <;> cases d <;> rfl

/-- The member found for a domain belongs to it. -/
theorem domain_of_get? {set : ConstraintSet} {d : Domain} {c : Constraint}
    (h : set.get? d = some c) : c.domain = d := by
  cases d <;> simp only [get?, Option.map_eq_some_iff] at h <;> obtain ⟨_, _, rfl⟩ := h <;> rfl

end ConstraintSet

namespace State

variable {s : State} {v : Value} {c : Constraint}

/-! ## Operations field by field -/

/-- A variable is looked up as it was bound last. -/
theorem lookup_bind (s : State) (x y : Symbol) (v : Value) :
    (s.bind x v).lookup y = if y = x then some v else s.lookup y :=
  SortedMap.get?_insert_eq s.bindings x y v

@[simp]
theorem stack_bind (s : State) (x : Symbol) (v : Value) : (s.bind x v).stack = s.stack := rfl

@[simp]
theorem facts_bind (s : State) (x : Symbol) (v : Value) : (s.bind x v).facts = s.facts := rfl

@[simp]
theorem lookup_push (s : State) (v : Value) (y : Symbol) : (s.push v).lookup y = s.lookup y := rfl

@[simp]
theorem stack_push (s : State) (v : Value) : (s.push v).stack = v :: s.stack := rfl

/-- What is recorded about a value is added to the facts about it. -/
theorem facts_record (s : State) (v : Value) (c : Constraint) (i : Nat) :
    (s.record v c).facts.get? i =
      if i = v.id then some ⟨v, (s.recorded v).insert c⟩ else s.facts.get? i :=
  SortedMap.get?_insert_eq s.facts v.id i _

/-- A recorded constraint is found with all values of the same identity. -/
theorem recorded_record (s : State) (u v : Value) (c : Constraint) :
    (s.record u c).recorded v = if v.id = u.id then (s.recorded v).insert c else s.recorded v := by
  by_cases hid : v.id = u.id
  · have hsame : s.recorded u = s.recorded v := by
      unfold recorded
      rw [hid]
    rw [if_pos hid, ← hsame, recorded, facts_record, if_pos hid]
  · rw [if_neg hid, recorded, facts_record, if_neg hid]
    rfl

/-- The member of a domain that holds of a value belongs to it. -/
theorem domain_of_constraint {d : Domain} (h : s.constraint v d = some c) : c.domain = d := by
  rcases Option.or_eq_some_iff.1 h with h | ⟨-, h⟩
  · exact ConstraintSet.domain_of_get? h
  · exact ConstraintSet.domain_of_get? h

/-- The constraint of the domain of nullability is the nullability. -/
theorem constraint_nullability (s : State) (v : Value) :
    s.constraint v .nullability = (s.nullability v).map .nullability := by
  rw [nullability]
  cases h : s.constraint v .nullability with
  | none => rfl
  | some c =>
    have hdomain := domain_of_constraint h
    cases c with
    | nullability n => rfl
    | truth | disposal | byteArray | saltSize => cases hdomain

/-- The constraint of the domain of truth is the truth. -/
theorem constraint_truth (s : State) (v : Value) :
    s.constraint v .truth = (s.truth v).map .truth := by
  rw [truth]
  cases h : s.constraint v .truth with
  | none => rfl
  | some c =>
    have hdomain := domain_of_constraint h
    cases c with
    | truth t => rfl
    | nullability | disposal | byteArray | saltSize => cases hdomain

/-- A nullability holds of a value exactly if it is the known one. -/
theorem holds_nullability_iff {n : Nullability} :
    s.holds v (.nullability n) = true ↔ s.nullability v = some n := by
  rw [holds, Constraint.domain, constraint_nullability, beq_iff_eq]
  cases s.nullability v <;> simp

/-- A recorded constraint is the constraint of its domain, unless the value brings one along. -/
theorem constraint_record (s : State) (u v : Value) (c : Constraint) (d : Domain) :
    (s.record u c).constraint v d =
      if v.id = u.id ∧ d = c.domain then (v.intrinsic.get? d).or (some c)
      else s.constraint v d := by
  rw [constraint, recorded_record]
  by_cases hid : v.id = u.id
  · by_cases hd : d = c.domain <;> simp [hid, hd, ConstraintSet.get?_insert, constraint]
  · simp [hid, constraint]

/-- To overwrite what is known of a value other than the unknown one is to record it. -/
theorem overwrite_of_known (hv : v.isUnknown = false) : s.overwrite v c = s.record v c := by
  rw [overwrite, hv]
  rfl

/-- Facts are overwritten without any effect on the variables. -/
@[simp]
theorem bindings_overwrite (s : State) (v : Value) (c : Constraint) :
    (s.overwrite v c).bindings = s.bindings := by
  rw [overwrite]
  split <;> rfl

/-- Facts are overwritten without any effect on the stack. -/
@[simp]
theorem stack_overwrite (s : State) (v : Value) (c : Constraint) :
    (s.overwrite v c).stack = s.stack := by
  rw [overwrite]
  split <;> rfl

/-- What is recorded in a domain leaves the other domains alone. -/
theorem constraint_overwrite_of_ne (s : State) (u v : Value) {d : Domain} (hd : d ≠ c.domain) :
    (s.overwrite u c).constraint v d = s.constraint v d := by
  rw [overwrite]
  split
  · rfl
  · rw [constraint_record, if_neg fun h => hd h.2]

@[simp]
theorem lookup_forget (s : State) (v : Value) (y : Symbol) :
    (s.forget v).lookup y = s.lookup y := rfl

/-- All that is recorded about a forgotten value is dropped. -/
theorem facts_forget (s : State) (v : Value) (i : Nat) :
    (s.forget v).facts.get? i = if i = v.id then none else s.facts.get? i :=
  SortedMap.get?_erase s.facts v.id i

@[simp]
theorem lookup_clean (s : State) (y : Symbol) : s.clean.lookup y = s.lookup y := rfl

@[simp]
theorem stack_clean (s : State) : s.clean.stack = s.stack := rfl

/-- Cleaning finds the facts about live identities only. -/
theorem facts_clean (s : State) (i : Nat) :
    s.clean.facts.get? i = if s.live.has i = true then s.facts.get? i else none := by
  rw [clean, SortedMap.get?_filter]
  cases s.facts.get? i with
  | none => simp
  | some f => by_cases h : s.live.has i = true <;> simp [h]

/-- To pop is to take the value on top and to drop it; from an empty stack nothing is dropped. -/
theorem pop_eq (s : State) : s.pop = (s.peek 0, { s with stack := s.stack.drop 1 }) := by
  rw [pop]
  split
  · next h => simp [peek, h]
  · next h =>
    simp only [peek, h, List.drop_nil, List.getD_nil, Prod.mk.injEq, true_and]
    rw [← h]

/-- Taking several values takes them from the top, the deepest one first in the list. -/
theorem popMany_eq (s : State) (n : Nat) :
    s.popMany n = (((List.range n).map s.peek).reverse, { s with stack := s.stack.drop n }) := by
  induction n generalizing s with
  | zero => rfl
  | succ n ih =>
    have hpeek : peek { s with stack := s.stack.drop 1 } = fun k => s.peek (k + 1) := by
      funext k
      simp [peek, List.getD_eq_getElem?_getD]
    rw [popMany, pop_eq]
    simp only [ih, List.drop_drop, List.range_succ_eq_map, List.map_cons, List.map_map,
      Function.comp_def,
      List.reverse_cons, hpeek, Nat.add_comm 1 n]

/-- The roots of a state are the values of its variables and of its stack. -/
theorem mem_roots : v ∈ s.roots ↔ (∃ x, s.lookup x = some v) ∨ v ∈ s.stack := by
  rw [roots, List.mem_append, List.mem_reverse, SortedMap.mem_values, or_comm]
  rfl

/-- Two states with the same bindings, stack and facts are equal. -/
theorem ext_get? {s t : State} (hb : s.bindings = t.bindings) (hk : s.stack = t.stack)
    (hf : ∀ i, s.facts.get? i = t.facts.get? i) : s = t := by
  have hfacts := SortedMap.ext_get? hf
  cases s
  cases t
  simp_all

/-! ## States drawn from a ledger -/

/-- All values in the state stand in the ledger; facts are kept under the identity of their value,
and there is none about the unknown value. -/
structure DrawnFrom (s : State) (l : List Value) : Prop where
  /-- The values of variables. -/
  lookup_mem : ∀ {x v}, s.lookup x = some v → v ∈ l
  /-- The values on the stack. -/
  stack_mem : ∀ {v}, v ∈ s.stack → v ∈ l
  /-- The values with facts. -/
  fact_mem : ∀ {i f}, s.facts.get? i = some f → f.value ∈ l ∧ f.value.id = i ∧ i ≠ Value.unknown.id

variable {l : List Value}

/-- The empty state has no values. -/
theorem empty_drawnFrom : empty.DrawnFrom l where
  lookup_mem := by
    intro x v h
    simp [empty, lookup] at h
  stack_mem := by
    intro v h
    simp [empty] at h
  fact_mem := by
    intro i f h
    simp [empty] at h

namespace DrawnFrom

/-- A state drawn from a ledger is drawn from every longer one. -/
theorem mono (h : s.DrawnFrom l) {l' : List Value} (hl : l <+: l') : s.DrawnFrom l' where
  lookup_mem := fun hx => hl.subset (h.lookup_mem hx)
  stack_mem := fun hv => hl.subset (h.stack_mem hv)
  fact_mem := fun hf => ⟨hl.subset (h.fact_mem hf).1, (h.fact_mem hf).2⟩

/-- The values that are kept alive come from the ledger. -/
theorem root_mem (h : s.DrawnFrom l) (hv : v ∈ s.roots) : v ∈ l := by
  rcases mem_roots.1 hv with ⟨x, hx⟩ | hv
  · exact h.lookup_mem hx
  · exact h.stack_mem hv

/-- So does whatever is seen on the stack: where the stack ends it is the unknown value. -/
theorem peek_mem (h : s.DrawnFrom l) (hl : Ledger l) (n : Nat) : s.peek n ∈ l := by
  rw [peek, List.getD_eq_getElem?_getD]
  cases hn : s.stack[n]? with
  | none => exact hl.unknown_mem
  | some v => exact h.stack_mem (List.mem_of_getElem? hn)

/-- Nothing is recorded about a value that has not been made. -/
theorem facts_eq_none (h : s.DrawnFrom l) (hl : Ledger l) {i : Nat} (hi : l.length ≤ i) :
    s.facts.get? i = none := by
  cases hf : s.facts.get? i with
  | none => rfl
  | some f =>
    obtain ⟨hmem, rfl, -⟩ := h.fact_mem hf
    exact absurd (hl.id_lt hmem) (Nat.not_lt.2 hi)

/-- What is recorded under the identity of a value is about the value. -/
theorem value_eq (h : s.DrawnFrom l) (hl : Ledger l) (hv : v ∈ l) {f : Fact}
    (hf : s.facts.get? v.id = some f) : f.value = v := by
  obtain ⟨hmem, hid, -⟩ := h.fact_mem hf
  exact hl.eq_of_id hmem hv hid

/-- Values that are taken off the stack are not missed. -/
theorem drop (h : s.DrawnFrom l) (n : Nat) : DrawnFrom { s with stack := s.stack.drop n } l where
  lookup_mem := h.lookup_mem
  stack_mem := fun hv => h.stack_mem (List.mem_of_mem_drop hv)
  fact_mem := h.fact_mem

/-- A value of the ledger may be pushed. -/
theorem push (h : s.DrawnFrom l) (hv : v ∈ l) : (s.push v).DrawnFrom l where
  lookup_mem := h.lookup_mem
  stack_mem := by
    intro w hw
    rcases List.mem_cons.1 hw with rfl | hw
    · exact hv
    · exact h.stack_mem hw
  fact_mem := h.fact_mem

/-- A value of the ledger may be bound to a variable. -/
theorem bind (h : s.DrawnFrom l) (x : Symbol) (hv : v ∈ l) : (s.bind x v).DrawnFrom l where
  lookup_mem := by
    intro y w hw
    rw [lookup_bind] at hw
    split at hw
    · rwa [← Option.some.inj hw]
    · exact h.lookup_mem hw
  stack_mem := h.stack_mem
  fact_mem := h.fact_mem

/-- Facts about a value of the ledger may be recorded, unless it is the unknown one. -/
theorem record (h : s.DrawnFrom l) (hv : v ∈ l) (hk : v.isUnknown = false) :
    (s.record v c).DrawnFrom l where
  lookup_mem := h.lookup_mem
  stack_mem := h.stack_mem
  fact_mem := by
    intro i f hf
    rw [facts_record] at hf
    split at hf
    · next hi =>
      obtain rfl := Option.some.inj hf
      have hne : v.id ≠ Value.unknown.id := by simpa [Value.isUnknown] using hk
      exact ⟨hv, hi.symm, hi ▸ hne⟩
    · exact h.fact_mem hf

/-- Facts about a value of the ledger may be overwritten. -/
theorem overwrite (h : s.DrawnFrom l) (hv : v ∈ l) : (s.overwrite v c).DrawnFrom l := by
  rw [State.overwrite]
  split
  · exact h
  · next hk => exact h.record hv (by simpa using hk)

/-- Facts may be forgotten. -/
theorem forget (h : s.DrawnFrom l) : (s.forget v).DrawnFrom l where
  lookup_mem := h.lookup_mem
  stack_mem := h.stack_mem
  fact_mem := by
    intro i f hf
    rw [facts_forget] at hf
    split at hf
    · cases hf
    · exact h.fact_mem hf

/-- Facts may be dropped because nothing keeps their value alive. -/
theorem clean (h : s.DrawnFrom l) : s.clean.DrawnFrom l where
  lookup_mem := h.lookup_mem
  stack_mem := h.stack_mem
  fact_mem := by
    intro i f hf
    rw [facts_clean] at hf
    split at hf
    · exact h.fact_mem hf
    · cases hf

end DrawnFrom

end State

end Pathwise
