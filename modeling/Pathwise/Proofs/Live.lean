import Pathwise.Proofs.State

/-!
# Which values are live

Marking goes through a queue of values, which the operands of each newly marked value join, and
passes over what is marked already. That nothing is missed needs a ledger: a marked identity stands
for one value only, so that whatever bears it has its operands marked or in the queue. The live
identities of a state are then exactly those of the parts of its variables and of its stack.
-/

namespace Pathwise

namespace Value

variable {queue : List Value} {m : Marks} {i : Nat}

/-- To prove something of every value, prove it of a value of whose operands it holds. -/
theorem operandInduction {P : Value → Prop} (h : ∀ v, (∀ o ∈ v.operands, P o) → P v) (v : Value) :
    P v := by
  induction v with
  | unknown | null | self | bool | fresh | widened => exact h _ (by simp [operands])
  | equal id left right hl hr => exact h _ (by simpa [operands] using ⟨hl, hr⟩)
  | notEqual id left right hl hr => exact h _ (by simpa [operands] using ⟨hl, hr⟩)
  | not id operand ho => exact h _ (by simpa [operands] using ho)

/-- Marking takes nothing away. -/
theorem has_markAll_of_has (h : m.has i = true) : (markAll queue m).has i = true := by
  fun_induction markAll queue m with
  | case1 m => exact h
  | case2 v queue m _ ih => exact ih h
  | case3 v queue m _ ih => exact ih (by simp [h])

/-- All that is in the queue gets marked. -/
theorem has_markAll_of_mem {v : Value} (h : v ∈ queue) : (markAll queue m).has v.id = true := by
  fun_induction markAll queue m with
  | case1 m => cases h
  | case2 w queue m hmarked ih =>
    rcases List.mem_cons.1 h with rfl | h
    · exact has_markAll_of_has hmarked
    · exact ih h
  | case3 w queue m _ ih =>
    rcases List.mem_cons.1 h with rfl | h
    · exact has_markAll_of_has (by simp)
    · exact ih (List.mem_append_right _ h)

/-- What is marked, other than what was marked before, is a part of something in the queue. -/
theorem part_of_has_markAll (h : (markAll queue m).has i = true) :
    m.has i = true ∨ ∃ v ∈ queue, ∃ u : Value, u.Part v ∧ u.id = i := by
  fun_induction markAll queue m with
  | case1 m => exact .inl h
  | case2 v queue m _ ih =>
    refine (ih h).imp_right ?_
    rintro ⟨w, hw, hpart⟩
    exact ⟨w, List.mem_cons_of_mem _ hw, hpart⟩
  | case3 v queue m _ ih =>
    rcases ih h with h | ⟨w, hw, u, hu, hi⟩
    · rw [Marks.has_add] at h
      rcases Bool.or_eq_true_iff.1 h with h | h
      · exact .inr ⟨v, List.mem_cons_self, v, .refl v, (beq_iff_eq.1 h).symm⟩
      · exact .inl h
    · rcases List.mem_append.1 hw with hw | hw
      · exact .inr ⟨v, List.mem_cons_self, u, .operand (List.mem_reverse.1 hw) hu, hi⟩
      · exact .inr ⟨w, List.mem_cons_of_mem _ hw, u, hu, hi⟩

end Value

/-- The operands of whatever is marked are marked or in the queue. -/
def Marks.ClosedUpTo (m : Marks) (l queue : List Value) : Prop :=
  ∀ v ∈ l, m.has v.id = true → ∀ o ∈ v.operands, m.has o.id = true ∨ o ∈ queue

namespace Ledger

variable {l queue : List Value} {v : Value} {m : Marks}

/-- Marking a value puts its operands in the queue, and it is the only one with its identity; so
when the queue is empty, the operands of whatever is marked are marked. -/
theorem markAll_closed (hl : Ledger l) (hqueue : ∀ v ∈ queue, v ∈ l) (hm : m.ClosedUpTo l queue) :
    (Value.markAll queue m).ClosedUpTo l [] := by
  fun_induction Value.markAll queue m with
  | case1 m => exact hm
  | case2 v queue m hmarked ih =>
    refine ih (fun w hw => hqueue w (List.mem_cons_of_mem _ hw)) fun w hw hmw o ho => ?_
    rcases hm w hw hmw o ho with h | h
    · exact .inl h
    · rcases List.mem_cons.1 h with rfl | h
      · exact .inl hmarked
      · exact .inr h
  | case3 v queue m _ ih =>
    have hv := hqueue v List.mem_cons_self
    refine ih (fun w hw => ?_) fun w hw hmw o ho => ?_
    · rcases List.mem_append.1 hw with hw | hw
      · exact (hl.operand hv (List.mem_reverse.1 hw)).1
      · exact hqueue w (List.mem_cons_of_mem _ hw)
    · by_cases hid : w.id = v.id
      · rw [hl.eq_of_id hw hv hid] at ho
        exact .inr (List.mem_append_left _ (List.mem_reverse.2 ho))
      · rw [Marks.has_add, beq_false_of_ne hid, Bool.false_or] at hmw
        rcases hm w hw hmw o ho with h | h
        · exact .inl (by simp [h])
        · rcases List.mem_cons.1 h with rfl | h
          · exact .inl (by simp)
          · exact .inr (List.mem_append_right _ h)

/-- Once marking is over, the parts of whatever is marked are marked. -/
theorem has_part_of_closed (hl : Ledger l) (hm : m.ClosedUpTo l []) {u : Value} (hu : u.Part v)
    (hv : v ∈ l) (hmark : m.has v.id = true) : m.has u.id = true := by
  induction hu with
  | refl => exact hmark
  | operand ho _ ih =>
    exact ih (hl.operand hv ho).1 ((hm _ hv hmark _ ho).resolve_right List.not_mem_nil)

end Ledger

namespace State

variable {s : State} {l : List Value}

/-- A value is live if it is a part of a root. -/
def Live (s : State) (v : Value) : Prop := ∃ r ∈ s.roots, v.Part r

/-- Live values stand in the ledger that the state is drawn from. -/
theorem Live.mem (hl : Ledger l) (hs : s.DrawnFrom l) {v : Value} (hv : s.Live v) : v ∈ l := by
  obtain ⟨r, hr, hpart⟩ := hv
  exact (hl.part hpart (hs.root_mem hr)).1

/-- What a variable holds is live. -/
theorem live_of_lookup {x : Symbol} {v : Value} (h : s.lookup x = some v) : s.Live v :=
  ⟨v, mem_roots.2 (.inl ⟨x, h⟩), .refl v⟩

/-- What stands on the stack is live. -/
theorem live_of_stack {v : Value} (h : v ∈ s.stack) : s.Live v :=
  ⟨v, mem_roots.2 (.inr h), .refl v⟩

/-- A live identity is the identity of a live value. -/
theorem exists_live_of_has {i : Nat} (h : s.live.has i = true) : ∃ v, s.Live v ∧ v.id = i := by
  obtain ⟨r, hr, u, hu, hi⟩ := (Value.part_of_has_markAll h).resolve_left (by simp)
  exact ⟨u, ⟨r, hr, hu⟩, hi⟩

/-- The identity of a live value is live. -/
theorem has_of_live (hl : Ledger l) (hs : s.DrawnFrom l) {v : Value} (hv : s.Live v) :
    s.live.has v.id = true := by
  have hroots : ∀ r ∈ s.roots, r ∈ l := fun r hr => hs.root_mem hr
  have hempty : Marks.empty.ClosedUpTo l s.roots := by
    intro w _ hmark
    simp at hmark
  obtain ⟨r, hr, hpart⟩ := hv
  exact hl.has_part_of_closed (hl.markAll_closed hroots hempty) hpart (hroots r hr)
    (Value.has_markAll_of_mem hr)

/-- Cleaning finds the facts about live values as they were. -/
theorem facts_clean_of_live (hl : Ledger l) (hs : s.DrawnFrom l) {v : Value} (hv : s.Live v) :
    s.clean.facts.get? v.id = s.facts.get? v.id := by
  rw [facts_clean, if_pos (has_of_live hl hs hv)]

/-- What cleaning leaves is about live values. -/
theorem live_of_clean (hl : Ledger l) (hs : s.clean.DrawnFrom l) {i : Nat} {f : Fact}
    (h : s.clean.facts.get? i = some f) : s.Live f.value := by
  obtain ⟨hmem, hid, -⟩ := hs.fact_mem h
  rw [facts_clean] at h
  split at h
  · next hi =>
    obtain ⟨v, hv, rfl⟩ := exists_live_of_has hi
    -- cleaning leaves the roots as they are
    have hv : s.clean.Live v := hv
    exact hl.eq_of_id hmem (hv.mem hl hs) hid ▸ hv
  · cases h

/-- What cleaning leaves is a fact about a live value. -/
theorem live_of_facts_clean (hl : Ledger l) (hs : s.DrawnFrom l) {i : Nat} {f : Fact}
    (h : s.clean.facts.get? i = some f) : s.facts.get? i = some f ∧ s.Live f.value := by
  refine ⟨?_, live_of_clean hl hs.clean h⟩
  rw [facts_clean] at h
  split at h
  · exact h
  · cases h

end State

end Pathwise
