import Pathwise.Proofs.Assume

/-!
# Assumptions only add facts

An assumption that is made takes nothing back and overwrites nothing: whatever a state answered is
answered in the same way afterwards. What it adds is about the value itself or about something that
the value was made from, at any depth, in a domain in which nothing held before. A constraint that
is no truth stays in its own domain; a truth is carried on as truth and as nullability.
-/

namespace Pathwise

/-- The domains in which assuming a constraint can add something. -/
def Constraint.Concerns (c : Constraint) (d : Domain) : Prop :=
  if c.domain = .truth then d = .nullability ∨ d = .truth else d = c.domain

namespace State

variable {u v w : Value} {c : Constraint} {d : Domain} {s s' : State}

theorem recorded_of_id (h : u.id = w.id) : s.recorded u = s.recorded w := by
  rw [recorded, recorded, h]

theorem get?_recorded_record (s : State) (u v : Value) (c : Constraint) (d : Domain) :
    ((s.record u c).recorded v).get? d =
      if v.id = u.id ∧ d = c.domain then some c else (s.recorded v).get? d := by
  rw [recorded_record]
  by_cases hid : v.id = u.id
  · simp [hid, ConstraintSet.get?_insert]
  · simp [hid]

/-- What is recorded after an assumption and was not before is about a known part of the value of
which nothing held in the domain. -/
structure Added (v : Value) (c : Constraint) (s : State) (u : Value) (d : Domain) (w : Value) :
    Prop where
  /-- It is about the value or about something that the value was made from. -/
  part : w.Part v
  /-- It is recorded under the identity of this part. -/
  id_eq : w.id = u.id
  /-- The part is not the unknown value. -/
  known : w.isUnknown = false
  /-- Nothing held of it in the domain. -/
  vacant : s.constraint w d = none
  /-- The constraint concerns the domain. -/
  concerns : c.Concerns d

/-- Recording a constraint on a part, in a domain in which nothing holds of it, after other such
additions. -/
theorem Added.of_record {t : State}
    (hadded : ∀ u d, (t.recorded u).get? d ≠ (s.recorded u).get? d → ∃ w, Added v c s u d w)
    {c' : Constraint} (hpart : w.Part v) (hknown : w.isUnknown = false)
    (hnone : t.constraint w c'.domain = none) (hconcerns : c.Concerns c'.domain)
    (hne : ((t.record w c').recorded u).get? d ≠ (s.recorded u).get? d) :
    ∃ w, Added v c s u d w := by
  rw [get?_recorded_record] at hne
  split at hne
  · next hhere =>
    obtain ⟨hid, rfl⟩ := hhere
    obtain ⟨hintrinsic, hrecorded⟩ := Option.or_eq_none_iff.1 hnone
    refine ⟨w, hpart, hid.symm, hknown, ?_, hconcerns⟩
    rw [constraint, hintrinsic, Option.none_or]
    -- the additions before this one fill vacant places and empty none
    cases hheld : (s.recorded w).get? c'.domain with
    | none => rfl
    | some held =>
      obtain ⟨w', hw'⟩ := hadded w c'.domain (by simp [hrecorded, hheld])
      have hvacant := (Option.or_eq_none_iff.1 hw'.vacant).2
      rw [recorded_of_id hw'.id_eq, hheld] at hvacant
      cases hvacant
  · exact hadded u d hne

theorem exists_added (h : assume v c s = some s')
    (hne : (s'.recorded u).get? d ≠ (s.recorded u).get? d) : ∃ w, Added v c s u d w := by
  by_cases htruth : c.domain = .truth
  · refine assume_induction (P := fun t => ∀ u d,
      (t.recorded u).get? d ≠ (s.recorded u).get? d → ∃ w, Added v c s u d w)
      (fun w c' t hpart hknown hnone hc' hadded u d => ?_) h (fun u d hne => absurd rfl hne) u d hne
    refine Added.of_record hadded hpart hknown hnone ?_
    rw [Constraint.Concerns, if_pos htruth]
    rcases hc' with rfl | hc'
    · exact .inr htruth
    · exact hc'
  · rw [assume_eq] at h
    split at h
    · exact absurd (by rw [Option.some.inj h]) hne
    · next hknown =>
      split at h
      · split at h
        · exact absurd (by rw [Option.some.inj h]) hne
        · cases h
      · next hnone =>
        rw [spread_of_not_truth htruth] at h
        obtain rfl := Option.some.inj h
        refine Added.of_record (fun u d hne => absurd rfl hne) (.refl v) (by simpa using hknown)
          hnone ?_ hne
        rw [Constraint.Concerns, if_neg htruth]

/-- An assumption leaves bindings and stack alone and changes no answer about any value. Afterwards
the constraint holds of the value, unless it is the unknown one. Where something else is recorded
than before, it is about the value or something that it was made from, of which nothing held in the
domain, and the constraint concerns the domain. -/
theorem assumptions_only_add (h : assume v c s = some s') :
    s'.bindings = s.bindings ∧ s'.stack = s.stack ∧
      (∀ u d held, s.constraint u d = some held → s'.constraint u d = some held) ∧
      (v.isUnknown = false → s'.holds v c = true) ∧
      ∀ u d, (s'.recorded u).get? d ≠ (s.recorded u).get? d →
        (∃ w : Value, w.Part v ∧ w.same u = true ∧ s.constraint w d = none) ∧ c.Concerns d := by
  obtain ⟨hbindings, hstack⟩ := bindings_stack_assume h
  refine ⟨hbindings, hstack, fun u d held => constraint_of_assume h, fun hknown => ?_,
    fun u d hne => ?_⟩
  · rw [holds, constraint_assumed h hknown, beq_self_eq_true]
  · obtain ⟨w, hw⟩ := exists_added h hne
    exact ⟨⟨w, hw.part, by simp [Value.same, hw.id_eq], hw.vacant⟩, hw.concerns⟩

/-- Whether it is not so that it depends on the second value whether the first one is null. -/
def entwined : Value :=
  .not 9 (.notEqual 8 (.equal 7 (.fresh 5) .null) (.fresh 6))

/-- The first value has been disposed, and the second one is true. The condition then says that the
first value is null, which is added to what is known of it. -/
theorem assumptions_only_add_entwined :
    let s := (empty.record (.fresh 5) (.disposal .disposed)).record (.fresh 6) (.truth .holds)
    ∃ s', assume entwined (.truth .holds) s = some s' ∧
      s'.nullability (.fresh 5) = some .null ∧ s.nullability (.fresh 5) = none ∧
      s'.constraint (.fresh 5) .disposal = some (.disposal .disposed) ∧
      s'.holds entwined (.truth .holds) = true ∧
      (s'.recorded (.fresh 6)).get? .disposal = (s.recorded (.fresh 6)).get? .disposal := by
  intro s
  obtain ⟨s', hs', hnull⟩ : ∃ s', assume entwined (.truth .holds) s = some s' ∧
      s'.nullability (.fresh 5) = some .null := ⟨_, rfl, rfl⟩
  obtain ⟨-, -, hkept, hholds, hadded⟩ := assumptions_only_add hs'
  refine ⟨s', hs', hnull, rfl, hkept _ _ _ rfl, hholds rfl, ?_⟩
  refine Decidable.byContradiction fun hne => ?_
  simpa [Constraint.Concerns, Constraint.domain] using (hadded _ _ hne).2

end State

end Pathwise
