import Pathwise.Proofs.Branching

/-!
# Tests for null, and conditions on the unknown value

A value is tested for null by a comparison with null, in either order, and by negations of such
tests. Whatever the outcome of a test, it says whether the value is null; from then on every other
test of the value has one possible outcome, the one that agrees. The tests of null itself are truth
values from the start and answer in the same way.

Nothing is known of the unknown value, so a comparison with it is open, whatever is known of the
other value. There is one exception: it counts as equal to itself.
-/

namespace Pathwise

/-! ## Nullability by the outcome of a test -/

namespace Nullability

/-- The nullability of a value that is equal to null, or of one that is not. -/
def ofEqual : Bool → Nullability
  | true => .null
  | false => .notNull

/-- The nullability that an outcome of a test says, if success says this one. -/
def given (n : Nullability) : Truth → Nullability
  | .holds => n
  | .fails => n.opposite

/-- The opposite of the opposite is where one started. -/
theorem opposite_opposite (n : Nullability) : n.opposite.opposite = n := by cases n <;> rfl

/-- Nothing is its own opposite. -/
theorem opposite_ne (n : Nullability) : n.opposite ≠ n := by cases n <;> simp [opposite]

/-- There are only two nullabilities, so what is not the one is the other. -/
theorem eq_opposite_of_ne {m n : Nullability} (h : m ≠ n) : m = n.opposite := by
  cases m <;> cases n
  · exact absurd rfl h
  · rfl
  · rfl
  · exact absurd rfl h

/-- Different outcomes of a test say opposite things. -/
theorem given_of_ne {a t : Truth} (h : a ≠ t) (n : Nullability) :
    n.given a = (n.given t).opposite := by
  cases a <;> cases t
  · exact absurd rfl h
  · exact n.opposite_opposite.symm
  · rfl
  · exact absurd rfl h

/-- The test for the opposite says what the other outcome says. -/
theorem given_opposite (n : Nullability) (t : Truth) : n.opposite.given t = n.given t.opposite := by
  cases t
  · rfl
  · exact n.opposite_opposite

/-- That an equality with null holds says that the value is null. -/
theorem ofEqual_holds (t : Truth) : ofEqual (t == .holds) = Nullability.null.given t := by
  cases t <;> rfl

/-- That an inequality with null fails says so, too. -/
theorem ofEqual_fails (t : Truth) : ofEqual (t == .fails) = Nullability.notNull.given t := by
  cases t <;> rfl

end Nullability

/-! ## Comparing with null -/

namespace State

variable {x : Value} {n m : Nullability} {equal : Bool} {s s' : State}

/-- An assumption about nullability is refused exactly if the opposite is known. -/
theorem assume_nullability_eq_none_iff (hx : x.isUnknown = false) :
    assume x (.nullability n) s = none ↔ s.nullability x = some n.opposite := by
  rw [assume_nullability, if_neg (by simp [hx])]
  cases hheld : s.nullability x with
  | none => simp
  | some held =>
    by_cases heq : held = n
    · simp [heq, (Nullability.opposite_ne n).symm]
    · simp [Nullability.eq_opposite_of_ne heq, Nullability.opposite_ne]

/-- An assumed nullability is known from then on. -/
theorem nullability_assumed (hx : x.isUnknown = false)
    (h : assume x (.nullability n) s = some s') : s'.nullability x = some n := by
  have hheld := constraint_assumed h hx
  simp only [Constraint.domain, constraint_nullability] at hheld
  simpa using hheld

/-- Null is refused as equal to what is not null, and as different from what is null. -/
theorem carry_to_null (hx : s.truth x = none) :
    carry equal x (assume .null) s =
      if s.nullability x = some (Nullability.ofEqual equal).opposite then none else some s := by
  have hnull : ∀ n, assume .null (.nullability n) s = if n = .null then some s else none := by
    intro n
    rw [assume_nullability, nullability_eq]
    cases n <;> rfl
  rw [carry_eq]
  unfold carryNullability
  cases s.nullability x with
  | none => simp [carryTruth_of_none hx]
  | some held =>
    cases held <;> cases equal <;>
      simp [hnull, Nullability.ofEqual, Nullability.opposite, carryTruth_of_none hx]

/-- What is carried on from null to a value is the nullability alone. -/
theorem carry_from_null (hnull : s.truth .null = none) :
    carry equal .null (assume x) s = assume x (.nullability (.ofEqual equal)) s := by
  have hcarry : carryNullability equal .null (assume x) s =
      assume x (.nullability (.ofEqual equal)) s := by
    unfold carryNullability
    rw [nullability_eq]
    cases equal <;> rfl
  rw [carry_eq, hcarry]
  cases hassume : assume x (.nullability (.ofEqual equal)) s with
  | none => rfl
  | some t =>
    exact carryTruth_of_none (by rw [truth_assume_nullability hassume, hnull])

/-- Nothing holds of whether the value is true, nor of whether null is. -/
structure Untested (s : State) (x : Value) : Prop where
  /-- The value neither holds nor fails. -/
  value : s.truth x = none
  /-- Null neither holds nor fails. -/
  null : s.truth .null = none

/-- To compare a value with null is to assume its nullability. -/
theorem equate_null (hs : s.Untested x) (hx : x.isUnknown = false) :
    equate equal x .null s = assume x (.nullability (.ofEqual equal)) s := by
  rw [equate, carry_to_null hs.value]
  split
  · next hheld => exact ((assume_nullability_eq_none_iff hx).2 hheld).symm
  · exact carry_from_null hs.null

/-- It does not matter on which side null stands. -/
theorem equate_null_left (hs : s.Untested x) (hx : x.isUnknown = false) :
    equate equal .null x s = assume x (.nullability (.ofEqual equal)) s := by
  rw [equate, carry_from_null hs.null]
  cases hassume : assume x (.nullability (.ofEqual equal)) s with
  | none => rfl
  | some t =>
    have ht : t.truth x = none := by rw [truth_assume_nullability hassume, hs.value]
    rw [Option.bind_some, carry_to_null ht, if_neg]
    rw [nullability_assumed hx hassume]
    simpa using (Nullability.opposite_ne _).symm

end State

/-! ## Tests -/

/-- Of two values that are the same either may come first. -/
theorem Value.same_comm (u v : Value) : u.same v = v.same u := BEq.comm

/-- The conditions that tell whether a value is null, made from values of identities from some point
on: comparisons with null, and negations of them. Each comes with the nullability of the value if it
holds. -/
inductive NullTest (first : Nat) (x : Value) : Nullability → Value → Prop where
  /-- The value is equal to null. -/
  | equal (σ : Supply) (hσ : first ≤ σ.next) : NullTest first x .null (σ.equal x .null).1
  /-- Null is equal to the value. -/
  | nullEqual (σ : Supply) (hσ : first ≤ σ.next) : NullTest first x .null (σ.equal .null x).1
  /-- The value differs from null. -/
  | notEqual (σ : Supply) (hσ : first ≤ σ.next) : NullTest first x .notNull (σ.notEqual x .null).1
  /-- Null differs from the value. -/
  | nullNotEqual (σ : Supply) (hσ : first ≤ σ.next) :
      NullTest first x .notNull (σ.notEqual .null x).1
  /-- Another test fails. -/
  | not (σ : Supply) (hσ : first ≤ σ.next) {n : Nullability} {c : Value}
      (hc : NullTest first x n c) : NullTest first x n.opposite (σ.not c).1

/-- The nullability that a condition speaks of, if it is a test for null. -/
def Value.sense : Value → Option Nullability
  | .equal _ _ _ => some .null
  | .notEqual _ _ _ => some .notNull
  | .not _ operand => operand.sense.map Nullability.opposite
  | _ => none

namespace Supply

variable {σ : Supply} {left right c : Value}

/-- The equality of values that are not the same is a new condition. -/
theorem equal_of_ne (h : left.same right = false) :
    (σ.equal left right).1 = .equal σ.next left right := by
  rw [equal, h]
  rfl

/-- So is their inequality. -/
theorem notEqual_of_ne (h : left.same right = false) :
    (σ.notEqual left right).1 = .notEqual σ.next left right := by
  rw [notEqual, h]
  rfl

/-- The negation of a test for null is a new condition. -/
theorem not_of_sense {n : Nullability} (h : c.sense = some n) : (σ.not c).1 = .not σ.next c := by
  cases c with
  | bool b => cases h
  | unknown | null | self | fresh | widened | equal | notEqual | not => rfl

end Supply

namespace NullTest

variable {first : Nat} {x c : Value} {n : Nullability}

/-- The tests of null are truth values. -/
theorem eq_bool (h : NullTest first .null n c) : c = .bool (n == .null) := by
  induction h with
  | equal | nullEqual | notEqual | nullNotEqual => rfl
  | @not σ hσ n c hc ih =>
    rw [ih]
    cases n <;> rfl

/-- What a test says about the value can be read off the condition. -/
theorem sense (hx : x.same .null = false) (h : NullTest first x n c) : c.sense = some n := by
  have hx' : Value.null.same x = false := Value.same_comm .null x ▸ hx
  induction h with
  | equal => rw [Supply.equal_of_ne hx, Value.sense]
  | nullEqual => rw [Supply.equal_of_ne hx', Value.sense]
  | notEqual => rw [Supply.notEqual_of_ne hx, Value.sense]
  | nullNotEqual => rw [Supply.notEqual_of_ne hx', Value.sense]
  | not σ hσ hc ih => rw [Supply.not_of_sense ih, Value.sense, ih, Option.map_some]

/-- A test of a value other than null is a new condition. -/
theorem first_le_id (hx : x.same .null = false) (h : NullTest first x n c) : first ≤ c.id := by
  have hx' : Value.null.same x = false := Value.same_comm .null x ▸ hx
  cases h with
  | equal σ hσ => rwa [Supply.equal_of_ne hx]
  | nullEqual σ hσ => rwa [Supply.equal_of_ne hx']
  | notEqual σ hσ => rwa [Supply.notEqual_of_ne hx]
  | nullNotEqual σ hσ => rwa [Supply.notEqual_of_ne hx']
  | not σ hσ hc => rwa [Supply.not_of_sense (hc.sense hx)]

end NullTest

/-! ## What a test tells -/

namespace State

variable {l : List Value} {first bound : Nat} {x c u v : Value} {n m : Nullability} {t : Truth}
  {s s' : State} {o : Option State}

/-- The outcomes that hold of tests below an identity agree with what holds of the value. -/
def Consistent (l : List Value) (first : Nat) (x : Value) (bound : Nat) (s : State) : Prop :=
  ∀ {n c a}, NullTest first x n c → c ∈ l → c.id < bound → s.truth c = some a →
    s.nullability x = some (n.given a)

/-- A state that has been told the nullability of a value by a test. -/
structure Told (l : List Value) (first : Nat) (x : Value) (m : Nullability) (s s' : State) :
    Prop where
  /-- The value has the nullability. -/
  nullability : s'.nullability x = some m
  /-- Still nothing holds of whether the value or null is true. -/
  untested : s'.Untested x
  /-- The tests that were open before and are not now have the outcome that agrees. -/
  agrees : ∀ {n c a}, NullTest first x n c → c ∈ l → s'.truth c = some a →
    s.truth c = some a ∨ n.given a = m

/-- What comes of an assumption that tells the nullability of a value: it is refused if the value
has the other one, and told otherwise. -/
def Outcome (l : List Value) (first : Nat) (x : Value) (m : Nullability) (s : State)
    (o : Option State) : Prop :=
  o = none ∧ s.nullability x = some m.opposite ∨ ∃ s', o = some s' ∧ Told l first x m s s'

/-- If nothing changes, no test gets another outcome. -/
theorem outcome_unchanged (hs : s.Untested x) (hx : s.nullability x = some m) :
    Outcome l first x m s (some s) :=
  .inr ⟨s, rfl, hx, hs, fun _ _ ha => .inl ha⟩

/-- An assumption about the nullability of the value is such an outcome. -/
theorem outcome_nullability (hs : s.Untested x) (hknown : x.isUnknown = false) :
    Outcome l first x m s (assume x (.nullability m) s) := by
  cases hassume : assume x (.nullability m) s with
  | none => exact .inl ⟨rfl, (assume_nullability_eq_none_iff hknown).1 hassume⟩
  | some s' =>
    have htruth := truth_assume_nullability hassume
    refine .inr ⟨s', rfl, nullability_assumed hknown hassume, ⟨?_, ?_⟩, fun _ _ ha => .inl ?_⟩
    · rw [htruth, hs.value]
    · rw [htruth, hs.null]
    · rwa [← htruth]

/-- The tests of null are decided, and it takes no assumption to know that null is null. -/
theorem outcome_of_null (h : NullTest first .null n c) (hs : s.Untested .null) :
    Outcome l first .null (n.given t) s (assume c (.truth t) s) := by
  have hnull : s.nullability .null = some .null := by rw [nullability_eq]; rfl
  have hassume : assume c (.truth t) s = if n.given t = .null then some s else none := by
    rw [h.eq_bool, assume_truth, truth_eq]
    cases n <;> cases t <;> rfl
  rw [hassume]
  split
  · next heq => exact outcome_unchanged hs (heq ▸ hnull)
  · next hne => exact .inl ⟨rfl, by rw [hnull, Nullability.eq_opposite_of_ne (Ne.symm hne)]⟩

section

variable (hl : Ledger l) (hknown : x.isUnknown = false) (hx : x.same .null = false)
  (hbefore : x.id < first)

include hl hx in
/-- Recording the outcome of a test beforehand makes no difference to what is told. -/
theorem Outcome.of_record (h : NullTest first x n c) (hc : c ∈ l) (hopen : s.truth c = none)
    (hout : Outcome l first x (n.given t) (s.record c (.truth t)) o) :
    Outcome l first x (n.given t) s o := by
  rcases hout with ⟨rfl, hother⟩ | ⟨s', rfl, htold⟩
  · exact .inl ⟨rfl, by rwa [nullability_record_truth] at hother⟩
  · refine .inr ⟨s', rfl, htold.nullability, htold.untested, fun {n₁ c₁ a} h₁ hc₁ ha => ?_⟩
    rcases htold.agrees h₁ hc₁ ha with hrecorded | hagrees
    · by_cases hid : c₁.id = c.id
      · -- it is the test itself, which speaks of one nullability only
        obtain rfl := hl.eq_of_id hc₁ hc hid
        rw [truth_record_self hopen] at hrecorded
        have hsense : some n = some n₁ := (h.sense hx).symm.trans (h₁.sense hx)
        rw [← Option.some.inj hsense, ← Option.some.inj hrecorded]
        exact .inr rfl
      · exact .inl (by rwa [truth_record_of_ne hid] at hrecorded)
    · exact .inr hagrees

include hl hknown hx hbefore in
/-- A test is refused or told if this is so where its outcome is carried on. -/
theorem outcome_of_spread (h : NullTest first x n c) (hc : c ∈ l) (hs : s.Untested x)
    (hcons : Consistent l first x (c.id + 1) s)
    (hspread : ∀ s₁ : State, s₁.Untested x → Consistent l first x c.id s₁ →
      Outcome l first x (n.given t) s₁ (spread (.truth t) c s₁)) :
    Outcome l first x (n.given t) s (assume c (.truth t) s) := by
  have hlt : x.id < c.id := Nat.lt_of_lt_of_le hbefore (h.first_le_id hx)
  have hlarge : Value.null.id < x.id := by
    have hunknown : x.id ≠ 0 := ne_of_beq_false hknown
    have hnull : x.id ≠ 1 := ne_of_beq_false hx
    exact show 1 < x.id by omega
  have hunknown : ¬c.isUnknown = true := fun h => absurd (eq_of_beq h) (show c.id ≠ 0 by omega)
  rw [assume_truth, if_neg hunknown]
  cases htruth : s.truth c with
  | some a =>
    have hheld := hcons h hc (by omega) htruth
    by_cases heq : a = t
    · subst heq
      simpa using outcome_unchanged hs hheld
    · exact .inl ⟨by simp [heq], by rw [hheld, Nullability.given_of_ne heq]⟩
  | none =>
    -- recording the outcome touches neither the value nor null, nor any test made before this one
    refine Outcome.of_record hl hx h hc htruth (hspread _ ⟨?_, ?_⟩ fun h₁ hc₁ hlt ha => ?_)
    · rw [truth_record_of_ne (by omega), hs.value]
    · rw [truth_record_of_ne (by omega), hs.null]
    · rw [truth_record_of_ne (by omega)] at ha
      rw [nullability_record_truth]
      exact hcons h₁ hc₁ (by omega) ha

include hl hknown hx hbefore in
/-- A comparison with null is refused or told. -/
theorem outcome_of_comparison (h : NullTest first x n c) (hc : c ∈ l) (hs : s.Untested x)
    (hcons : Consistent l first x (c.id + 1) s)
    (hspread : ∀ s₁ : State, s₁.Untested x →
      spread (.truth t) c s₁ = assume x (.nullability (n.given t)) s₁) :
    Outcome l first x (n.given t) s (assume c (.truth t) s) := by
  refine outcome_of_spread hl hknown hx hbefore h hc hs hcons fun s₁ hs₁ _ => ?_
  rw [hspread s₁ hs₁]
  exact outcome_nullability hs₁ hknown

include hl hknown hx hbefore in
/-- The outcomes of the tests of a value that is not null itself, by induction on the test. -/
theorem outcome_of_ne (h : NullTest first x n c) (hc : c ∈ l) (hs : s.Untested x)
    (hcons : Consistent l first x (c.id + 1) s) (t : Truth) :
    Outcome l first x (n.given t) s (assume c (.truth t) s) := by
  have hx' : Value.null.same x = false := Value.same_comm .null x ▸ hx
  induction h generalizing s t with
  | equal σ hσ =>
    refine outcome_of_comparison hl hknown hx hbefore (.equal σ hσ) hc hs hcons fun s₁ hs₁ => ?_
    rw [Supply.equal_of_ne hx, ← Nullability.ofEqual_holds]
    exact equate_null hs₁ hknown
  | nullEqual σ hσ =>
    refine outcome_of_comparison hl hknown hx hbefore (.nullEqual σ hσ) hc hs hcons fun s₁ hs₁ => ?_
    rw [Supply.equal_of_ne hx', ← Nullability.ofEqual_holds]
    exact equate_null_left hs₁ hknown
  | notEqual σ hσ =>
    refine outcome_of_comparison hl hknown hx hbefore (.notEqual σ hσ) hc hs hcons fun s₁ hs₁ => ?_
    rw [Supply.notEqual_of_ne hx, ← Nullability.ofEqual_fails]
    exact equate_null hs₁ hknown
  | nullNotEqual σ hσ =>
    refine outcome_of_comparison hl hknown hx hbefore (.nullNotEqual σ hσ) hc hs hcons
      fun s₁ hs₁ => ?_
    rw [Supply.notEqual_of_ne hx', ← Nullability.ofEqual_fails]
    exact equate_null_left hs₁ hknown
  | @not σ hσ n o ho ih =>
    refine outcome_of_spread hl hknown hx hbefore (.not σ hσ ho) hc hs hcons
      fun s₁ hs₁ hcons₁ => ?_
    have hnot : (σ.not o).1 = .not σ.next o := Supply.not_of_sense (ho.sense hx)
    rw [hnot] at hc hcons₁ ⊢
    obtain ⟨hmem, hlt⟩ := hl.operand hc (List.mem_singleton_self o)
    rw [Nullability.given_opposite]
    exact ih hmem hs₁ (fun h₁ hc₁ hle => hcons₁ h₁ hc₁ (by omega)) t.opposite

end

/-- A test is refused if the value has the other nullability, and told otherwise. -/
theorem outcome (hl : Ledger l) (hx : x ∈ l) (hknown : x.isUnknown = false)
    (hbefore : x.id < first) (h : NullTest first x n c) (hc : c ∈ l) (hs : s.Untested x)
    (hcons : Consistent l first x (c.id + 1) s) (t : Truth) :
    Outcome l first x (n.given t) s (assume c (.truth t) s) := by
  cases hnull : x.same .null with
  | false => exact outcome_of_ne hl hknown hnull hbefore h hc hs hcons t
  | true =>
    obtain rfl := hl.eq_of_shared_id hx (by simp [Value.sharedValues]) (eq_of_beq hnull)
    exact outcome_of_null h hs

/-- Where nothing is recorded about the tests, only those of null have an outcome. -/
theorem consistent_of_fresh (hl : Ledger l) (hx : x ∈ l)
    (hfresh : ∀ i, first ≤ i → s.facts.get? i = none) (bound : Nat) :
    Consistent l first x bound s := by
  intro n c a h _ _ htruth
  cases hnull : x.same .null with
  | false =>
    have hintrinsic : c.intrinsic = .empty := by
      have hsense := h.sense hnull
      cases c with
      | null | self | bool => cases hsense
      | unknown | fresh | widened | equal | notEqual | not => rfl
    rw [truth_eq, hintrinsic, recorded_of_facts_none (hfresh _ (h.first_le_id hnull))] at htruth
    cases htruth
  | true =>
    obtain rfl := hl.eq_of_shared_id hx (by simp [Value.sharedValues]) (eq_of_beq hnull)
    rw [h.eq_bool, truth_eq] at htruth
    rw [nullability_eq, ← Option.some.inj htruth]
    cases n <;> rfl

/-- Tests that agree with the nullability do so after an outcome that says more of it. -/
theorem Told.consistent (h : Told l first x m s s') (hcons : Consistent l first x bound s)
    (hkept : ∀ n, s.nullability x = some n → s'.nullability x = some n) :
    Consistent l first x bound s' := by
  intro n c a htest hc hlt ha
  rcases h.agrees htest hc ha with hbefore | hagrees
  · exact hkept _ (hcons htest hc hlt hbefore)
  · rw [h.nullability, hagrees]

/-- In a state that records nothing about the tests of a known value, and in which nothing holds of
whether the value or null is true, an outcome of a test is refused exactly if the value has the
other nullability. Otherwise the value has the nullability that the outcome says, and the possible
outcomes of the tests are those that say the same. -/
theorem null_tests_remembered (hl : Ledger l) (hfresh : ∀ i, first ≤ i → s.facts.get? i = none)
    (hx : x ∈ l) (hbefore : x.id < first) (hknown : x.isUnknown = false) (hvalue : s.truth x = none)
    (hnull : s.truth .null = none) (h : NullTest first x n c) (hc : c ∈ l) (t : Truth) :
    (assume c (.truth t) s = none ↔ s.nullability x = some (n.given t).opposite) ∧
      ∀ s', assume c (.truth t) s = some s' →
        s'.nullability x = some (n.given t) ∧
          ∀ c' n', NullTest first x n' c' → c' ∈ l → ∀ t',
            (assume c' (.truth t') s').isSome = true ↔ n'.given t' = n.given t := by
  have hcons : ∀ bound, Consistent l first x bound s := consistent_of_fresh hl hx hfresh
  rcases outcome hl hx hknown hbefore h hc ⟨hvalue, hnull⟩ (hcons _) t with
    ⟨hnone, hother⟩ | ⟨s', hsome, htold⟩
  · rw [hnone]
    exact ⟨⟨fun _ => hother, fun _ => rfl⟩, fun s' hs' => absurd hs' (by simp)⟩
  · have hkept : ∀ m, s.nullability x = some m → s'.nullability x = some m := fun m =>
      nullability_of_assume hsome
    rw [hsome]
    refine ⟨⟨fun h => absurd h (by simp), fun hother => ?_⟩, fun s'' hs'' => ?_⟩
    · have heq := (htold.nullability).symm.trans (hkept _ hother)
      exact absurd (Option.some.inj heq).symm (Nullability.opposite_ne _)
    · obtain rfl := Option.some.inj hs''
      refine ⟨htold.nullability, fun c' n' h' hc' t' => ?_⟩
      rcases outcome hl hx hknown hbefore h' hc' htold.untested
          (htold.consistent (hcons _) hkept) t' with ⟨hnone, hother⟩ | ⟨s'', hsome', htold'⟩
      · have heq := Option.some.inj (htold.nullability.symm.trans hother)
        rw [hnone, heq]
        simpa using (Nullability.opposite_ne _).symm
      · have heq := (nullability_of_assume hsome' htold.nullability).symm.trans htold'.nullability
        rw [hsome', Option.some.inj heq]
        simp

end State

namespace ThriceNegated

/-- A value of its own. -/
def x : Value := .fresh 5

/-- It differs from null. -/
def differs : Value := .notEqual 6 x .null

/-- The negation of the negation of the negation of this. -/
def negated : Value := .not 9 (.not 8 (.not 7 differs))

/-- Null is equal to the value. -/
def equal : Value := .equal 10 .null x

/-- The values so far. -/
def values : List Value :=
  Value.sharedValues ++ [x] ++ [differs] ++ [.not 7 differs] ++ [.not 8 (.not 7 differs)] ++
    [negated] ++ [equal]

/-- The values of the example can come from one supply. -/
theorem values_ledger : Ledger values := by
  refine (((((Ledger.start.snoc rfl ?_).snoc rfl ?_).snoc rfl ?_).snoc rfl ?_).snoc rfl ?_).snoc
    rfl ?_ <;> simp [Value.operands, x, differs, negated, equal, Value.sharedValues]

/-- The thrice negated comparison tests for null. -/
theorem negated_nullTest : NullTest 6 x .null negated :=
  .not ⟨9, .empty⟩ (by decide) (.not ⟨8, .empty⟩ (by decide) (.not ⟨7, .empty⟩ (by decide)
    (.notEqual ⟨6, .empty⟩ (by decide))))

/-- The comparison with null on the left tests for null. -/
theorem equal_nullTest : NullTest 6 x .null equal := .nullEqual ⟨10, .empty⟩ (by decide)

/-- The value has been disposed. -/
def disposed : State := State.empty.record x (.disposal .disposed)

/-- Nothing is recorded about the tests. -/
theorem facts_disposed (i : Nat) (h : 6 ≤ i) : disposed.facts.get? i = none := by
  rw [disposed, State.facts_record, if_neg (by simp only [x, Value.id]; omega)]
  rfl

end ThriceNegated

open State ThriceNegated in
/-- A value that has been disposed is not null if the threefold negation of its being different from
null fails, and then it cannot be that null is equal to it. -/
theorem null_tests_remembered_thriceNegated : ∃ s',
    assume negated (.truth .fails) disposed = some s' ∧ s'.nullability x = some .notNull ∧
      (assume equal (.truth .fails) s').isSome = true ∧
      ¬(assume equal (.truth .holds) s').isSome = true := by
  obtain ⟨hnone, hsome⟩ := null_tests_remembered values_ledger facts_disposed
    (by simp [values]) (by decide) rfl rfl rfl negated_nullTest (by simp [values]) .fails
  cases hassume : assume negated (.truth .fails) disposed with
  | none => cases hnone.1 hassume
  | some s' =>
    obtain ⟨hnull, htests⟩ := hsome s' hassume
    have hequal := htests equal .null equal_nullTest (by simp [values])
    exact ⟨s', rfl, hnull, (hequal .fails).2 rfl, fun h => by cases (hequal .holds).1 h⟩

/-! ## The unknown value -/

namespace State

variable {u v left right : Value} {equal : Bool} {t : Truth} {s : State}

/-- Two unknown values are the same. -/
theorem same_of_isUnknown (hleft : left.isUnknown = true) (hright : right.isUnknown = true) :
    left.same right = true := by
  rw [Value.same, eq_of_beq hleft, eq_of_beq hright]
  rfl

/-- An unknown value is not the same as a known one. -/
theorem same_of_unknown_ne (h : left.isUnknown = true ∨ right.isUnknown = true)
    (hnot : ¬(left.isUnknown = true ∧ right.isUnknown = true)) : left.same right = false := by
  cases hsame : left.same right with
  | false => rfl
  | true =>
    have hid : left.isUnknown = right.isUnknown := by
      rw [Value.isUnknown, Value.isUnknown, eq_of_beq hsame]
    exact absurd (by simpa [hid] using h) hnot

/-- Nothing is ever carried on to the unknown value. -/
theorem carry_to_unknown (h : u.isUnknown = true) : carry equal v (assume u) s = some s := by
  have hassume : ∀ c t, assume u c t = some t := fun c t => by rw [assume_eq, if_pos h]
  have hnullability : carryNullability equal v (assume u) s = some s := by
    unfold carryNullability
    split
    · exact hassume _ s
    · exact hassume _ s
    · rfl
  rw [carry_eq, hnullability, Option.bind_some, carryTruth]
  split
  · exact hassume _ s
  · rfl

/-- Nothing is known of the unknown value, so nothing is carried on from it. -/
theorem carry_from_unknown {f : Constraint → State → Option State} (h : u.isUnknown = true)
    (hs : s.facts.get? Value.unknown.id = none) : carry equal u f s = some s := by
  rw [carry_eq]
  unfold carryNullability
  rw [nullability_of_isUnknown h hs]
  exact carryTruth_of_none (truth_of_isUnknown h hs)

/-- A comparison with the unknown value says nothing, whatever is known of the other value. -/
theorem equate_unknown (h : left.isUnknown = true ∨ right.isUnknown = true)
    (hs : s.facts.get? Value.unknown.id = none) : equate equal left right s = some s := by
  rw [equate]
  rcases h with h | h
  · rw [carry_from_unknown h hs]
    exact carry_to_unknown h
  · rw [carry_to_unknown h]
    exact carry_from_unknown h hs

/-- A new condition whose outcome says nothing about its operands is open. -/
theorem open_of_spread (hv : Value.firstFree ≤ v.id) (hintrinsic : v.intrinsic = .empty)
    (hs : s.facts.get? Value.unknown.id = none) (hnext : s.facts.get? v.id = none)
    (hspread : ∀ s₁ : State, s₁.facts.get? Value.unknown.id = none →
      spread (.truth t) v s₁ = some s₁) :
    (assume v (.truth t) s).isSome = true := by
  have hunknown : v.id ≠ Value.unknown.id := Nat.ne_of_gt (Nat.lt_of_lt_of_le (by decide) hv)
  have htruth : s.truth v = none := by
    rw [truth_eq, hintrinsic, recorded_of_facts_none hnext]
    rfl
  have hassume : assume v (.truth t) s = spread (.truth t) v (s.record v (.truth t)) := by
    have hknown : v.isUnknown = false := by simpa [Value.isUnknown] using hunknown
    simp [assume_truth, hknown, htruth]
  rw [hassume, hspread _ (by rw [facts_record, if_neg hunknown.symm, hs]), Option.isSome_some]

/-- If one of two values is unknown, both outcomes of a comparison of the two are possible, unless
both are: nothing is recorded about the unknown value, but it counts as equal to itself. Both
outcomes of its negation are possible. -/
theorem unknown_leaves_open_iff {σ : Supply} (hσ : Value.firstFree ≤ σ.next)
    (hs : s.facts.get? Value.unknown.id = none) (hnext : s.facts.get? σ.next = none)
    (h : left.isUnknown = true ∨ right.isUnknown = true) :
    ((∀ t, (assume (σ.equal left right).1 (.truth t) s).isSome = true) ↔
        ¬(left.isUnknown = true ∧ right.isUnknown = true)) ∧
      ((∀ t, (assume (σ.notEqual left right).1 (.truth t) s).isSome = true) ↔
        ¬(left.isUnknown = true ∧ right.isUnknown = true)) ∧
      ∀ t, (assume (σ.not .unknown).1 (.truth t) s).isSome = true := by
  refine ⟨⟨fun hopen hboth => ?_, fun hnot t => ?_⟩, ⟨fun hopen hboth => ?_, fun hnot t => ?_⟩,
    fun t => open_of_spread hσ rfl hs hnext fun s₁ _ => ?_⟩
  · rw [Supply.equal, if_pos (same_of_isUnknown hboth.1 hboth.2)] at hopen
    cases hopen .fails
  · rw [Supply.equal_of_ne (same_of_unknown_ne h hnot)]
    exact open_of_spread hσ rfl hs hnext fun s₁ hs₁ => equate_unknown h hs₁
  · rw [Supply.notEqual, if_pos (same_of_isUnknown hboth.1 hboth.2)] at hopen
    cases hopen .holds
  · rw [Supply.notEqual_of_ne (same_of_unknown_ne h hnot)]
    exact open_of_spread hσ rfl hs hnext fun s₁ hs₁ => equate_unknown h hs₁
  · exact (assume_eq .unknown _ s₁).trans (if_pos rfl)

/-- A value that is true and not null is compared with the unknown value. -/
theorem unknown_leaves_open_iff_true :
    let s := (empty.record (.fresh 5) (.truth .holds)).record (.fresh 5) (.nullability .notNull)
    (∀ t, (assume (.equal 6 .unknown (.fresh 5)) (.truth t) s).isSome = true) ∧
      (∀ t, (assume (.notEqual 6 .unknown (.fresh 5)) (.truth t) s).isSome = true) ∧
      ∀ t, (assume (.not 6 .unknown) (.truth t) s).isSome = true := by
  intro s
  have hunknown : Value.unknown.isUnknown = true ∨ (Value.fresh 5).isUnknown = true := .inl rfl
  obtain ⟨hequal, hnotEqual, hnot⟩ := unknown_leaves_open_iff (σ := ⟨6, .empty⟩) (s := s)
    (by decide) rfl rfl hunknown
  exact ⟨hequal.2 (by decide), hnotEqual.2 (by decide), hnot⟩

/-- The unknown value does not differ from itself, although it stands for any two values. -/
theorem unknown_equals_itself :
    assume (Supply.start.equal .unknown .unknown).1 (.truth .fails) .empty = none ∧
      assume (Supply.start.notEqual .unknown .unknown).1 (.truth .holds) .empty = none :=
  ⟨rfl, rfl⟩

end State

end Pathwise
