import Pathwise.Proofs.Coherence
import Pathwise.Proofs.Sample

/-!
# The outcomes of a branch

A condition can be assumed to hold or to fail, and one of the two is possible unless the facts about
it are contrary to both: a value whose truth is known is compared with another truth value, and one
of the two is held to be null. Nullability and truth are domains of their own, so nothing keeps a
path from recording both of one value; no execution takes such a path.

That an outcome is possible is shown with more facts than there are. Where two truth values are
compared neither is null, so both may be taken not to be; an assumption that is possible then is
possible without these facts.
-/

namespace Pathwise

/-- From one truth value one comes to another by equality or by inequality, and in the same way
back. -/
theorem Truth.exists_flip (a b : Truth) : ∃ equal : Bool,
    (if equal then a else a.opposite) = b ∧ (if equal then b else b.opposite) = a := by
  cases a <;> cases b
  · exact ⟨true, rfl, rfl⟩
  · exact ⟨false, rfl, rfl⟩
  · exact ⟨false, rfl, rfl⟩
  · exact ⟨true, rfl, rfl⟩

/-- The condition compares values that are no conditions, or it negates such a condition. -/
inductive Value.Plain : Value → Prop where
  /-- The value is no condition. -/
  | leaf {v : Value} (h : v.operands = []) : Plain v
  /-- Values that are no conditions are compared. -/
  | compare {v left right : Value} (hoperands : v.operands = [left, right])
    (hleft : left.operands = []) (hright : right.operands = []) : Plain v
  /-- A condition is negated. -/
  | negation {v operand : Value} (hoperands : v.operands = [operand]) (h : operand.Plain) : Plain v

namespace State

variable {W : Value → Prop} {s s' t t' : State} {u v left right : Value} {equal : Bool}
  {n : Nullability}

/-! ## Nullability and truth -/

/-- The nullability of a value is the one it brings along, or else the recorded one. -/
theorem nullability_eq (s : State) (v : Value) :
    s.nullability v = v.intrinsic.nullability.or (s.recorded v).nullability := by
  rw [nullability, constraint]
  cases hintrinsic : v.intrinsic.nullability <;> cases hrecorded : (s.recorded v).nullability <;>
    simp [ConstraintSet.get?, hintrinsic, hrecorded, Constraint.nullability?]

/-- The truth of a value is the one it brings along, or else the recorded one. -/
theorem truth_eq (s : State) (v : Value) :
    s.truth v = v.intrinsic.truth.or (s.recorded v).truth := by
  rw [truth, constraint]
  cases hintrinsic : v.intrinsic.truth <;> cases hrecorded : (s.recorded v).truth <;>
    simp [ConstraintSet.get?, hintrinsic, hrecorded, Constraint.truth?]

/-- What is recorded about one value says nothing about the truth of another. -/
theorem truth_record_of_ne (h : u.id ≠ v.id) (c : Constraint) :
    (s.record v c).truth u = s.truth u := by
  rw [truth, truth, constraint_record, if_neg (fun hhere => h hhere.1)]

/-- A truth that is recorded for a value of open truth is its truth from then on. -/
theorem truth_record_self {a : Truth} (h : s.truth v = none) :
    (s.record v (.truth a)).truth v = some a := by
  have hintrinsic := (Option.or_eq_none_iff.1 (truth_eq s v ▸ h)).1
  rw [truth_eq, hintrinsic, recorded_record, if_pos rfl]
  rfl

/-- To record a truth changes no nullability. -/
theorem nullability_record_truth (u v : Value) (a : Truth) :
    (s.record v (.truth a)).nullability u = s.nullability u := by
  rw [nullability, nullability, constraint_record, if_neg (by simp [Constraint.domain])]

/-- Nothing is recorded about a value without facts. -/
theorem recorded_of_facts_none (h : s.facts.get? v.id = none) : s.recorded v = .empty := by
  rw [recorded, h]

/-- The unknown value brings no facts of its own. -/
theorem intrinsic_of_isUnknown (h : u.isUnknown = true) : u.intrinsic = .empty := by
  cases u with
  | null | self => cases h
  | bool b => cases b <;> cases h
  | unknown | fresh | widened | equal | notEqual | not => rfl

/-- The truth of the unknown value is not known. -/
theorem truth_of_isUnknown (h : u.isUnknown = true) (hs : s.facts.get? Value.unknown.id = none) :
    s.truth u = none := by
  have hrecorded : s.recorded u = .empty := recorded_of_facts_none (by rwa [eq_of_beq h])
  rw [truth_eq, hrecorded, intrinsic_of_isUnknown h]
  rfl

/-- Neither is its nullability. -/
theorem nullability_of_isUnknown (h : u.isUnknown = true)
    (hs : s.facts.get? Value.unknown.id = none) : s.nullability u = none := by
  have hrecorded : s.recorded u = .empty := recorded_of_facts_none (by rwa [eq_of_beq h])
  rw [nullability_eq, hrecorded, intrinsic_of_isUnknown h]
  rfl

/-- A nullability is assumed if it is known already or nothing is known, and then it is recorded. -/
theorem assume_nullability (v : Value) (n : Nullability) (s : State) :
    assume v (.nullability n) s =
      if v.isUnknown then some s
      else match s.nullability v with
        | some held => if held = n then some s else none
        | none => some (s.record v (.nullability n)) := by
  have hspread : ∀ t, spread (.nullability n) v t = some t :=
    spread_of_not_truth (by simp [Constraint.domain]) v
  rw [assume_eq]
  simp only [Constraint.domain, constraint_nullability, hspread]
  cases s.nullability v <;> simp

/-- A truth is assumed if it is known already; if it is open it is recorded and carried on. -/
theorem assume_truth (v : Value) (a : Truth) (s : State) :
    assume v (.truth a) s =
      if v.isUnknown then some s
      else match s.truth v with
        | some held => if held = a then some s else none
        | none => spread (.truth a) v (s.record v (.truth a)) := by
  rw [assume_eq]
  simp only [Constraint.domain, constraint_truth]
  cases s.truth v <;> simp

/-- An assumption takes no truth back. -/
theorem truth_of_assume {c : Constraint} {a : Truth} (h : assume v c s = some s')
    (hu : s.truth u = some a) : s'.truth u = some a := by
  have hheld : s.constraint u .truth = some (.truth a) → s'.constraint u .truth = some (.truth a) :=
    constraint_of_assume h
  rw [constraint_truth, constraint_truth] at hheld
  simpa using hheld (by simp [hu])

/-- An assumption takes no nullability back. -/
theorem nullability_of_assume {c : Constraint} (h : assume v c s = some s')
    (hu : s.nullability u = some n) : s'.nullability u = some n := by
  have hheld : s.constraint u .nullability = some (.nullability n) →
      s'.constraint u .nullability = some (.nullability n) := constraint_of_assume h
  rw [constraint_nullability, constraint_nullability] at hheld
  simpa using hheld (by simp [hu])

/-- What was assumed is known from then on, except of the unknown value. -/
theorem truth_assumed {a : Truth} (h : assume v (.truth a) s = some s') :
    v.isUnknown = true ∧ s' = s ∨ v.isUnknown = false ∧ s'.truth v = some a := by
  cases hunknown : v.isUnknown with
  | true =>
    rw [assume_truth, if_pos hunknown] at h
    exact .inl ⟨rfl, (Option.some.inj h).symm⟩
  | false =>
    have hheld := constraint_assumed h hunknown
    simp only [Constraint.domain, constraint_truth] at hheld
    exact .inr ⟨rfl, by simpa using hheld⟩

/-- A truth that is known can be assumed, and nothing changes. -/
theorem assume_truth_held {a : Truth} (h : s.truth v = some a) :
    assume v (.truth a) s = some s := by
  rw [assume_truth, h]
  simp

/-- So can a nullability that is known. -/
theorem assume_nullability_held (h : s.nullability v = some n) :
    assume v (.nullability n) s = some s := by
  rw [assume_nullability, h]
  simp

/-! ## More facts -/

/-- A state knows at least as much of some values as another, and what it knows in addition is that
some of them are not null. -/
structure Below (W : Value → Prop) (s t : State) : Prop where
  /-- The same is recorded about truth. -/
  truth : ∀ {v}, W v → (s.recorded v).truth = (t.recorded v).truth
  /-- The same is recorded about nullability, or that the value is not null in addition. -/
  nullability : ∀ {v}, W v → (s.recorded v).nullability = (t.recorded v).nullability ∨
    (s.recorded v).nullability = none ∧ (t.recorded v).nullability = some .notNull

namespace Below

/-- A state knows as much as itself. -/
theorem refl (W : Value → Prop) (s : State) : s.Below W s := ⟨fun _ => rfl, fun _ => .inl rfl⟩

/-- In addition nothing is known about truth. -/
theorem truth_eq (h : s.Below W t) (hv : W v) : s.truth v = t.truth v := by
  rw [State.truth_eq, State.truth_eq, h.truth hv]

/-- What is known in addition is that a value is not null. -/
theorem nullability_cases (h : s.Below W t) (hv : W v) : s.nullability v = t.nullability v ∨
    s.nullability v = none ∧ t.nullability v = some .notNull := by
  rw [nullability_eq, nullability_eq]
  rcases h.nullability hv with heq | ⟨hnone, hnot⟩
  · exact .inl (by rw [heq])
  · rw [hnone, hnot]
    cases v.intrinsic.nullability <;> simp

/-- What is not held to be null is not held to be null with more facts, either. -/
theorem nullability_ne_null (h : s.Below W t) (hv : W v) (hs : s.nullability v ≠ some .null) :
    t.nullability v ≠ some .null := by
  rcases h.nullability_cases hv with heq | ⟨-, hnot⟩
  · rwa [← heq]
  · simp [hnot]

/-- Recording the same in both states changes nothing in how they compare. -/
theorem record (h : s.Below W t) (v : Value) (c : Constraint) :
    (s.record v c).Below W (t.record v c) := by
  refine ⟨fun {u} hu => ?_, fun {u} hu => ?_⟩
  · rw [recorded_record, recorded_record]
    split
    · cases c <;> simp [ConstraintSet.insert, h.truth hu]
    · exact h.truth hu
  · rw [recorded_record, recorded_record]
    split
    · cases c <;> simp [ConstraintSet.insert, h.nullability hu]
    · exact h.nullability hu

/-- What is recorded about other values does not matter. -/
theorem record_left (s : State) (c : Constraint) (hW : ∀ u, W u → u.id ≠ v.id) :
    (s.record v c).Below W s := by
  refine ⟨fun {u} hu => ?_, fun {u} hu => .inl ?_⟩ <;> rw [recorded_record, if_neg (hW u hu)]

/-- Nor does it matter on the other side. -/
theorem record_right (s : State) (c : Constraint) (hW : ∀ u, W u → u.id ≠ v.id) :
    s.Below W (s.record v c) := by
  refine ⟨fun {u} hu => ?_, fun {u} hu => .inl ?_⟩ <;> rw [recorded_record, if_neg (hW u hu)]

/-- To assume that a value is not null adds to what is known. -/
theorem assume_notNull (h : s.Below W t) (hassume : assume v (.nullability .notNull) t = some t') :
    s.Below W t' := by
  rw [assume_nullability] at hassume
  split at hassume
  · rwa [← Option.some.inj hassume]
  · split at hassume
    · split at hassume
      · rwa [← Option.some.inj hassume]
      · cases hassume
    · next hnone =>
      obtain rfl := Option.some.inj hassume
      rw [nullability_eq, Option.or_eq_none_iff] at hnone
      refine ⟨fun {u} hu => ?_, fun {u} hu => ?_⟩ <;> rw [recorded_record] <;> split
      · exact h.truth hu
      · exact h.truth hu
      · next hid =>
        have hsame : t.recorded u = t.recorded v := by rw [recorded, recorded, hid]
        refine .inr ⟨?_, rfl⟩
        rcases h.nullability hu with heq | ⟨hs, -⟩
        · rw [heq, hsame, hnone.2]
        · exact hs
      · exact h.nullability hu

/-- An assumption that is possible with more facts is possible with fewer. -/
def Simulates (W : Value → Prop) (v : Value) : Prop :=
  ∀ {c : Constraint} {s t t' : State}, c.domain = .nullability ∨ c.domain = .truth →
    s.Below W t → assume v c t = some t' → ∃ s', assume v c s = some s' ∧ s'.Below W t'

/-- What can be carried on with more facts can be carried on with fewer. -/
theorem carry (hv : Simulates W v) (hu : W u) (h : s.Below W t)
    (hcarry : State.carry equal u (assume v) t = some t') :
    ∃ s', State.carry equal u (assume v) s = some s' ∧ s'.Below W t' := by
  rw [carry_eq] at hcarry
  obtain ⟨t₁, ht₁, hcarry⟩ := Option.bind_eq_some_iff.1 hcarry
  have hnullability : ∃ s₁, carryNullability equal u (assume v) s = some s₁ ∧ s₁.Below W t₁ := by
    unfold carryNullability at ht₁ ⊢
    rcases h.nullability_cases hu with heq | ⟨hnone, hnot⟩
    · rw [heq]
      split at ht₁
      · exact hv (.inl rfl) h ht₁
      · exact hv (.inl rfl) h ht₁
      · exact ⟨s, rfl, Option.some.inj ht₁ ▸ h⟩
    · rw [hnone]
      rw [hnot] at ht₁
      cases equal with
      | true => exact ⟨s, rfl, h.assume_notNull ht₁⟩
      | false => exact ⟨s, rfl, Option.some.inj ht₁ ▸ h⟩
  obtain ⟨s₁, hs₁, h₁⟩ := hnullability
  rw [carry_eq, hs₁, Option.bind_some]
  unfold carryTruth at hcarry ⊢
  rw [h₁.truth_eq hu]
  split at hcarry
  · exact hv (.inr rfl) h₁ hcarry
  · exact ⟨s₁, rfl, Option.some.inj hcarry ▸ h₁⟩

/-- So it is with carrying on in both directions. -/
theorem equate (hleft : Simulates W left) (hright : Simulates W right) (hl : W left) (hr : W right)
    (h : s.Below W t) (hequate : State.equate equal left right t = some t') :
    ∃ s', State.equate equal left right s = some s' ∧ s'.Below W t' := by
  obtain ⟨t₁, ht₁, hequate⟩ := Option.bind_eq_some_iff.1 hequate
  obtain ⟨s₁, hs₁, h₁⟩ := h.carry hright hl ht₁
  obtain ⟨s', hs', h'⟩ := h₁.carry hleft hr hequate
  exact ⟨s', by rw [State.equate, hs₁, Option.bind_some, hs'], h'⟩

/-- To record what the other state knows already. -/
theorem record_notNull (h : s.Below W t) (hs : s.nullability v = none)
    (ht : t.nullability v = some .notNull) :
    (s.record v (.nullability .notNull)).Below W t := by
  rw [nullability_eq, Option.or_eq_none_iff] at hs
  rw [nullability_eq, hs.1, Option.none_or] at ht
  refine ⟨fun {u} hu => ?_, fun {u} hu => ?_⟩ <;> rw [recorded_record] <;> split
  · exact h.truth hu
  · exact h.truth hu
  · next hid =>
    have hsame : t.recorded u = t.recorded v := by rw [recorded, recorded, hid]
    exact .inl (by rw [hsame, ht]; rfl)
  · exact h.nullability hu

/-- An assumption about nullability that is possible with more facts is possible with fewer. -/
theorem assume_of_nullability (h : s.Below W t) (hv : W v)
    (hassume : assume v (.nullability n) t = some t') :
    ∃ s', assume v (.nullability n) s = some s' ∧ s'.Below W t' := by
  rw [assume_nullability] at hassume ⊢
  split
  · next hknown =>
    rw [if_pos hknown] at hassume
    exact ⟨s, rfl, Option.some.inj hassume ▸ h⟩
  · next hknown =>
    rw [if_neg hknown] at hassume
    rcases h.nullability_cases hv with heq | ⟨hnone, hnot⟩
    · rw [heq]
      split at hassume
      · split at hassume
        · next hheld => exact ⟨s, if_pos hheld, Option.some.inj hassume ▸ h⟩
        · cases hassume
      · exact ⟨_, rfl, Option.some.inj hassume ▸ h.record v _⟩
    · rw [hnone]
      rw [hnot] at hassume
      dsimp only at hassume
      split at hassume
      · next hheld =>
        subst hheld
        exact ⟨_, rfl, Option.some.inj hassume ▸ h.record_notNull hnone hnot⟩
      · cases hassume

/-- What can be carried on to the operands with more facts can be carried on with fewer. -/
theorem spread {a : Truth} (hoperand : ∀ o ∈ v.operands, W o ∧ Simulates W o) (h : s.Below W t)
    (hspread : State.spread (.truth a) v t = some t') :
    ∃ s', State.spread (.truth a) v s = some s' ∧ s'.Below W t' := by
  cases v with
  | not id operand => exact (hoperand operand (by simp [Value.operands])).2 (.inr rfl) h hspread
  | equal id left right | notEqual id left right =>
    obtain ⟨hl, hleft⟩ := hoperand left (by simp [Value.operands])
    obtain ⟨hr, hright⟩ := hoperand right (by simp [Value.operands])
    exact h.equate hleft hright hl hr hspread
  | unknown | null | self | bool | fresh | widened =>
    exact ⟨s, rfl, Option.some.inj hspread ▸ h⟩

/-- Every assumption is possible with fewer facts, by what it comes to for the operands. -/
theorem simulates (hW : ∀ u, u.Part v → W u) : Simulates W v := by
  induction v using Value.operandInduction with
  | h v ih =>
    intro c s t t' hc h hassume
    have hoperand : ∀ o ∈ v.operands, W o ∧ Simulates W o := by
      intro o ho
      have hparts : ∀ u, u.Part o → W u := fun u hu => hW u (.operand ho hu)
      exact ⟨hparts o (.refl o), ih o ho hparts⟩
    cases c with
    | disposal | byteArray | saltSize => simp [Constraint.domain] at hc
    | nullability n => exact h.assume_of_nullability (hW v (.refl v)) hassume
    | truth a =>
      rw [assume_truth] at hassume ⊢
      rw [h.truth_eq (hW v (.refl v))]
      have hrecord := h.record v (.truth a)
      split at hassume
      · next hunknown => exact ⟨s, by rw [if_pos hunknown], Option.some.inj hassume ▸ h⟩
      · next hknown =>
        rw [if_neg hknown]
        split at hassume
        · split at hassume
          · next hheld => exact ⟨s, if_pos hheld, Option.some.inj hassume ▸ h⟩
          · cases hassume
        · exact spread hoperand hrecord hassume

end Below

/-! ## Muddled conditions -/

/-- The value is known to be a truth value: it holds or fails, or it is a condition. -/
def Truthlike (s : State) (v : Value) : Prop := s.truth v ≠ none ∨ v.operands ≠ []

/-- The facts about an open condition are muddled: it compares two truth values, at least one of
them known, and one of them is held to be null; or this is so for an operand. -/
inductive Muddled (s : State) : Value → Prop where
  /-- Two truth values are compared, and one of them is held to be null. -/
  | compare {v left right : Value} (hopen : s.truth v = none)
    (hoperands : v.operands = [left, right])
    (hknown : s.truth left ≠ none ∨ s.truth right ≠ none) (hleft : s.Truthlike left)
    (hright : s.Truthlike right)
    (hnull : s.nullability left = some .null ∨ s.nullability right = some .null) : Muddled s v
  /-- The facts about an operand are muddled. -/
  | operand {v o : Value} (hopen : s.truth v = none) (ho : o ∈ v.operands) (h : Muddled s o) :
    Muddled s v

/-- To know of more values that they are not null muddles nothing. -/
theorem Muddled.of_below (h : s.Below (fun _ => True) t) (hv : t.Muddled v) : s.Muddled v := by
  have htruth : ∀ u, s.truth u = t.truth u := fun u => h.truth_eq trivial
  have htruthlike : ∀ {u}, t.Truthlike u → s.Truthlike u := by
    intro u hu
    rwa [Truthlike, htruth]
  have hnull : ∀ {u}, t.nullability u = some .null → s.nullability u = some .null := by
    intro u hu
    rcases h.nullability_cases (v := u) trivial with heq | ⟨-, hnot⟩
    · rw [heq, hu]
    · rw [hnot] at hu
      cases hu
  induction hv with
  | compare hopen hoperands hknown hleft hright hheld =>
    exact .compare (by rw [htruth, hopen]) hoperands (by rwa [htruth, htruth]) (htruthlike hleft)
      (htruthlike hright) (hheld.imp hnull hnull)
  | operand hopen ho _ ih => exact .operand (by rw [htruth, hopen]) ho ih

/-! ## Comparisons of truth values -/

/-- Nothing is carried on between values that are not null. -/
theorem carryNullability_notNull (hu : s.nullability u ≠ some .null)
    (hv : assume v (.nullability .notNull) s = some s) :
    carryNullability equal u (assume v) s = some s := by
  unfold carryNullability
  split
  · next held hheld =>
    cases held with
    | null => exact absurd hheld hu
    | notNull => exact hv
  · next hheld => exact absurd hheld hu
  · rfl

/-- From a value of open truth no truth is carried on. -/
theorem carryTruth_of_none {f : Constraint → State → Option State} (h : s.truth u = none) :
    carryTruth equal u f s = some s := by
  rw [carryTruth, h]

/-- From a value of known truth the same or the opposite truth is carried on. -/
theorem carryTruth_of_some {f : Constraint → State → Option State} {a : Truth}
    (h : s.truth u = some a) :
    carryTruth equal u f s = f (.truth (if equal then a else a.opposite)) s := by
  rw [carryTruth, h]

/-- The value is taken not to be null, or nothing is ever recorded about it. -/
def Solid (s : State) (v : Value) : Prop := v.isUnknown = true ∨ s.nullability v = some .notNull

/-- A solid value can be assumed not to be null, and nothing changes. -/
theorem Solid.assume_self (h : s.Solid v) : assume v (.nullability .notNull) s = some s := by
  rcases h with hunknown | hheld
  · rw [assume_nullability, if_pos hunknown]
  · exact assume_nullability_held hheld

/-- A solid value stays solid. -/
theorem Solid.assume {c : Constraint} (h : s.Solid v) (hassume : State.assume u c s = some s') :
    s'.Solid v :=
  h.imp_right (nullability_of_assume hassume)

/-- A value that was assumed not to be null is solid. -/
theorem solid_of_assume (h : assume v (.nullability .notNull) s = some s') : s'.Solid v := by
  cases hunknown : v.isUnknown with
  | true => exact .inl hunknown
  | false =>
    have hheld := constraint_assumed h hunknown
    simp only [Constraint.domain, constraint_nullability] at hheld
    exact .inr (by simpa using hheld)

/-- Between values that are not null only truth is carried on. -/
theorem carry_of_solid (hu : s.nullability u ≠ some .null) (hv : s.Solid v) :
    carry equal u (assume v) s = carryTruth equal u (assume v) s := by
  rw [carry_eq, carryNullability_notNull hu hv.assume_self, Option.bind_some]

/-- Values that are not null can be compared one way or the other if the truth of one is known. -/
theorem exists_equate_of_solid
    (hleft : s.truth left = none → ∃ a s', assume left (.truth a) s = some s')
    (hright : s.truth right = none → ∃ a s', assume right (.truth a) s = some s')
    (hknown : s.truth left ≠ none ∨ s.truth right ≠ none)
    (hl : s.nullability left ≠ some .null) (hr : s.nullability right ≠ some .null)
    (hsl : s.Solid left) (hsr : s.Solid right) :
    ∃ equal s', equate equal left right s = some s' := by
  cases htl : s.truth left with
  | none =>
    cases htr : s.truth right with
    | none => simp [htl, htr] at hknown
    | some b =>
      obtain ⟨a, s', hassume⟩ := hleft htl
      obtain ⟨equal, hflip, -⟩ := Truth.exists_flip b a
      refine ⟨equal, s', ?_⟩
      rw [equate, carry_of_solid hl hsr, carryTruth_of_none htl, Option.bind_some,
        carry_of_solid hr hsl, carryTruth_of_some htr, hflip, hassume]
  | some a =>
    have hsecond : ∃ b s', assume right (.truth b) s = some s' ∧
        (s'.truth right = none ∨ s'.truth right = some b) ∧ s'.nullability right ≠ some .null := by
      cases htr : s.truth right with
      | some b => exact ⟨b, s, assume_truth_held htr, .inr htr, hr⟩
      | none =>
        obtain ⟨b, s', hassume⟩ := hright htr
        rcases truth_assumed hassume with ⟨-, rfl⟩ | ⟨hunknown, hb⟩
        · exact ⟨b, s', hassume, .inl htr, hr⟩
        · have hheld : s.nullability right = some .notNull := hsr.resolve_left (by simp [hunknown])
          exact ⟨b, s', hassume, .inr hb, by simp [nullability_of_assume hassume hheld]⟩
    obtain ⟨b, s', hassume, hb, hr'⟩ := hsecond
    obtain ⟨equal, hforth, hback⟩ := Truth.exists_flip a b
    refine ⟨equal, s', ?_⟩
    rw [equate, carry_of_solid hl hsr, carryTruth_of_some htl, hforth, hassume, Option.bind_some,
      carry_of_solid hr' (hsl.assume hassume)]
    rcases hb with hb | hb
    · exact carryTruth_of_none hb
    · rw [carryTruth_of_some hb, hback]
      exact assume_truth_held (truth_of_assume hassume htl)

/-- Truth values that are not null can be compared one way or the other: both may be taken not to be
null. -/
theorem exists_equate_of_truthlike
    (hleft : ∀ s : State, ¬s.Muddled left → ∃ a s', assume left (.truth a) s = some s')
    (hright : ∀ s : State, ¬s.Muddled right → ∃ a s', assume right (.truth a) s = some s')
    (hml : ¬s.Muddled left) (hmr : ¬s.Muddled right)
    (hknown : s.truth left ≠ none ∨ s.truth right ≠ none)
    (hl : s.nullability left ≠ some .null) (hr : s.nullability right ≠ some .null) :
    ∃ equal s', equate equal left right s = some s' := by
  have htruth : (Constraint.nullability .notNull).domain ≠ .truth := by simp [Constraint.domain]
  obtain ⟨t₁, ht₁, hkept⟩ := assume_of_admits htruth (admits_notNull_iff.2 hl)
  obtain ⟨t, ht, -⟩ := assume_of_admits htruth
    (hkept right (.nullability .notNull) (fun _ => rfl) (admits_notNull_iff.2 hr))
  have hbelow : s.Below (fun _ => True) t := ((Below.refl _ s).assume_notNull ht₁).assume_notNull ht
  have hsame : ∀ u, t.truth u = s.truth u := fun u => (hbelow.truth_eq trivial).symm
  obtain ⟨equal, t', hequate⟩ := exists_equate_of_solid
    (fun _ => hleft t fun hmuddled => hml (hmuddled.of_below hbelow))
    (fun _ => hright t fun hmuddled => hmr (hmuddled.of_below hbelow))
    (by rwa [hsame, hsame]) (hbelow.nullability_ne_null trivial hl)
    (hbelow.nullability_ne_null trivial hr) ((solid_of_assume ht₁).assume ht) (solid_of_assume ht)
  obtain ⟨s', hs', -⟩ := hbelow.equate (Below.simulates fun _ _ => trivial)
    (Below.simulates fun _ _ => trivial) trivial trivial hequate
  exact ⟨equal, s', hs'⟩

/-! ## Other comparisons -/

/-- Both values are held to be null. -/
def BothNull (s : State) (left right : Value) : Prop :=
  s.nullability left = some .null ∧ s.nullability right = some .null

/-- Of two values that are both null either may come first. -/
theorem bothNull_comm : s.BothNull left right ↔ s.BothNull right left := and_comm

/-- An assumption about nullability changes no truth. -/
theorem truth_assume_nullability (h : assume v (.nullability n) s = some s') (u : Value) :
    s'.truth u = s.truth u := by
  rcases assume_of_not_truth (by simp [Constraint.domain]) h with rfl | rfl
  · rfl
  · rw [truth, truth, constraint_overwrite_of_ne _ _ _ (by simp [Constraint.domain])]

/-- What is known of the nullability of two values does not contradict that they are equal or that
they differ. -/
def Suits (s : State) (equal : Bool) (u v : Value) : Prop :=
  if equal then ∀ m n, s.nullability u = some m → s.nullability v = some n → m = n
  else ¬s.BothNull u v

/-- It does not matter which of the two values comes first. -/
theorem suits_comm : s.Suits equal u v ↔ s.Suits equal v u := by
  cases equal with
  | true => exact ⟨fun h m n hv hu => (h n m hu hv).symm, fun h m n hu hv => (h n m hv hu).symm⟩
  | false => exact not_congr bothNull_comm

/-- Two values may be equal, or they may differ. -/
theorem exists_suits (s : State) (u v : Value) : ∃ equal, s.Suits equal u v := by
  by_cases hnull : s.BothNull u v
  · refine ⟨true, fun m n hm hn => ?_⟩
    rw [hnull.1] at hm
    rw [hnull.2] at hn
    exact Option.some.inj (hm.symm.trans hn)
  · exact ⟨false, hnull⟩

/-- What suits the nullability of two values is carried on without being refused. -/
theorem exists_carryNullability (h : s.Suits equal u v) :
    ∃ s', carryNullability equal u (assume v) s = some s' ∧ s'.Suits equal u v ∧
      ∀ w, s'.truth w = s.truth w := by
  unfold carryNullability
  cases equal with
  | true =>
    cases hu : s.nullability u with
    | none => exact ⟨s, rfl, h, fun _ => rfl⟩
    | some m =>
      cases hv : s.nullability v with
      | some n =>
        obtain rfl : m = n := h m n hu hv
        exact ⟨s, assume_nullability_held hv, h, fun _ => rfl⟩
      | none =>
        obtain ⟨s', hassume⟩ : ∃ s', assume v (.nullability m) s = some s' := by
          rw [assume_nullability, hv]
          split
          · exact ⟨_, rfl⟩
          · exact ⟨_, rfl⟩
        refine ⟨s', hassume, fun m' n' hm' hn' => ?_, truth_assume_nullability hassume⟩
        -- the first keeps what it has, and the second gets the same or nothing
        obtain rfl : m = m' := Option.some.inj ((nullability_of_assume hassume hu).symm.trans hm')
        cases hunknown : v.isUnknown with
        | true =>
          rw [assume_nullability, if_pos hunknown] at hassume
          obtain rfl := Option.some.inj hassume
          rw [hv] at hn'
          cases hn'
        | false =>
          have hheld := constraint_assumed hassume hunknown
          simp only [Constraint.domain, constraint_nullability, hn'] at hheld
          simpa using hheld.symm
  | false =>
    cases hu : s.nullability u with
    | none => exact ⟨s, rfl, h, fun _ => rfl⟩
    | some held =>
      cases held with
      | notNull => exact ⟨s, rfl, h, fun _ => rfl⟩
      | null =>
        have hv : s.nullability v ≠ some .null := fun hv => h ⟨hu, hv⟩
        obtain ⟨s', hassume, hkept⟩ := assume_of_admits (by simp [Constraint.domain])
          (admits_notNull_iff.2 hv)
        have hv' := admits_notNull_iff.1 (hkept v _ (fun _ => rfl) (admits_notNull_iff.2 hv))
        exact ⟨s', hassume, fun hnull => hv' hnull.2, truth_assume_nullability hassume⟩

/-- An open condition without operands holds or fails as one likes. -/
theorem exists_assume_of_leaf (hv : v.operands = []) (hopen : s.truth v = none) (a : Truth) :
    ∃ s', assume v (.truth a) s = some s' ∧ ∀ w, s'.nullability w = s.nullability w := by
  rw [assume_truth, hopen]
  split
  · exact ⟨s, rfl, fun _ => rfl⟩
  · next hknown =>
    refine ⟨s.record v (.truth a), ?_, fun w => ?_⟩
    · cases v with
      | unknown | null | self | bool | fresh | widened => rfl
      | equal | notEqual | not => cases hv
    · exact nullability_record_truth w v a

/-- A comparison of two values is made in four steps. -/
theorem equate_of_steps {s₁ s₂ s₃ : State}
    (h₁ : carryNullability equal left (assume right) s = some s₁)
    (h₂ : carryTruth equal left (assume right) s₁ = some s₂)
    (h₃ : carryNullability equal right (assume left) s₂ = some s₃)
    (h₄ : carryTruth equal right (assume left) s₃ = some s') :
    equate equal left right s = some s' := by
  rw [equate, carry_eq, h₁, Option.bind_some, h₂, Option.bind_some, carry_eq, h₃, Option.bind_some,
    h₄]

/-- Two values can be compared one way or the other if none is known to hold or to fail, or one of
them is not and has no operands. -/
theorem exists_equate_of_open
    (h : s.truth left = none ∧ (s.truth right = none ∨ left.operands = []) ∨
      s.truth right = none ∧ right.operands = []) :
    ∃ equal s', equate equal left right s = some s' := by
  obtain ⟨equal, hequal⟩ := s.exists_suits left right
  obtain ⟨s₁, hs₁, hequal₁, htruth₁⟩ := exists_carryNullability hequal
  cases htl : s.truth left with
  | none =>
    obtain ⟨s₂, hs₂, -, htruth₂⟩ := exists_carryNullability (suits_comm.1 hequal₁)
    have hback : ∃ s', carryTruth equal right (assume left) s₂ = some s' := by
      cases htr : s.truth right with
      | none => exact ⟨s₂, carryTruth_of_none (by rw [htruth₂, htruth₁, htr])⟩
      | some b =>
        have hleaf : left.operands = [] := by simpa [htl, htr] using h
        have hopen : s₂.truth left = none := by rw [htruth₂, htruth₁, htl]
        rw [carryTruth_of_some (by rw [htruth₂, htruth₁, htr])]
        obtain ⟨s', hassume, -⟩ := exists_assume_of_leaf hleaf hopen _
        exact ⟨s', hassume⟩
    obtain ⟨s', hs'⟩ := hback
    exact ⟨equal, s', equate_of_steps hs₁ (carryTruth_of_none (by rw [htruth₁, htl])) hs₂ hs'⟩
  | some a =>
    obtain ⟨htr, hleaf⟩ : s.truth right = none ∧ right.operands = [] := by simpa [htl] using h
    obtain ⟨s₂, hs₂, hnullability⟩ := exists_assume_of_leaf hleaf
      (show s₁.truth right = none by rw [htruth₁, htr]) (if equal then a else a.opposite)
    have hforth : carryTruth equal left (assume right) s₁ = some s₂ := by
      rw [carryTruth_of_some (by rw [htruth₁, htl]), hs₂]
    have hequal₂ : s₂.Suits equal right left := by
      rw [suits_comm]
      unfold Suits BothNull
      rw [hnullability, hnullability]
      exact hequal₁
    obtain ⟨s₃, hs₃, -, htruth₃⟩ := exists_carryNullability hequal₂
    have hback : carryTruth equal right (assume left) s₃ = some s₃ := by
      rcases truth_assumed hs₂ with ⟨-, rfl⟩ | ⟨-, hb⟩
      · exact carryTruth_of_none (by rw [htruth₃, htruth₁, htr])
      · have ha : s₂.truth left = some a := truth_of_assume hs₂ (by rw [htruth₁, htl])
        rw [carryTruth_of_some (by rw [htruth₃, hb])]
        refine assume_truth_held ?_
        rw [htruth₃, ha]
        cases equal <;> cases a <;> rfl
    exact ⟨equal, s₃, equate_of_steps hs₁ hforth hs₃ hback⟩

/-! ## Conditions -/

/-- Two values can be compared one way or the other unless this is muddled. -/
theorem exists_equate (hopen : s.truth v = none) (h : ¬s.Muddled v)
    (hoperands : v.operands = [left, right]) (hclear : ∀ o ∈ v.operands, ¬s.Muddled o)
    (hfeasible : ∀ o ∈ v.operands, ∀ s : State, ¬s.Muddled o →
      ∃ a s', assume o (.truth a) s = some s') :
    ∃ equal s', equate equal left right s = some s' := by
  have hl : left ∈ v.operands := by simp [hoperands]
  have hr : right ∈ v.operands := by simp [hoperands]
  by_cases htruthlike :
      (s.truth left ≠ none ∨ s.truth right ≠ none) ∧ s.Truthlike left ∧ s.Truthlike right
  · obtain ⟨hknown, hleft, hright⟩ := htruthlike
    refine exists_equate_of_truthlike (hfeasible left hl) (hfeasible right hr) (hclear left hl)
      (hclear right hr) hknown ?_ ?_
    · exact fun hnull => h (.compare hopen hoperands hknown hleft hright (.inl hnull))
    · exact fun hnull => h (.compare hopen hoperands hknown hleft hright (.inr hnull))
  · refine exists_equate_of_open ?_
    unfold Truthlike at htruthlike
    by_cases htl : s.truth left = none <;> by_cases htr : s.truth right = none <;>
      simp_all

/-- The truth of a condition can be carried on one way or the other if what it negates can be
assumed to hold or to fail, and what it compares can be compared. -/
theorem exists_spread
    (hnegated : ∀ o, v.operands = [o] → ∃ a s', assume o (.truth a) s = some s')
    (hcompared : ∀ left right, v.operands = [left, right] →
      ∃ equal s', equate equal left right s = some s') :
    ∃ a s', spread (.truth a) v s = some s' := by
  cases v with
  | not id operand =>
    obtain ⟨a, s', hassume⟩ := hnegated operand rfl
    refine ⟨a.opposite, s', ?_⟩
    cases a <;> exact hassume
  | equal id left right =>
    obtain ⟨equal, s', hequate⟩ := hcompared left right rfl
    refine ⟨if equal then .holds else .fails, s', ?_⟩
    cases equal <;> exact hequate
  | notEqual id left right =>
    obtain ⟨equal, s', hequate⟩ := hcompared left right rfl
    refine ⟨if equal then .fails else .holds, s', ?_⟩
    cases equal <;> exact hequate
  | unknown | null | self | bool | fresh | widened => exact ⟨.holds, s, rfl⟩

/-- An open condition can be assumed if this can be carried on to its operands: what is recorded
about the condition itself does not matter for them. -/
theorem exists_assume_iff_spread {l : List Value} (hl : Ledger l) (hv : v ∈ l)
    (hopen : s.truth v = none) (hknown : v.isUnknown = false) (a : Truth) :
    (∃ s', assume v (.truth a) s = some s') ↔ ∃ s', spread (.truth a) v s = some s' := by
  have hparts : ∀ u : Value, (∃ o ∈ v.operands, u.Part o) → u.id ≠ v.id := by
    rintro u ⟨o, ho, hu⟩
    obtain ⟨hmem, hlt⟩ := hl.operand hv ho
    have hle := (hl.part hu hmem).2
    omega
  have hsimulates : ∀ o ∈ v.operands, (∃ o' ∈ v.operands, o.Part o') ∧
      Below.Simulates (fun u => ∃ o ∈ v.operands, u.Part o) o :=
    fun o ho => ⟨⟨o, ho, .refl o⟩, Below.simulates fun u hu => ⟨o, ho, hu⟩⟩
  rw [assume_truth, if_neg (by simp [hknown]), hopen]
  constructor
  · rintro ⟨s', hspread⟩
    obtain ⟨s'', hs'', -⟩ := (Below.record_right s _ hparts).spread hsimulates hspread
    exact ⟨s'', hs''⟩
  · rintro ⟨s', hspread⟩
    obtain ⟨s'', hs'', -⟩ := (Below.record_left s _ hparts).spread hsimulates hspread
    exact ⟨s'', hs''⟩

/-- An open condition can be assumed to hold or to fail if one of the two can be carried on. -/
theorem exists_assume_of_spread {l : List Value} (hl : Ledger l) (hv : v ∈ l)
    (hopen : s.truth v = none) (h : ∃ a s', spread (.truth a) v s = some s') :
    ∃ a s', assume v (.truth a) s = some s' := by
  obtain ⟨a, hspread⟩ := h
  cases hunknown : v.isUnknown with
  | true => exact ⟨a, s, by rw [assume_truth, if_pos hunknown]⟩
  | false => exact ⟨a, (exists_assume_iff_spread hl hv hopen hunknown a).2 hspread⟩

/-- A condition can be assumed to hold or to fail unless the facts about it are muddled. -/
theorem exists_assume_truth {l : List Value} (hl : Ledger l) (hv : v ∈ l) (h : ¬s.Muddled v) :
    ∃ a s', assume v (.truth a) s = some s' := by
  induction v using Value.operandInduction generalizing s with
  | h v ih =>
    cases hopen : s.truth v with
    | some a => exact ⟨a, s, assume_truth_held hopen⟩
    | none =>
      have hclear : ∀ o ∈ v.operands, ¬s.Muddled o :=
        fun o ho hmuddled => h (.operand hopen ho hmuddled)
      have hfeasible : ∀ o ∈ v.operands, ∀ s : State, ¬s.Muddled o →
          ∃ a s', assume o (.truth a) s = some s' :=
        fun o ho s hs => ih o ho (hl.operand hv ho).1 hs
      refine exists_assume_of_spread hl hv hopen (exists_spread (fun o hone => ?_)
        fun left right htwo => exists_equate hopen h htwo hclear hfeasible)
      have hmem : o ∈ v.operands := by simp [hone]
      exact hfeasible o hmem s (hclear o hmem)

/-! ## Contrary facts -/

/-- What is known of two values contradicts that they are equal and that they differ: their truth is
the same but their nullability is not, or both are null but their truth is not the same. -/
def Clash (s : State) (left right : Value) : Prop :=
  ∃ a b, s.truth left = some a ∧ s.truth right = some b ∧
    (a = b ∧ (∃ m n, s.nullability left = some m ∧ s.nullability right = some n ∧ m ≠ n) ∨
      a ≠ b ∧ s.BothNull left right)

/-- Values of known truth can be compared one way or the other unless the facts about them clash. -/
theorem exists_equate_of_known {a b : Truth} (ha : s.truth left = some a)
    (hb : s.truth right = some b) (h : ¬s.Clash left right) :
    ∃ equal s', equate equal left right s = some s' := by
  obtain ⟨equal, hsuits, hforth, hback⟩ : ∃ equal : Bool, s.Suits equal left right ∧
      (if equal then a else a.opposite) = b ∧ (if equal then b else b.opposite) = a := by
    by_cases hab : a = b
    · refine ⟨true, fun m n hm hn => ?_, hab, hab.symm⟩
      by_cases hne : m = n
      · exact hne
      · exact absurd ⟨a, b, ha, hb, .inl ⟨hab, m, n, hm, hn, hne⟩⟩ h
    · refine ⟨false, fun hnull => h ⟨a, b, ha, hb, .inr ⟨hab, hnull⟩⟩, ?_⟩
      cases a <;> cases b <;> simp_all [Truth.opposite]
  obtain ⟨s₁, hs₁, hsuits₁, htruth₁⟩ := exists_carryNullability hsuits
  obtain ⟨s₂, hs₂, -, htruth₂⟩ := exists_carryNullability (suits_comm.1 hsuits₁)
  refine ⟨equal, s₂, equate_of_steps hs₁ ?_ hs₂ ?_⟩
  · rw [carryTruth_of_some (by rw [htruth₁, ha]), hforth]
    exact assume_truth_held (by rw [htruth₁, hb])
  · rw [carryTruth_of_some (by rw [htruth₂, htruth₁, hb]), hback]
    exact assume_truth_held (by rw [htruth₂, htruth₁, ha])

/-- An assumption that contradicts the known nullability is refused. -/
theorem assume_nullability_refused {m : Nullability} (hknown : v.isUnknown = false)
    (h : s.nullability v = some n) (hne : n ≠ m) : assume v (.nullability m) s = none := by
  rw [assume_nullability, if_neg (by simp [hknown]), h]
  exact if_neg hne

/-- An assumption that contradicts the known truth is refused. -/
theorem assume_truth_refused {a b : Truth} (hknown : v.isUnknown = false)
    (h : s.truth v = some b) (hne : b ≠ a) : assume v (.truth a) s = none := by
  rw [assume_truth, if_neg (by simp [hknown]), h]
  exact if_neg hne

/-- What suits the known nullability of two values is carried on without any change. -/
theorem carryNullability_held (hm : s.nullability u = some m) (hn : s.nullability v = some n)
    (h : s.Suits equal u v) : carryNullability equal u (assume v) s = some s := by
  unfold carryNullability
  rw [hm]
  cases equal with
  | true =>
    obtain rfl := h m n hm hn
    exact assume_nullability_held hn
  | false =>
    cases m with
    | notNull => rfl
    | null =>
      cases n with
      | null => exact absurd ⟨hm, hn⟩ h
      | notNull => exact assume_nullability_held hn

/-- What does not suit the known nullability of two values is refused. -/
theorem carryNullability_refused (hknown : v.isUnknown = false) (hm : s.nullability u = some m)
    (hn : s.nullability v = some n) (h : ¬s.Suits equal u v) :
    carryNullability equal u (assume v) s = none := by
  unfold carryNullability
  rw [hm]
  cases equal with
  | true =>
    refine assume_nullability_refused hknown hn fun heq => h fun m' n' hm' hn' => ?_
    rw [hm] at hm'
    rw [hn] at hn'
    exact Option.some.inj (hm'.symm.trans (heq ▸ hn'))
  | false =>
    obtain ⟨hu, hv⟩ : s.BothNull u v := Classical.not_not.1 h
    obtain rfl : m = .null := Option.some.inj (hm.symm.trans hu)
    exact assume_nullability_refused hknown hv (by simp)

/-- Where the facts about two values clash, they are neither equal nor do they differ. -/
theorem Clash.equate (h : s.Clash left right) (hknown : right.isUnknown = false) (equal : Bool) :
    equate equal left right s = none := by
  obtain ⟨a, b, ha, hb, hcases⟩ := h
  -- what suits the nullability of the two contradicts their truth
  obtain ⟨m, n, hm, hn, hclash⟩ : ∃ m n, s.nullability left = some m ∧
      s.nullability right = some n ∧
        (s.Suits equal left right → (if equal then a else a.opposite) ≠ b) := by
    rcases hcases with ⟨rfl, m, n, hm, hn, hne⟩ | ⟨hab, hleft, hright⟩
    · refine ⟨m, n, hm, hn, fun hsuits => ?_⟩
      cases equal with
      | true => exact absurd (hsuits m n hm hn) hne
      | false => cases a <;> simp [Truth.opposite]
    · refine ⟨.null, .null, hleft, hright, fun hsuits => ?_⟩
      cases equal with
      | true => exact hab
      | false => exact absurd ⟨hleft, hright⟩ hsuits
  suffices hcarry : carry equal left (assume right) s = none by rw [State.equate, hcarry]; rfl
  rw [carry_eq]
  by_cases hsuits : s.Suits equal left right
  · rw [carryNullability_held hm hn hsuits, Option.bind_some, carryTruth_of_some ha]
    exact assume_truth_refused hknown hb (hclash hsuits).symm
  · rw [carryNullability_refused hknown hm hn hsuits, Option.bind_none]

/-- The facts about an open condition are contrary to both outcomes: the facts about two values of
known truth that it compares clash, or those about the condition that it negates are contrary. Where
it compares a value of known truth with an open condition, the facts are muddled. -/
inductive Contrary (s : State) : Value → Prop where
  /-- Two values of known truth are compared, and the facts about them clash. -/
  | clash {v left right : Value} (hopen : s.truth v = none) (hoperands : v.operands = [left, right])
    (h : s.Clash left right) : Contrary s v
  /-- A value of known truth is compared with an open condition, and the facts are muddled. -/
  | nested {v o u : Value} (ho : o ∈ v.operands) (hopen : s.truth o = none)
    (hcondition : o.operands ≠ []) (hu : u ∈ v.operands) (hknown : s.truth u ≠ none)
    (h : s.Muddled v) : Contrary s v
  /-- The facts about the condition that is negated are contrary. -/
  | negation {v operand : Value} (hopen : s.truth v = none) (hoperands : v.operands = [operand])
    (h : Contrary s operand) : Contrary s v

/-- Contrary facts are muddled. -/
theorem Contrary.muddled (h : s.Contrary v) : s.Muddled v := by
  induction h with
  | @clash v left right hopen hoperands h =>
    obtain ⟨a, b, ha, hb, hcases⟩ := h
    refine .compare hopen hoperands (.inl (by simp [ha])) (.inl (by simp [ha]))
      (.inl (by simp [hb])) ?_
    rcases hcases with ⟨-, m, n, hm, hn, hne⟩ | ⟨-, hleft, -⟩
    · cases m with
      | null => exact .inl hm
      | notNull =>
        cases n with
        | null => exact .inr hn
        | notNull => exact absurd rfl hne
    · exact .inl hleft
  | nested _ _ _ _ _ h => exact h
  | negation hopen hoperands _ ih => exact .operand hopen (by simp [hoperands]) ih

/-- Two values can be compared one way or the other unless this is contrary to the facts. -/
theorem exists_equate_of_not_contrary (hopen : s.truth v = none) (h : ¬s.Contrary v)
    (hoperands : v.operands = [left, right])
    (hleaf : ∀ o ∈ v.operands, s.truth o = none → (∃ u ∈ v.operands, s.truth u ≠ none) →
      o.operands = []) :
    ∃ equal s', equate equal left right s = some s' := by
  have hl : left ∈ v.operands := by simp [hoperands]
  have hr : right ∈ v.operands := by simp [hoperands]
  cases htl : s.truth left with
  | none =>
    cases htr : s.truth right with
    | none => exact exists_equate_of_open (.inl ⟨htl, .inl htr⟩)
    | some b =>
      exact exists_equate_of_open (.inl ⟨htl, .inr (hleaf left hl htl ⟨right, hr, by simp [htr]⟩)⟩)
  | some a =>
    cases htr : s.truth right with
    | none =>
      exact exists_equate_of_open (.inr ⟨htr, hleaf right hr htr ⟨left, hl, by simp [htl]⟩⟩)
    | some b =>
      exact exists_equate_of_known htl htr fun hclash => h (.clash hopen hoperands hclash)

/-- A condition can be assumed to hold or to fail unless the facts are contrary to both. -/
theorem exists_assume_of_not_contrary {l : List Value} (hl : Ledger l) (hv : v ∈ l)
    (h : ¬s.Contrary v) : ∃ a s', assume v (.truth a) s = some s' := by
  induction v using Value.operandInduction with
  | h v ih =>
    cases hopen : s.truth v with
    | some a => exact ⟨a, s, assume_truth_held hopen⟩
    | none =>
      by_cases hnested : ∃ o ∈ v.operands, s.truth o = none ∧ o.operands ≠ [] ∧
          ∃ u ∈ v.operands, s.truth u ≠ none
      · obtain ⟨o, ho, hnone, hcondition, u, hu, hknown⟩ := hnested
        exact exists_assume_truth hl hv
          fun hmuddled => h (.nested ho hnone hcondition hu hknown hmuddled)
      · have hleaf : ∀ o ∈ v.operands, s.truth o = none → (∃ u ∈ v.operands, s.truth u ≠ none) →
            o.operands = [] := by
          intro o ho hnone hknown
          by_cases hcondition : o.operands = []
          · exact hcondition
          · exact absurd ⟨o, ho, hnone, hcondition, hknown⟩ hnested
        refine exists_assume_of_spread hl hv hopen (exists_spread (fun o hone => ?_)
          fun left right htwo => exists_equate_of_not_contrary hopen h htwo hleaf)
        have hmem : o ∈ v.operands := by simp [hone]
        exact ih o hmem (hl.operand hv hmem).1 fun hcontrary => h (.negation hopen hone hcontrary)

/-- A condition has another identity than the unknown value. -/
theorem isUnknown_of_operand {l : List Value} (hl : Ledger l) (hv : v ∈ l) (hu : u ∈ v.operands) :
    v.isUnknown = false := by
  have hlt := (hl.operand hv hu).2
  have hne : v.id ≠ Value.unknown.id := Nat.ne_of_gt (Nat.lt_of_le_of_lt (Nat.zero_le _) hlt)
  simpa [Value.isUnknown] using hne

/-- An open condition cannot be assumed if this cannot be carried on to its operands. -/
theorem assume_of_spread_none {l : List Value} (hl : Ledger l) (hv : v ∈ l)
    (hu : u ∈ v.operands) (hopen : s.truth v = none) {a : Truth}
    (h : spread (.truth a) v s = none) : assume v (.truth a) s = none := by
  have hiff := exists_assume_iff_spread hl hv hopen (isUnknown_of_operand hl hv hu) a
  simpa [h, Option.eq_none_iff_forall_not_mem] using hiff

/-- A condition over values that are no conditions can be assumed neither to hold nor to fail if the
facts are contrary to both. -/
theorem Contrary.refused {l : List Value} (hl : Ledger l)
    (hs : s.facts.get? Value.unknown.id = none) (h : s.Contrary v) (hv : v ∈ l)
    (hplain : v.Plain) (a : Truth) : assume v (.truth a) s = none := by
  induction h generalizing a with
  | @clash v left right hopen hoperands hclash =>
    have hknown : right.isUnknown = false := by
      obtain ⟨-, b, -, hb, -⟩ := hclash
      cases hunknown : right.isUnknown with
      | false => rfl
      | true => simp [truth_of_isUnknown hunknown hs] at hb
    refine assume_of_spread_none hl hv (by simp [hoperands] : left ∈ v.operands) hopen ?_
    cases v with
    | equal id l r | notEqual id l r =>
      obtain ⟨rfl, rfl⟩ : l = left ∧ r = right := by simpa [Value.operands] using hoperands
      exact hclash.equate hknown _
    | unknown | null | self | bool | fresh | widened | not => cases hoperands
  | nested ho hopen hcondition hu hknown =>
    -- what a plain condition compares has no operands
    cases hplain with
    | leaf hoperands => simp [hoperands] at ho
    | compare hoperands hleft hright =>
      simp only [hoperands, List.mem_cons, List.not_mem_nil, or_false] at ho
      rcases ho with rfl | rfl
      · exact absurd hleft hcondition
      · exact absurd hright hcondition
    | negation hoperands =>
      rw [hoperands, List.mem_singleton] at ho hu
      rw [hu, ← ho] at hknown
      exact absurd hopen hknown
  | @negation v operand hopen hoperands _ ih =>
    have hmem : operand ∈ v.operands := by simp [hoperands]
    have hoperand : operand.Plain := by
      cases hplain with
      | leaf hnone => simp [hnone] at hoperands
      | compare htwo => simp [htwo] at hoperands
      | negation hone h =>
        obtain ⟨rfl, -⟩ := List.cons.inj (hone.symm.trans hoperands)
        exact h
    refine assume_of_spread_none hl hv hmem hopen ?_
    cases v with
    | not id o =>
      obtain rfl : o = operand := by simpa [Value.operands] using hoperands
      exact ih (hl.operand hv hmem).1 hoperand a.opposite
    | unknown | null | self | bool | fresh | widened | equal | notEqual => cases hoperands

/-- A condition over values that are no conditions can be assumed neither to hold nor to fail
exactly if the facts are contrary to both. -/
theorem contrary_iff_of_plain {l : List Value} (hl : Ledger l)
    (hs : s.facts.get? Value.unknown.id = none) (hv : v ∈ l) (hplain : v.Plain) :
    s.Contrary v ↔ ∀ a, assume v (.truth a) s = none := by
  constructor
  · intro h a
    exact h.refused hl hs hv hplain a
  · intro hlost
    by_cases hcontrary : s.Contrary v
    · exact hcontrary
    · obtain ⟨a, s', hassume⟩ := exists_assume_of_not_contrary hl hv hcontrary
      simp [hlost a] at hassume

end State

/-! ## Branches -/

/-- Two branches to different blocks do not have the same target. -/
theorem Run.sameTarget_eq_false {edges : List FlowEdge} {e e' : FlowEdge} (he : e ∈ edges)
    (he' : e' ∈ edges) (hbranch : e.label.isBranch = true) (hbranch' : e'.label.isBranch = true)
    (hne : e.tail ≠ e'.tail) : sameTarget edges = false := by
  have hmem : ∀ {e : FlowEdge}, e ∈ edges → e.label.isBranch = true →
      e.tail ∈ (edges.filter (·.label.isBranch)).map (·.tail) :=
    fun he hbranch => List.mem_map_of_mem (List.mem_filter.2 ⟨he, hbranch⟩)
  have htail := hmem he hbranch
  have htail' := hmem he' hbranch'
  unfold sameTarget
  split
  · next a b heq =>
    rw [heq] at htail htail'
    rw [beq_eq_false_iff_ne]
    rintro rfl
    simp only [List.mem_cons, List.not_mem_nil, or_false, or_self] at htail htail'
    exact hne (htail.trans htail'.symm)
  · rfl

/-- A side of a branch that can be assumed is one through which control departs. -/
theorem Departure.ofBranch_of_some {tail : Nat} {a : Truth} {condition : Value} {s t : State}
    (h : State.assume condition (.truth a) s = some t) :
    ofBranch tail a condition s = .into tail t := by
  rw [ofBranch, h]

/-- A branch never loses both outcomes unless the facts about the condition are contrary to both.
Whenever an exploration with checks of this library leaves a block with two sides that lead to
different blocks, the condition can be assumed to hold, and control departs to the one block, or it
can be assumed to fail, and control departs to the other. If no condition is among what the
condition compares, both outcomes are lost exactly if the facts are contrary. -/
theorem branch_keeps_an_outcome {plan : Plan} {checks : List Check}
    (hchecks : ∀ c ∈ checks, c.Standard) {run : Run} {point : Point} {s : State}
    (hx : Reached plan checks ⟨run, .executing point [] s⟩) {e e' : FlowEdge}
    (he : e ∈ plan.edgesOut point.block) (hlabel : e.label = .whenTrue)
    (he' : e' ∈ plan.edgesOut point.block) (hlabel' : e'.label = .whenFalse)
    (hne : e.tail ≠ e'.tail) :
    (¬s.pop.2.Contrary s.pop.1 →
        (∃ t, State.assume s.pop.1 (.truth .holds) s.pop.2 = some t ∧
          .into e.tail t ∈ plan.departures point.block s) ∨
        ∃ t, State.assume s.pop.1 (.truth .fails) s.pop.2 = some t ∧
          .into e'.tail t ∈ plan.departures point.block s) ∧
      (s.pop.1.Plain → (s.pop.2.Contrary s.pop.1 ↔
        ∀ a, State.assume s.pop.1 (.truth a) s.pop.2 = none)) := by
  obtain ⟨l, hdrawn, -⟩ := hx.coherent hchecks
  have hs : s.DrawnFrom l := hdrawn.stage s List.mem_cons_self
  have hmem : s.pop.1 ∈ l := by
    rw [State.pop_eq]
    exact hs.peek_mem hdrawn.ledger 0
  refine ⟨fun hclear => ?_, fun hplain => ?_⟩
  · have hdifferent : Run.sameTarget (plan.edgesOut point.block) = false :=
      Run.sameTarget_eq_false he he' (by rw [hlabel]; rfl) (by rw [hlabel']; rfl) hne
    obtain ⟨a, t, hassume⟩ := State.exists_assume_of_not_contrary hdrawn.ledger hmem hclear
    have hdeparts : ∀ {e : FlowEdge}, e ∈ plan.edgesOut point.block →
        Departure.ofEdge false s e = some (.ofBranch e.tail a s.pop.1 s.pop.2) →
        .into e.tail t ∈ plan.departures point.block s := by
      intro e he hedge
      refine List.mem_filterMap.2 ⟨e, he, ?_⟩
      rw [hdifferent, hedge, Departure.ofBranch_of_some hassume]
    cases a with
    | holds => exact .inl ⟨t, hassume, hdeparts he (by rw [Departure.ofEdge, hlabel]; rfl)⟩
    | fails => exact .inr ⟨t, hassume, hdeparts he' (by rw [Departure.ofEdge, hlabel']; rfl)⟩
  · have hfacts : s.pop.2.facts.get? Value.unknown.id = none := by
      rw [State.pop_eq]
      cases hfact : s.facts.get? Value.unknown.id with
      | none => rfl
      | some f => exact absurd rfl (hs.fact_mem hfact).2.2
    exact State.contrary_iff_of_plain hdrawn.ledger hfacts hmem hplain

/-- A comparison of values that are not held to be null and have no operands is not muddled. -/
theorem State.not_muddled_of_operands {s : State} {v : Value}
    (h : ∀ o ∈ v.operands, o.operands = [] ∧ s.nullability o ≠ some .null) : ¬s.Muddled v := by
  intro hmuddled
  have hleaf : ∀ {o : Value}, o.operands = [] → ¬s.Muddled o := by
    intro o ho hmuddled
    cases hmuddled with
    | compare _ hoperands => simp [ho] at hoperands
    | operand _ hmem => simp [ho] at hmem
  cases hmuddled with
  | @compare _ left right _ hoperands _ _ _ hnull =>
    rcases hnull with hnull | hnull
    · exact (h left (by simp [hoperands])).2 hnull
    · exact (h right (by simp [hoperands])).2 hnull
  | operand _ ho hmuddled => exact hleaf (h _ ho).1 hmuddled

namespace NullAndTrue

/-- The parameter. -/
def p : Symbol := ⟨"p", .parameter⟩

/-- What the nodes mean. -/
def semantics : Semantics where
  symbol n := if n.val ∈ [1, 4, 5] then some p else none
  typeOf _ := none
  method _ := none
  constant _ := none

/-- Whether it is null or not, `p` is asked for its truth and then compared with true. -/
def blocks : List Block := [
  ⟨0, [⟨⟨1⟩, .identifier, none⟩, ⟨⟨2⟩, .literal .null, none⟩, ⟨⟨3⟩, .binary .equals, none⟩]⟩,
  ⟨1, [⟨⟨4⟩, .identifier, none⟩]⟩,
  ⟨2, [⟨⟨5⟩, .identifier, none⟩, ⟨⟨6⟩, .literal (.bool true), none⟩, ⟨⟨7⟩, .binary .equals, none⟩]⟩,
  ⟨3, []⟩, ⟨4, []⟩, ⟨5, []⟩]

/-- The block that asks for the truth of `p` is entered from two sides. -/
def edges : List FlowEdge :=
  [⟨0, 1, .whenTrue⟩, ⟨0, 4, .whenFalse⟩, ⟨4, 1, .jump⟩, ⟨1, 2, .whenTrue⟩, ⟨1, 5, .whenFalse⟩,
    ⟨2, 3, .whenTrue⟩, ⟨2, 5, .whenFalse⟩]

/-- The program. -/
def sample : Sample := ⟨[p], semantics, blocks, edges, 1⟩

theorem edgesOut_two :
    sample.plan.edgesOut 2 = [⟨2, 3, .whenTrue⟩, ⟨2, 5, .whenFalse⟩] := by
  decide +kernel

/-- The comparison with true is left, and no condition is among what is compared. -/
def isLeft (point : Point) (s : State) : Bool :=
  point.block == 2 &&
    match s.pop.1.operands with
    | [left, right] => left.operands.isEmpty && right.operands.isEmpty
    | _ => false

/-- The comparison with true can be assumed neither to hold nor to fail. -/
def isLost : Situation → Bool
  | ⟨_, .executing point [] s⟩ =>
    isLeft point s && (State.assume s.pop.1 (.truth .holds) s.pop.2).isNone &&
      (State.assume s.pop.1 (.truth .fails) s.pop.2).isNone
  | _ => false

/-- The values compared with each other are not held to be null. -/
def isClear : Situation → Bool
  | ⟨_, .executing point [] s⟩ =>
    isLeft point s && s.pop.1.operands.all fun o => s.pop.2.nullability o != some .null
  | _ => false

/-- A comparison that is left is one of the condition on the stack, and the condition is plain. -/
theorem plain_of_isLeft {point : Point} {s : State} (h : isLeft point s = true) :
    point.block = 2 ∧ s.pop.1.operands.length = 2 ∧ (∀ o ∈ s.pop.1.operands, o.operands = []) ∧
      s.pop.1.Plain := by
  obtain ⟨hblock, h⟩ := Bool.and_eq_true_iff.1 h
  split at h
  · next left right hoperands =>
    simp only [Bool.and_eq_true, List.isEmpty_iff] at h
    refine ⟨eq_of_beq hblock, by simp [hoperands], ?_, .compare hoperands h.1 h.2⟩
    simpa [hoperands] using h
  · cases h

theorem isLost_after :
    ((Situation.entering sample.plan (.start sample.checks)).after sample.plan 24).any isLost =
      true := by
  decide +kernel

theorem isClear_after :
    ((Situation.entering sample.plan (.start sample.checks)).after sample.plan 41).any isClear =
      true := by
  decide +kernel

end NullAndTrue

open NullAndTrue in
/-- On the path on which `p` is not null one outcome of the comparison is left; on the path on which
`p` is null and true the facts are contrary to both. -/
theorem branch_keeps_an_outcome_nullAndTrue :
    (∃ run point s, Reached sample.plan sample.checks ⟨run, .executing point [] s⟩ ∧
      point.block = 2 ∧ s.pop.1.operands.length = 2 ∧
      ((∃ t, State.assume s.pop.1 (.truth .holds) s.pop.2 = some t ∧
          .into 3 t ∈ sample.plan.departures 2 s) ∨
        ∃ t, State.assume s.pop.1 (.truth .fails) s.pop.2 = some t ∧
          .into 5 t ∈ sample.plan.departures 2 s)) ∧
      ∃ run point s, Reached sample.plan sample.checks ⟨run, .executing point [] s⟩ ∧
        point.block = 2 ∧ s.pop.1.Plain ∧ s.pop.2.Contrary s.pop.1 := by
  have houtcome : ∀ {run point s}, Reached sample.plan sample.checks ⟨run, .executing point [] s⟩ →
      point.block = 2 → _ := fun hreached hblock =>
    branch_keeps_an_outcome (fun c hc => Registry.standard_enabled hc) hreached
      (show (⟨2, 3, .whenTrue⟩ : FlowEdge) ∈ _ by simp [hblock, edgesOut_two]) rfl
      (show (⟨2, 5, .whenFalse⟩ : FlowEdge) ∈ _ by simp [hblock, edgesOut_two]) rfl (by decide)
  constructor
  · obtain ⟨x, hx, hclear⟩ := (Option.any_eq_true _ _).1 isClear_after
    unfold isClear at hclear
    split at hclear
    · next run point s =>
      obtain ⟨hleft, hnull⟩ := Bool.and_eq_true_iff.1 hclear
      simp only [List.all_eq_true, bne_iff_ne] at hnull
      obtain ⟨hblock, hlength, hleaves, -⟩ := plain_of_isLeft hleft
      have hreached := Reached.of_after hx
      refine ⟨run, point, s, hreached, hblock, hlength, ?_⟩
      have hkeeps := (houtcome hreached hblock).1 fun hcontrary =>
        State.not_muddled_of_operands (fun o ho => ⟨hleaves o ho, hnull o ho⟩) hcontrary.muddled
      rwa [hblock] at hkeeps
    · cases hclear
  · obtain ⟨x, hx, hlost⟩ := (Option.any_eq_true _ _).1 isLost_after
    unfold isLost at hlost
    split at hlost
    · next run point s =>
      simp only [Bool.and_eq_true, Option.isNone_iff_eq_none] at hlost
      obtain ⟨⟨hleft, hholds⟩, hfails⟩ := hlost
      obtain ⟨hblock, -, -, hplain⟩ := plain_of_isLeft hleft
      have hreached := Reached.of_after hx
      refine ⟨run, point, s, hreached, hblock, hplain, ((houtcome hreached hblock).2 hplain).2 ?_⟩
      intro a
      cases a with
      | holds => exact hholds
      | fails => exact hfails
    · cases hlost

open NullAndTrue in
/-- On the path on which `p` is null and true both outcomes of the comparison are lost, and the
exploration is completed without them. -/
theorem branch_loses_both_outcomes :
    ((Run.start sample.checks).explore sample.plan).1 = .completed ∧
      ∃ run point s e e', Reached sample.plan sample.checks ⟨run, .executing point [] s⟩ ∧
        e ∈ sample.plan.edgesOut point.block ∧ e.label = .whenTrue ∧
        e' ∈ sample.plan.edgesOut point.block ∧ e'.label = .whenFalse ∧ e.tail ≠ e'.tail ∧
        State.assume s.pop.1 (.truth .holds) s.pop.2 = none ∧
        State.assume s.pop.1 (.truth .fails) s.pop.2 = none := by
  refine ⟨by decide +kernel, ?_⟩
  obtain ⟨x, hx, hlost⟩ := (Option.any_eq_true _ _).1 isLost_after
  unfold isLost at hlost
  split at hlost
  · next run point s =>
    simp only [Bool.and_eq_true, Option.isNone_iff_eq_none] at hlost
    obtain ⟨⟨hleft, hholds⟩, hfails⟩ := hlost
    obtain ⟨hblock, -⟩ := plain_of_isLeft hleft
    refine ⟨run, point, s, ⟨2, 3, .whenTrue⟩, ⟨2, 5, .whenFalse⟩, .of_after hx, ?_, rfl, ?_, rfl,
      by decide, hholds, hfails⟩
    · simp [hblock, edgesOut_two]
    · simp [hblock, edgesOut_two]
  · cases hlost

end Pathwise
