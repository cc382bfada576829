import Pathwise.Proofs.Meaning

/-!
# True assumptions are never refused

Data are assigned to a value and its parts, and interpret them. What the nullability and the truth
of one part say about another is then true as well, so an assumption that is true of the value goes
through, and all it records on the way is true: a path is only given up if no valuation takes it.
-/

namespace Pathwise.State

variable {data : Value → Datum} {v o other : Value} {P : State → Prop} {c : Constraint}
  {s : State}

/-- A property of states goes with data that interpret the parts of a value: what a state holds of a
part is true of its datum, and the property stays if what is true of a part is recorded. -/
structure GoesWith (data : Value → Datum) (v : Value) (P : State → Prop) : Prop where
  /-- The data interpret the parts. -/
  interpreted : ∀ {u : Value}, u.Part v → u.Interpreted data
  /-- What is held is true. -/
  sound : ∀ {u s d c}, u.Part v → P s → s.constraint u d = some c → c.TrueOf (data u)
  /-- What is true may be recorded. -/
  record : ∀ {u s c}, u.Part v → u.isUnknown = false → P s → c.TrueOf (data u) → P (s.record u c)

namespace GoesWith

theorem operand (h : GoesWith data v P) (ho : o ∈ v.operands) : GoesWith data o P where
  interpreted hu := h.interpreted (.operand ho hu)
  sound hu := h.sound (.operand ho hu)
  record hu := h.record (.operand ho hu)

/-- The nullability that a state knows of a value is that of its datum. -/
theorem nullability (h : GoesWith data v P) (hs : P s) {n : Nullability}
    (hn : s.nullability v = some n) : (Constraint.nullability n).TrueOf (data v) := by
  obtain ⟨c, hc, hcn⟩ := Option.bind_eq_some_iff.1 hn
  have htrue := h.sound (.refl v) hs hc
  cases c with
  | nullability n' =>
    obtain rfl := Option.some.inj hcn
    exact htrue
  | truth | disposal | byteArray | saltSize => cases hcn

/-- The truth that a state knows of a value is that of its datum. -/
theorem truth (h : GoesWith data v P) (hs : P s) {t : Truth} (ht : s.truth v = some t) :
    (Constraint.truth t).TrueOf (data v) := by
  obtain ⟨c, hc, hct⟩ := Option.bind_eq_some_iff.1 ht
  have htrue := h.sound (.refl v) hs hc
  cases c with
  | truth t' =>
    obtain rfl := Option.some.inj hct
    exact htrue
  | nullability | disposal | byteArray | saltSize => cases hct

/-- The truth of a comparison is carried on to one of the values compared without being refused. -/
theorem carry {equal : Bool} (hother : GoesWith data other P)
    (hassume : ∀ c s, c.IsConcrete → c.TrueOf (data o) → P s →
      ∃ s', State.assume o c s = some s' ∧ P s')
    (hs : P s) (halike : (data other).Alike (data o))
    (hequal : equal = true ↔ data other = data o) :
    ∃ s', State.carry equal other (State.assume o) s = some s' ∧ P s' := by
  have hnullability : ∃ t, carryNullability equal other (State.assume o) s = some t ∧ P t := by
    unfold carryNullability
    split
    · next n hn =>
      have htrue := hother.nullability hs hn
      rw [hequal.1 rfl] at htrue
      exact hassume _ s (.inl rfl) htrue hs
    · next hn =>
      have htrue := hother.nullability hs hn
      refine hassume _ s (.inl rfl) (fun hnull => ?_) hs
      exact absurd (hequal.2 (Eq.trans htrue hnull.symm)) (by simp)
    · exact ⟨s, rfl, hs⟩
  obtain ⟨t, ht, hPt⟩ := hnullability
  rw [carry_eq, ht, Option.bind_some]
  unfold carryTruth
  split
  · next truth htruth =>
    have htrue := hother.truth hPt htruth
    refine hassume _ t (.inr rfl) ?_ hPt
    cases equal with
    | true =>
      rw [hequal.1 rfl] at htrue
      exact htrue
    | false =>
      -- the other datum is a truth value, so this one is the opposite truth value
      have hne : data other ≠ data o := fun h => Bool.noConfusion (hequal.2 h)
      unfold Datum.Alike at halike
      cases truth <;> simp only [Constraint.TrueOf] at htrue <;> rw [htrue] at hne halike <;>
        cases hdatum : data o with
        | null | object => simp [hdatum, Datum.isBool] at halike
        | bool b => cases b <;> simp_all [Constraint.TrueOf, Truth.opposite]
  · exact ⟨t, rfl, hPt⟩

theorem equate {left right : Value} {equal : Bool} (hleft : GoesWith data left P)
    (hright : GoesWith data right P)
    (hassume : ∀ o, o = left ∨ o = right → ∀ c s, c.IsConcrete → c.TrueOf (data o) → P s →
      ∃ s', State.assume o c s = some s' ∧ P s')
    (hs : P s) (halike : (data left).Alike (data right))
    (hequal : equal = true ↔ data left = data right) :
    ∃ s', State.equate equal left right s = some s' ∧ P s' := by
  obtain ⟨t, ht, hPt⟩ := hleft.carry (hassume right (.inr rfl)) hs halike hequal
  rw [State.equate, ht, Option.bind_some]
  exact hright.carry (hassume left (.inl rfl)) hPt halike.symm (hequal.trans eq_comm)

/-- A true constraint on a value is carried on to its operands without being refused. -/
theorem spread (h : GoesWith data v P)
    (hassume : ∀ o ∈ v.operands, ∀ c s, c.IsConcrete → c.TrueOf (data o) → P s →
      ∃ s', State.assume o c s = some s' ∧ P s')
    (hs : P s) (hc : c.TrueOf (data v)) : ∃ s', State.spread c v s = some s' ∧ P s' := by
  by_cases htruth : c.domain = .truth
  · obtain ⟨t, rfl⟩ : ∃ t, c = .truth t := by cases c <;> simp_all [Constraint.domain]
    have hv := h.interpreted (.refl v)
    cases v with
    | not id operand =>
      obtain ⟨b, hoperand, hnot⟩ := hv
      refine hassume operand (by simp [Value.operands]) _ _ (.inr rfl) ?_ hs
      rw [hnot] at hc
      cases t <;> cases b <;> simp_all [Constraint.TrueOf, Truth.opposite]
    | equal id left right | notEqual id left right =>
      obtain ⟨halike, hdatum⟩ := hv
      have hleft := h.operand (o := left) (by simp [Value.operands])
      have hright := h.operand (o := right) (by simp [Value.operands])
      refine hleft.equate hright (fun o ho => hassume o (by simpa [Value.operands] using ho)) hs
        halike ?_
      rw [hdatum] at hc
      cases t <;> simpa [Constraint.TrueOf] using hc
    | unknown | null | self | bool | fresh | widened => exact ⟨s, rfl, hs⟩
  · exact ⟨s, spread_of_not_truth htruth v s, hs⟩

/-- A true assumption is not refused. In a domain that says nothing about data it must be admitted
in the first place. -/
theorem assume (h : GoesWith data v P) (hs : P s) (hc : c.TrueOf (data v))
    (hadmits : ¬c.IsConcrete → s.Admits v c) : ∃ s', State.assume v c s = some s' ∧ P s' := by
  induction v using Value.operandInduction generalizing c s with
  | h v ih =>
    rw [assume_eq]
    split
    · exact ⟨s, rfl, hs⟩
    · next hk =>
      split
      · next held hheld =>
        have heq : held = c := by
          by_cases hconcrete : c.IsConcrete
          · exact Constraint.eq_of_trueOf hconcrete (domain_of_constraint hheld) hc
              (h.sound (.refl v) hs hheld)
          · have hadmitted := hadmits hconcrete
            simpa [Admits, hheld] using hadmitted
        exact ⟨s, by rw [if_pos heq], hs⟩
      · have hrecord : P (s.record v c) := h.record (.refl v) (by simpa using hk) hs hc
        refine h.spread (fun o ho c s hconcrete hc hs => ?_) hrecord hc
        exact ih o ho (h.operand ho) hs hc fun hnot => absurd hconcrete hnot

end GoesWith

section Ledger

variable {ν : Valuation} {l : List Value} {m : Memory}

/-- A true assumption about the nullability or the truth of a well typed value is never refused. -/
theorem Fits.assume (hl : Ledger l) (hs : s.Fits ν l m) (hv : v ∈ l) (htyped : v.WellTyped ν)
    (hconcrete : c.IsConcrete) (hc : c.TrueOf (v.datum ν)) :
    ∃ s', State.assume v c s = some s' ∧ s'.Fits ν l m := by
  have hgoes : GoesWith (Value.datum ν) v (Fits ν l m) := by
    refine ⟨fun hu => (htyped _ hu).interpreted, fun hu ht hheld => ?_, fun hu hk ht hc => ?_⟩
    · exact ht.models.trueOf_constraint hl ht.drawn (hl.part hu hv).1 hheld
    · have hmem := (hl.part hu hv).1
      exact ⟨ht.models.record hl ht.drawn hmem hc, ht.drawn.record hmem hk⟩
  exact hgoes.assume hs hc fun hnot => absurd hconcrete hnot

end Ledger

/-! ## Valuations by identity -/

section Identity

variable {ν : Valuation}

/-- A valuation satisfies a state if every constraint that is recorded under an identity is true of
the datum of the identity. -/
def SatisfiedBy (ν : Valuation) (s : State) : Prop :=
  ∀ id fact c, s.facts.get? id = some fact → fact.held.get? c.domain = some c → c.TrueOf (ν id)

theorem SatisfiedBy.trueOf_recorded (h : s.SatisfiedBy ν)
    (hc : (s.recorded v).get? c.domain = some c) : c.TrueOf (ν v.id) := by
  unfold recorded at hc
  split at hc
  · next f hf => exact h _ f c hf hc
  · simp at hc

theorem SatisfiedBy.record (h : s.SatisfiedBy ν) (hc : c.TrueOf (ν v.id)) :
    (s.record v c).SatisfiedBy ν := by
  intro i f c' hf hc'
  rw [facts_record] at hf
  split at hf
  · next hid =>
    obtain rfl := Option.some.inj hf
    rw [hid]
    rw [ConstraintSet.get?_insert] at hc'
    split at hc'
    · obtain rfl := Option.some.inj hc'
      exact hc
    · exact h.trueOf_recorded hc'
  · exact h i f c' hf hc'

/-- That a valuation satisfies the state goes with the data that it gives to identities. -/
theorem goesWith_satisfiedBy (hν : ∀ u : Value, u.Part v → u.Interpreted fun w => ν w.id) :
    GoesWith (fun w => ν w.id) v (SatisfiedBy ν) where
  interpreted hu := hν _ hu
  sound := by
    intro u s d c hu hs hc
    rcases Option.or_eq_some_iff.1 hc with hc | ⟨-, hc⟩
    · exact (hν u hu).trueOf_intrinsic hc
    · obtain rfl := ConstraintSet.domain_of_get? hc
      exact hs.trueOf_recorded hc
  record _ _ hs hc := hs.record hc

/-- An assumption never gives up a path that can be taken. A valuation of identities interprets the
parts of a value, satisfies the state, and makes the constraint true of the value; if the constraint
says nothing about data, the state holds no other member of its domain. Then the assumption is made:
nothing that held is lost, the constraint holds unless the value is the unknown one, and the
valuation satisfies the new state. -/
theorem satisfiable_assumption_made (ν : Valuation) (v : Value) (c : Constraint) (s : State)
    (hν : ∀ u : Value, u.Part v → u.Interpreted fun w => ν w.id) (hs : s.SatisfiedBy ν)
    (hc : c.TrueOf (ν v.id)) (hadmits : ¬c.IsConcrete → s.Admits v c) :
    ∃ s', assume v c s = some s' ∧ s'.SatisfiedBy ν ∧
      (v.isUnknown = false → s'.constraint v c.domain = some c) ∧
      ∀ u d held, s.constraint u d = some held → s'.constraint u d = some held := by
  obtain ⟨s', hassume, hs'⟩ := (goesWith_satisfiedBy hν).assume hs hc hadmits
  refine ⟨s', hassume, hs', constraint_assumed hassume, fun u d held hheld => ?_⟩
  exact constraint_of_assume hassume hheld

/-- A condition that says twice, in two ways, that the first value is not null. -/
def twice : Value :=
  .not 9 (.equal 8 (.equal 6 (.fresh 5) .null) (.notEqual 7 (.fresh 5) .null))

/-- The first value is an object, and all else is as it has to be. -/
def anObject : Valuation
  | 5 => .object 3
  | 6 | 8 => .bool false
  | 7 | 9 => .bool true
  | _ => .null

theorem interpreted_twice (u : Value) (hu : u.Part twice) :
    u.Interpreted fun w => anObject w.id := by
  have hleaf : ∀ u : Value, u.Part (.fresh 5) ∨ u.Part .null →
      u.Interpreted fun w => anObject w.id := by
    rintro u (hu | hu)
    · rw [hu.eq_of_operands_nil rfl]
      trivial
    · rw [hu.eq_of_operands_nil rfl]
      rfl
  have hboth : ∀ u : Value, u.Part (.equal 6 (.fresh 5) .null) ∨
      u.Part (.notEqual 7 (.fresh 5) .null) → u.Interpreted fun w => anObject w.id := by
    rintro u (hu | hu) <;> refine Value.forall_part ⟨rfl, rfl⟩ ?_ u hu <;>
      simpa [Value.operands] using ⟨fun u hu => hleaf u (.inl hu), fun u hu => hleaf u (.inr hu)⟩
  have hcompared : ∀ u : Value, u.Part (.equal 8 (.equal 6 (.fresh 5) .null)
      (.notEqual 7 (.fresh 5) .null)) → u.Interpreted fun w => anObject w.id := by
    refine Value.forall_part ⟨rfl, rfl⟩ ?_
    simpa [Value.operands] using ⟨fun u hu => hboth u (.inl hu), fun u hu => hboth u (.inr hu)⟩
  have hoperand : ∀ o ∈ twice.operands, ∀ u : Value, u.Part o →
      u.Interpreted fun w => anObject w.id := by
    simpa [twice, Value.operands] using hcompared
  exact Value.forall_part ⟨false, rfl, rfl⟩ hoperand u hu

/-- That the condition holds is carried on through its parts, to and fro, until it says of the value
deep down in them that it is not null. -/
theorem satisfiable_assumption_made_twice :
    let s := empty.record (.equal 6 (.fresh 5) .null) (.truth .fails)
    s.SatisfiedBy anObject ∧ s.nullability (.fresh 5) = none ∧
    (assume twice (.truth .holds) s).map (·.nullability (.fresh 5)) = some (some .notNull) ∧
    ∃ s', assume twice (.truth .holds) s = some s' ∧ s'.SatisfiedBy anObject := by
  have hs : (empty.record (.equal 6 (.fresh 5) .null) (.truth .fails)).SatisfiedBy anObject := by
    have hempty : empty.SatisfiedBy anObject := by
      intro id fact c hfact
      cases hfact
    exact hempty.record rfl
  obtain ⟨s', hassume, hs', -⟩ := satisfiable_assumption_made anObject twice (.truth .holds) _
    interpreted_twice hs rfl fun hnot => absurd (.inr rfl) hnot
  exact ⟨hs, rfl, rfl, s', hassume, hs'⟩

end Identity

end Pathwise.State
