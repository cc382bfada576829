import Pathwise.Proofs.Assume

/-!
# What a state says about concrete memories

A memory has a datum in every variable and on every place of its stack. A valuation gives data to
identities; a symbolic value then has a datum, and a state describes the memories that some
valuation makes out of it without breaking a fact about nullability or truth. The other domains of
facts say nothing about data.
-/

namespace Pathwise

/-- What a variable can hold when a program runs. -/
inductive Datum where
  /-- The null reference. -/
  | null
  /-- A truth value. -/
  | bool (b : Bool)
  /-- An object. -/
  | object (n : Nat)
  deriving DecidableEq, Repr

namespace Datum

/-- The object whose code runs. -/
def this : Datum := object 0

/-- Whether the datum is a truth value. -/
def isBool : Datum → Bool
  | bool _ => true
  | _ => false

/-- Two data are alike if both are truth values or none is. -/
def Alike (d e : Datum) : Prop := d.isBool = e.isBool

end Datum

/-- The variables and the stack of a running program. -/
structure Memory where
  /-- What each variable holds. -/
  store : Symbol → Datum
  /-- The evaluation stack, its top first. -/
  stack : List Datum

/-- A valuation gives a datum to each identity. -/
abbrev Valuation := Nat → Datum

/-- The datum of a symbolic value. Shared values and comparisons mean what they say; a negation
does as far as its operand is a truth value. -/
def Value.datum (ν : Valuation) : Value → Datum
  | .unknown => ν 0
  | .null => .null
  | .self => .this
  | .bool b => .bool b
  | .fresh id => ν id
  | .widened id _ _ => ν id
  | .equal _ left right => .bool (left.datum ν = right.datum ν)
  | .notEqual _ left right => .bool (left.datum ν ≠ right.datum ν)
  | .not id operand =>
    match operand.datum ν with
    | .bool b => .bool !b
    | _ => ν id

/-- Whether a constraint is true of a datum. -/
def Constraint.TrueOf : Constraint → Datum → Prop
  | .nullability .null, d => d = .null
  | .nullability .notNull, d => d ≠ .null
  | .truth .holds, d => d = .bool true
  | .truth .fails, d => d = .bool false
  | _, _ => True

/-- A valuation makes a memory out of a state. -/
structure State.Models (ν : Valuation) (s : State) (m : Memory) : Prop where
  /-- Each variable that is bound holds the datum of its value. -/
  lookup : ∀ {x v}, s.lookup x = some v → v.datum ν = m.store x
  /-- The stacks agree. -/
  stack : s.stack.map (Value.datum ν) = m.stack
  /-- Every fact is true. -/
  facts : ∀ {i f c}, s.facts.get? i = some f → f.held.get? c.domain = some c →
    c.TrueOf (f.value.datum ν)

/-- A state describes the memories that valuations make out of it. -/
def State.Describes (s : State) (m : Memory) : Prop := ∃ ν, s.Models ν m

namespace Value

variable {ν ν' : Valuation} {v : Value}

/-- The datum of a value depends on the identities of its parts only. -/
theorem datum_congr (h : ∀ u : Value, u.Part v → ν u.id = ν' u.id) : v.datum ν = v.datum ν' := by
  induction v with
  | unknown | fresh | widened => exact h _ (.refl _)
  | null | self | bool => rfl
  | equal id left right ihl ihr | notEqual id left right ihl ihr =>
    have hl := ihl fun u hu => h u (.operand (by simp [operands]) hu)
    have hr := ihr fun u hu => h u (.operand (by simp [operands]) hu)
    simp only [datum, hl, hr]
  | not id operand ih =>
    have ho := ih fun u hu => h u (.operand (by simp [operands]) hu)
    have hid : ν id = ν' id := h _ (.refl _)
    simp only [datum, ho, hid]

/-- A value by itself compares like with like if it is a comparison, and negates a truth value if it
is a negation. -/
def Sensible (ν : Valuation) : Value → Prop
  | .equal _ left right => (left.datum ν).Alike (right.datum ν)
  | .notEqual _ left right => (left.datum ν).Alike (right.datum ν)
  | .not _ operand => (operand.datum ν).isBool = true
  | _ => True

/-- A value is well typed if all its parts are sensible. -/
def WellTyped (ν : Valuation) (v : Value) : Prop := ∀ u : Value, u.Part v → u.Sensible ν

/-- A sensible value is well typed if its operands are. -/
theorem wellTyped_of_operands (hv : v.Sensible ν) (ho : ∀ o ∈ v.operands, o.WellTyped ν) :
    v.WellTyped ν :=
  forall_part hv ho

/-- The parts of a well-typed value are well typed. -/
theorem WellTyped.part {u : Value} (h : v.WellTyped ν) (hu : u.Part v) : u.WellTyped ν :=
  fun w hw => h w (hw.trans hu)

/-- A value without operands is well typed. -/
theorem wellTyped_of_operands_nil (h : v.operands = []) : v.WellTyped ν := by
  refine wellTyped_of_operands ?_ (by simp [h])
  cases v with
  | equal | notEqual | not => simp [operands] at h
  | unknown | null | self | bool | fresh | widened => trivial

/-- Whether a value is well typed depends on the data of its parts only. -/
theorem WellTyped.congr (h : v.WellTyped ν) (hν : ∀ u : Value, u.Part v → ν u.id = ν' u.id) :
    v.WellTyped ν' := by
  intro u hu
  have hdatum : ∀ o ∈ u.operands, o.datum ν = o.datum ν' := fun o ho =>
    datum_congr fun w hw => hν w (Part.trans (.operand ho hw) hu)
  have hu' := h u hu
  cases u with
  | equal id left right | notEqual id left right =>
    have hl := hdatum left (by simp [operands])
    have hr := hdatum right (by simp [operands])
    simpa only [Sensible, hl, hr] using hu'
  | not id operand =>
    have ho := hdatum operand (by simp [operands])
    simpa only [Sensible, ho] using hu'
  | unknown | null | self | bool | fresh | widened => trivial

/-- An assignment of data interprets a value if a shared value, a comparison or a negation has the
datum that it says, where comparisons are of like with like and negations of truth values. -/
def Interpreted (data : Value → Datum) : Value → Prop
  | .null => data .null = .null
  | .self => ∃ n, data .self = .object n
  | .bool b => data (.bool b) = .bool b
  | .equal id left right => (data left).Alike (data right) ∧
    data (.equal id left right) = .bool (data left = data right)
  | .notEqual id left right => (data left).Alike (data right) ∧
    data (.notEqual id left right) = .bool (data left ≠ data right)
  | .not id operand => ∃ b, data operand = .bool b ∧ data (.not id operand) = .bool !b
  | .unknown | .fresh _ | .widened _ _ _ => True

/-- The data that a valuation gives interpret every value that is sensible. -/
theorem Sensible.interpreted (h : v.Sensible ν) : v.Interpreted (datum ν) := by
  cases v with
  | equal | notEqual => exact ⟨h, rfl⟩
  | not id operand =>
    unfold Sensible at h
    cases hdatum : operand.datum ν with
    | null | object => simp [hdatum, Datum.isBool] at h
    | bool b => exact ⟨b, hdatum, by simp [datum, hdatum]⟩
  | self => exact ⟨0, rfl⟩
  | null | bool => rfl
  | unknown | fresh | widened => trivial

/-- What holds of a value by what it is, is true of its datum. -/
theorem Interpreted.trueOf_intrinsic {data : Value → Datum} {d : Domain} {c : Constraint}
    (hv : v.Interpreted data) (h : v.intrinsic.get? d = some c) : c.TrueOf (data v) := by
  cases v with
  | null =>
    cases d <;> simp [intrinsic, ConstraintSet.get?, ConstraintSet.empty] at h
    subst h
    exact hv
  | self =>
    cases d <;> simp [intrinsic, ConstraintSet.get?, ConstraintSet.empty] at h
    subst h
    obtain ⟨n, hn⟩ := hv
    simp [Constraint.TrueOf, hn]
  | bool b =>
    have hdatum : data (.bool b) = .bool b := hv
    cases d <;> simp [intrinsic, ConstraintSet.get?, ConstraintSet.empty] at h
    · subst h
      simp [Constraint.TrueOf, hdatum]
    · subst h
      cases b <;> simp [Constraint.TrueOf, hdatum, Truth.ofBool]
  | unknown | fresh | widened | equal | notEqual | not => simp [intrinsic] at h

/-- The intrinsic constraints on a value are true of its datum. -/
theorem trueOf_intrinsic {d : Domain} {c : Constraint} (h : v.intrinsic.get? d = some c) :
    c.TrueOf (v.datum ν) := by
  cases v with
  | null | self | bool => exact Interpreted.trueOf_intrinsic (Sensible.interpreted trivial) h
  | unknown | fresh | widened | equal | notEqual | not => simp [intrinsic] at h

end Value

namespace Constraint

variable {c c' : Constraint} {d : Datum}

/-- Whether a constraint says something about data. -/
def IsConcrete (c : Constraint) : Prop := c.domain = .nullability ∨ c.domain = .truth

/-- Two constraints of a domain that are true of the same datum are equal. -/
theorem eq_of_trueOf (hc : c.IsConcrete) (hdomain : c'.domain = c.domain) (h : c.TrueOf d)
    (h' : c'.TrueOf d) : c' = c := by
  cases c with
  | nullability n =>
    cases c' with
    | nullability n' => cases n <;> cases n' <;> simp_all [TrueOf]
    | truth | disposal | byteArray | saltSize => cases hdomain
  | truth t =>
    cases c' with
    | truth t' => cases t <;> cases t' <;> simp_all [TrueOf]
    | nullability | disposal | byteArray | saltSize => cases hdomain
  | disposal | byteArray | saltSize => rcases hc with hc | hc <;> cases hc

/-- What is no concrete constraint is true of everything. -/
theorem trueOf_of_not_concrete (hc : ¬c.IsConcrete) : c.TrueOf d := by
  cases c with
  | nullability n => exact absurd (.inl rfl) hc
  | truth t => exact absurd (.inr rfl) hc
  | disposal | byteArray | saltSize => trivial

end Constraint

/-! ## Operations on a state that a valuation has made a memory of -/

/-- Puts a datum into a variable. -/
def Memory.set (m : Memory) (x : Symbol) (d : Datum) : Memory :=
  { m with store := fun y => if y = x then d else m.store y }

namespace State

variable {ν ν' : Valuation} {s s' : State} {m : Memory} {l : List Value} {v : Value}
  {c : Constraint}

namespace Models

/-- A variable may be bound along with its datum. -/
theorem bind (h : s.Models ν m) (x : Symbol) (v : Value) :
    (s.bind x v).Models ν (m.set x (v.datum ν)) where
  lookup := by
    intro y w hw
    rw [lookup_bind] at hw
    by_cases hy : y = x
    · rw [if_pos hy] at hw
      simp [Memory.set, hy, Option.some.inj hw]
    · rw [if_neg hy] at hw
      simpa [Memory.set, hy] using h.lookup hw
  stack := h.stack
  facts := h.facts

/-- A value may be pushed along with its datum. -/
theorem push (h : s.Models ν m) (v : Value) :
    (s.push v).Models ν { m with stack := v.datum ν :: m.stack } where
  lookup := h.lookup
  stack := by simp [h.stack]
  facts := h.facts

/-- Values may be dropped along with their data. -/
theorem drop (h : s.Models ν m) (n : Nat) :
    Models ν { s with stack := s.stack.drop n } { m with stack := m.stack.drop n } where
  lookup := h.lookup
  stack := by simp [← h.stack]
  facts := h.facts

/-- The stack may be cleared on both sides. -/
theorem clearStack (h : s.Models ν m) : s.clearStack.Models ν { m with stack := [] } where
  lookup := h.lookup
  stack := rfl
  facts := h.facts

/-- A clean state still models the memory. -/
theorem clean (h : s.Models ν m) : s.clean.Models ν m where
  lookup := h.lookup
  stack := h.stack
  facts := by
    intro i f c hf
    rw [facts_clean] at hf
    split at hf
    · exact h.facts hf
    · cases hf

/-- The datum of the value at a depth of the stack. -/
theorem peek (h : s.Models ν m) {n : Nat} (hn : n < m.stack.length) :
    m.stack[n]? = some ((s.peek n).datum ν) := by
  have hlen : n < s.stack.length := by simpa [← h.stack] using hn
  rw [← h.stack, State.peek, List.getD_eq_getElem?_getD]
  simp [hlen]

/-- What is recorded about a value is true of its datum. -/
theorem trueOf_recorded (h : s.Models ν m) (hl : Ledger l) (hs : s.DrawnFrom l) (hv : v ∈ l)
    (hc : (s.recorded v).get? c.domain = some c) : c.TrueOf (v.datum ν) := by
  unfold recorded at hc
  split at hc
  · next f hf =>
    rw [← hs.value_eq hl hv hf]
    exact h.facts hf hc
  · simp at hc

/-- What holds of a value is true of its datum. -/
theorem trueOf_constraint (h : s.Models ν m) (hl : Ledger l) (hs : s.DrawnFrom l) (hv : v ∈ l)
    {d : Domain} (hc : s.constraint v d = some c) : c.TrueOf (v.datum ν) := by
  rcases Option.or_eq_some_iff.1 hc with hc | ⟨_, hc⟩
  · exact Value.trueOf_intrinsic hc
  · obtain rfl := ConstraintSet.domain_of_get? hc
    exact h.trueOf_recorded hl hs hv hc

/-- A true constraint may be recorded. -/
theorem record (h : s.Models ν m) (hl : Ledger l) (hs : s.DrawnFrom l) (hv : v ∈ l)
    (hc : c.TrueOf (v.datum ν)) : (s.record v c).Models ν m where
  lookup := h.lookup
  stack := h.stack
  facts := by
    intro i f c' hf hc'
    rw [facts_record] at hf
    split at hf
    · obtain rfl := Option.some.inj hf
      rw [ConstraintSet.get?_insert] at hc'
      split at hc'
      · obtain rfl := Option.some.inj hc'
        exact hc
      · exact h.trueOf_recorded hl hs hv hc'
    · exact h.facts hf hc'

/-- A constraint may be overwritten by one that is true. -/
theorem overwrite (h : s.Models ν m) (hl : Ledger l) (hs : s.DrawnFrom l) (hv : v ∈ l)
    (hc : c.TrueOf (v.datum ν)) : (s.overwrite v c).Models ν m := by
  unfold State.overwrite
  split
  · exact h
  · exact h.record hl hs hv hc

/-- Only the data of the values in the ledger matter. -/
theorem congr (h : s.Models ν m) (hl : Ledger l) (hs : s.DrawnFrom l)
    (hν : ∀ v ∈ l, ν v.id = ν' v.id) : s.Models ν' m := by
  have hdatum : ∀ v ∈ l, v.datum ν' = v.datum ν := fun v hv =>
    Value.datum_congr fun u hu => (hν u (hl.part hu hv).1).symm
  refine ⟨fun hx => ?_, ?_, fun hf hc => ?_⟩
  · rw [hdatum _ (hs.lookup_mem hx)]
    exact h.lookup hx
  · rw [← h.stack]
    exact List.map_congr_left fun v hv => hdatum v (hs.stack_mem hv)
  · rw [hdatum _ (hs.fact_mem hf).1]
    exact h.facts hf hc

end Models

/-- A memory may be made out of a state drawn from a ledger. -/
structure Fits (ν : Valuation) (l : List Value) (m : Memory) (s : State) : Prop where
  /-- The valuation makes the memory. -/
  models : s.Models ν m
  /-- The state is drawn from the ledger. -/
  drawn : s.DrawnFrom l

end State

end Pathwise
