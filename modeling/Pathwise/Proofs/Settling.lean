import Pathwise.Proofs.Canonical
import Pathwise.Proofs.Conditions
import Pathwise.Proofs.Locality

/-!
# What an assumption settles

Whether a condition holds is carried on to the operand of a negation, and from one operand of a
comparison to the other if the truth of the one is known. So it can be told beforehand of which
values an assumption will settle whether they hold: it depends neither on the outcome that is
assumed nor on nullability.

If an assumption settles nothing about the shared values, it makes no difference to a condition that
has nothing but shared values in common with it.
-/

namespace Pathwise

/-- What a known shared value is leaves nothing open but whether null is true, and whether the
object is whose code runs. -/
theorem Value.shared_open {v : Value} {d : Domain} (h : v ∈ sharedValues)
    (hknown : v.isUnknown = false) (hd : d = .nullability ∨ d = .truth)
    (hopen : v.intrinsic.get? d = none) : v ∈ [null, self] ∧ d = .truth := by
  simp only [sharedValues, List.mem_cons, List.not_mem_nil, or_false] at h
  rcases h with rfl | rfl | rfl | rfl | rfl
  · cases hknown
  · rcases hd with rfl | rfl
    · cases hopen
    · simp
  · rcases hd with rfl | rfl
    · cases hopen
    · simp
  · rcases hd with rfl | rfl <;> cases hopen
  · rcases hd with rfl | rfl <;> cases hopen

namespace State

variable {l : List Value} {u v w left right : Value} {t : Truth} {equal : Bool}
  {s s' : State}

/-! ## Settled values -/

/-- To assume that a condition holds or fails settles whether a value holds. -/
inductive Settles (s : State) : Value → Value → Prop where
  /-- An open condition is settled itself. -/
  | itself {v : Value} (hopen : s.truth v = none) : Settles s v v
  /-- An open negation settles what its operand settles. -/
  | negated {id : Nat} {o u : Value} (hopen : s.truth (.not id o) = none) (ho : Settles s o u) :
    Settles s (.not id o) u
  /-- An open comparison settles what an operand settles, if the truth of the other is known. -/
  | compared {v known o u : Value} (hopen : s.truth v = none)
    (hoperands : v.operands = [known, o] ∨ v.operands = [o, known]) (hknown : s.truth known ≠ none)
    (ho : Settles s o u) : Settles s v u

namespace Settles

/-- Only a value whose truth is open settles anything. -/
theorem isOpen (h : s.Settles v u) : s.truth v = none := by
  cases h with
  | itself hopen | negated hopen | compared hopen => exact hopen

/-- It depends on the truth of parts. -/
theorem congr (h : s.Settles v u) (hsame : ∀ w : Value, w.Part v → s'.truth w = s.truth w) :
    s'.Settles v u := by
  induction h with
  | @itself v hopen => exact .itself ((hsame v (.refl v)).trans hopen)
  | @negated id o u hopen _ ih =>
    refine .negated ((hsame _ (.refl _)).trans hopen) (ih fun w hw => hsame w ?_)
    exact .operand (by simp [Value.operands]) hw
  | @compared v known o u hopen hoperands hknown _ ih =>
    have hmem : known ∈ v.operands ∧ o ∈ v.operands := by
      rcases hoperands with h | h <;> simp [h]
    refine .compared ((hsame v (.refl v)).trans hopen) hoperands ?_
      (ih fun w hw => hsame w (.operand hmem.2 hw))
    rwa [hsame known (.operand hmem.1 (.refl known))]

end Settles

/-- After an assumption about a value another one is settled exactly if it was before, or this was
to be expected. -/
def Foreseen (v u : Value) : Prop :=
  ∀ {t : Truth} {s s' : State}, assume v (.truth t) s = some s' →
    (s'.truth u ≠ none ↔ s.truth u ≠ none ∨ s.Settles v u)

/-- What a value settles depends on the truths that are known, and on nothing else. -/
theorem settles_congr (h : ∀ w, s'.truth w = s.truth w) : s'.Settles v u ↔ s.Settles v u :=
  ⟨fun hs => hs.congr fun w _ => (h w).symm, fun hs => hs.congr fun w _ => h w⟩

/-- To carry over what is null changes no truth. -/
theorem truth_carryNullability (h : carryNullability equal u (assume v) s = some s') (w : Value) :
    s'.truth w = s.truth w := by
  unfold carryNullability at h
  split at h
  · exact truth_assume_nullability h w
  · exact truth_assume_nullability h w
  · rw [Option.some.inj h]

/-- Nothing is settled by carrying on what is known of a value that is open. -/
theorem truth_carry_of_open (hopen : s.truth u = none) (h : carry equal u (assume v) s = some s')
    (w : Value) : s'.truth w = s.truth w := by
  rw [carry_eq] at h
  obtain ⟨s₁, hs₁, h⟩ := Option.bind_eq_some_iff.1 h
  have hsame := truth_carryNullability hs₁
  rw [carryTruth_of_none (by rw [hsame, hopen])] at h
  rw [← Option.some.inj h, hsame]

/-- If truth is carried on from one value to another, this settles what the other settles. -/
theorem truth_carry {known o : Value} (ho : Foreseen o u)
    (h : carry equal known (assume o) s = some s') :
    s'.truth u ≠ none ↔ s.truth u ≠ none ∨ s.truth known ≠ none ∧ s.Settles o u := by
  cases hknown : s.truth known with
  | none =>
    rw [truth_carry_of_open hknown h]
    simp
  | some a =>
    rw [carry_eq] at h
    obtain ⟨s₁, hs₁, h⟩ := Option.bind_eq_some_iff.1 h
    have hsame := truth_carryNullability hs₁
    rw [carryTruth_of_some (by rw [hsame, hknown])] at h
    rw [ho h, hsame, settles_congr hsame]
    simp

/-- Comparing two values settles what one of them settles, if the truth of the other is known. -/
theorem truth_equate (hleft : Foreseen left u) (hright : Foreseen right u)
    (h : equate equal left right s = some s') :
    s'.truth u ≠ none ↔ s.truth u ≠ none ∨ s.truth left ≠ none ∧ s.Settles right u ∨
      s.truth right ≠ none ∧ s.Settles left u := by
  obtain ⟨s₁, hs₁, h⟩ := Option.bind_eq_some_iff.1 h
  rw [truth_carry hleft h]
  cases hknown : s.truth left with
  | none =>
    have hsame := truth_carry_of_open hknown hs₁
    rw [hsame, hsame, settles_congr hsame]
    simp
  | some a =>
    -- what is known of the left value already is not settled again from the right
    have hs : ¬s.Settles left u := fun hs => by simp [hs.isOpen] at hknown
    have hkept : s₁.truth left = some a :=
      carry_induction (P := fun t => t.truth left = some a)
        (fun c t t' _ hassume ht => truth_of_assume hassume ht) hs₁ hknown
    have hs₁' : ¬s₁.Settles left u := fun hs => by simp [hs.isOpen] at hkept
    rw [truth_carry hright hs₁, hknown]
    simp [hs, hs₁']

/-- A negation settles itself and what its operand settles. -/
theorem settles_not_iff {id : Nat} {o : Value} (hopen : s.truth (.not id o) = none) :
    s.Settles (.not id o) u ↔ u = .not id o ∨ s.Settles o u := by
  refine ⟨fun h => ?_, fun h => ?_⟩
  · cases h with
    | itself => exact .inl rfl
    | negated _ ho => exact .inr ho
    | compared _ hoperands => simp [Value.operands] at hoperands
  · rcases h with rfl | ho
    · exact .itself hopen
    · exact .negated hopen ho

/-- A comparison settles itself and, if one side is known, what the other side settles. -/
theorem settles_comparison_iff (hopen : s.truth v = none) (hoperands : v.operands = [left, right]) :
    s.Settles v u ↔ u = v ∨ s.truth left ≠ none ∧ s.Settles right u ∨
      s.truth right ≠ none ∧ s.Settles left u := by
  refine ⟨fun h => ?_, fun h => ?_⟩
  · cases h with
    | itself => exact .inl rfl
    | negated => simp [Value.operands] at hoperands
    | compared _ hboth hknown ho =>
      rw [hoperands] at hboth
      rcases hboth with h | h
      · obtain ⟨rfl, rfl⟩ : left = _ ∧ right = _ := by simpa using h
        exact .inr (.inl ⟨hknown, ho⟩)
      · obtain ⟨rfl, rfl⟩ : left = _ ∧ right = _ := by simpa using h
        exact .inr (.inr ⟨hknown, ho⟩)
  · rcases h with rfl | ⟨hknown, ho⟩ | ⟨hknown, ho⟩
    · exact .itself hopen
    · exact .compared hopen (.inl hoperands) hknown ho
    · exact .compared hopen (.inr hoperands) hknown ho

/-- A value without operands settles itself. -/
theorem settles_leaf_iff (hopen : s.truth v = none) (hoperands : v.operands = []) :
    s.Settles v u ↔ u = v := by
  refine ⟨fun h => ?_, fun h => by rw [h]; exact .itself hopen⟩
  cases h with
  | itself => rfl
  | negated => simp [Value.operands] at hoperands
  | compared _ hboth => simp [hoperands] at hboth

/-! ## Settled by an assumption -/

section

variable (hl : Ledger l) (hv : v ∈ l)
include hl hv

/-- What is recorded of a value changes no truth of the parts of its operands. -/
theorem truth_record_part {o : Value} (ho : o ∈ v.operands) (c : Constraint) (hw : w.Part o) :
    (s.record v c).truth w = s.truth w := by
  obtain ⟨hmem, hlt⟩ := hl.operand hv ho
  have hle := (hl.part hw hmem).2
  exact truth_record_of_ne (by omega) c

/-- So the operands settle what they did. -/
theorem settles_record_iff {o : Value} (ho : o ∈ v.operands) (c : Constraint) :
    (s.record v c).Settles o u ↔ s.Settles o u :=
  ⟨fun h => h.congr fun _ hw => (truth_record_part hl hv ho c hw).symm,
    fun h => h.congr fun _ hw => truth_record_part hl hv ho c hw⟩

/-- To record a truth makes one more truth known. -/
theorem truth_record_ne_none_iff (hu : u ∈ l) (hopen : s.truth v = none) :
    (s.record v (.truth t)).truth u ≠ none ↔ u = v ∨ s.truth u ≠ none := by
  by_cases hid : u.id = v.id
  · obtain rfl := hl.eq_of_id hu hv hid
    simp [truth_record_self hopen]
  · have hne : u ≠ v := fun h => hid (congrArg Value.id h)
    simp [truth_record_of_ne hid, hne]

/-- The truth of an open condition, once recorded, is carried on to what it settles. -/
theorem truth_spread (hu : u ∈ l) (ih : ∀ o ∈ v.operands, Foreseen o u) (hopen : s.truth v = none)
    (h : spread (.truth t) v (s.record v (.truth t)) = some s') :
    s'.truth u ≠ none ↔ s.truth u ≠ none ∨ s.Settles v u := by
  have hrecord := truth_record_ne_none_iff hl hv (t := t) hu hopen
  have hleaf : v.operands = [] → spread (.truth t) v (s.record v (.truth t)) =
      some (s.record v (.truth t)) → (s'.truth u ≠ none ↔ s.truth u ≠ none ∨ s.Settles v u) := by
    intro hoperands hspread
    rw [← Option.some.inj (hspread.symm.trans h), hrecord, settles_leaf_iff hopen hoperands,
      or_comm]
  have hcomparison : ∀ {equal left right}, v.operands = [left, right] →
      equate equal left right (s.record v (.truth t)) = some s' →
      (s'.truth u ≠ none ↔ s.truth u ≠ none ∨ s.Settles v u) := by
    intro equal left right hoperands hequate
    have hleft : left ∈ v.operands := by simp [hoperands]
    have hright : right ∈ v.operands := by simp [hoperands]
    rw [truth_equate (ih left hleft) (ih right hright) hequate, hrecord,
      truth_record_part hl hv hleft _ (.refl left), truth_record_part hl hv hright _ (.refl right),
      settles_record_iff hl hv hleft, settles_record_iff hl hv hright,
      settles_comparison_iff hopen hoperands, or_assoc, or_left_comm]
  cases v with
  | unknown | null | self | bool | fresh | widened => exact hleaf rfl rfl
  | equal id left right => exact hcomparison rfl h
  | notEqual id left right => exact hcomparison rfl h
  | not id o =>
    have ho : o ∈ (Value.not id o).operands := List.mem_singleton_self o
    rw [ih o ho h, hrecord, settles_record_iff hl hv ho, settles_not_iff hopen, or_assoc,
      or_left_comm]

end

/-- It can be told from a state what an assumption settles in it. -/
theorem foreseen (hl : Ledger l) (hv : v ∈ l) (hu : u ∈ l) (hknown : u.isUnknown = false) :
    Foreseen v u := by
  induction v using Value.operandInduction with
  | h v ih =>
    intro t s s' h
    rw [assume_truth] at h
    split at h
    · next hunknown =>
      obtain rfl : v = .unknown := hl.eq_of_shared_id hv (by simp [Value.sharedValues])
        (eq_of_beq hunknown)
      have hnot : ¬s.Settles .unknown u := fun hs => by
        rw [(settles_leaf_iff hs.isOpen rfl).1 hs] at hknown
        cases hknown
      simp [← Option.some.inj h, hnot]
    · cases htruth : s.truth v with
      | some held =>
        have hnot : ¬s.Settles v u := fun hs => by simp [hs.isOpen] at htruth
        obtain ⟨-, rfl⟩ : held = t ∧ s = s' := by simpa [htruth] using h
        simp [hnot]
      | none =>
        rw [htruth] at h
        exact truth_spread hl hv hu (fun o ho => ih o ho (hl.operand hv ho).1) htruth h

/-! ## Conditions that have only shared values in common -/

/-- The two conditions have nothing in common but shared values. -/
def Unrelated (v w : Value) : Prop :=
  ∀ p q : Value, p.Part v → q.Part w → q.id = p.id → q ∈ Value.sharedValues

theorem truth_eq_none_iff : s.truth v = none ↔ s.constraint v .truth = none := by
  rw [constraint_truth, Option.map_eq_none_iff]

/-- An assumption that settles neither null nor the object whose code runs leaves alone what is
recorded about an unrelated condition. -/
theorem recorded_of_unrelated (hl : Ledger l) (hv : v ∈ l) (h : assume v (.truth t) s = some s')
    (hsettles : ∀ u ∈ [Value.null, Value.self], ¬s.Settles v u) (hw : Unrelated v w) {q : Value}
    (hq : q.Part w) : s'.recorded q = s.recorded q := by
  refine ConstraintSet.ext_get? fun d => Decidable.byContradiction fun hne => ?_
  obtain ⟨p, hp⟩ := exists_added h hne
  have hshared := hw p q hp.part hq hp.id_eq.symm
  obtain rfl : p = q := hl.eq_of_shared_id (hl.part hp.part hv).1 hshared hp.id_eq
  obtain ⟨hintrinsic, hrecorded⟩ := Option.or_eq_none_iff.1 hp.vacant
  have htruth : d = .truth → s.Settles v p := by
    rintro rfl
    have hsettled : s'.truth p ≠ none := fun hnone => by
      rw [truth_eq_none_iff] at hnone
      exact hne ((Option.or_eq_none_iff.1 hnone).2.trans hrecorded.symm)
    exact ((foreseen hl hv (hl.mem_of_shared hshared) hp.known h).1 hsettled).resolve_left
      (not_not_intro (truth_eq_none_iff.2 hp.vacant))
  obtain ⟨hmem, hd⟩ := Value.shared_open hshared hp.known hp.concerns hintrinsic
  exact hsettles p hmem (htruth hd)

/-- A condition has the same outcomes in two states, and they say the same about its parts. -/
structure Indifferent (w : Value) (s s' : State) : Prop where
  /-- The same outcomes are possible. -/
  possible : ∀ a, (assume w (.truth a) s').isSome = (assume w (.truth a) s).isSome
  /-- They have the same consequences. -/
  consequences : ∀ {a s₁ s₁'}, assume w (.truth a) s = some s₁ →
    assume w (.truth a) s' = some s₁' → ∀ q : Value, q.Part w →
      s₁'.nullability q = s₁.nullability q ∧ s₁'.truth q = s₁.truth q

/-- If the same is recorded about its parts, a condition has the same outcomes. -/
theorem indifferent_of_recorded (h : ∀ q : Value, q.Part w → s'.recorded q = s.recorded q) :
    Indifferent w s s' := by
  have hbelow : s.Below (·.Part w) s' :=
    ⟨fun hq => by rw [h _ hq], fun hq => .inl (by rw [h _ hq])⟩
  have habove : s'.Below (·.Part w) s :=
    ⟨fun hq => by rw [h _ hq], fun hq => .inl (by rw [h _ hq])⟩
  have hsimulates : Below.Simulates (·.Part w) w := Below.simulates fun _ hq => hq
  refine ⟨fun a => ?_, fun {a s₁ s₁'} hs₁ hs₁' q hq => ?_⟩
  · rw [Bool.eq_iff_iff, Option.isSome_iff_exists, Option.isSome_iff_exists]
    constructor
    · rintro ⟨s₁', hs₁'⟩
      obtain ⟨s₁, hs₁, -⟩ := hsimulates (.inr rfl) hbelow hs₁'
      exact ⟨s₁, hs₁⟩
    · rintro ⟨s₁, hs₁⟩
      obtain ⟨s₁', hs₁', -⟩ := hsimulates (.inr rfl) habove hs₁
      exact ⟨s₁', hs₁'⟩
  · obtain ⟨s₂, hs₂, hbelow'⟩ := hsimulates (.inr rfl) hbelow hs₁'
    obtain ⟨s₂', hs₂', habove'⟩ := hsimulates (.inr rfl) habove hs₁
    obtain rfl := Option.some.inj (hs₁.symm.trans hs₂)
    obtain rfl := Option.some.inj (hs₁'.symm.trans hs₂')
    refine ⟨?_, habove'.truth_eq hq⟩
    rcases hbelow'.nullability_cases hq with heq | ⟨hnone, hnot⟩
    · exact heq.symm
    · rcases habove'.nullability_cases hq with heq | ⟨hnone', -⟩
      · exact heq
      · rw [hnone, hnone']

end State

end Pathwise
