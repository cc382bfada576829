import Pathwise.Proofs.Live

/-!
# What an assumption records

An assumption records the constraint and carries the truth of a condition on to its parts. Whatever
it does is done by recording constraints on parts of the value, so what every such recording keeps
is kept by the assumption.
-/

namespace Pathwise.State

variable {v : Value} {c : Constraint} {s s' : State}

/-- Carries (in)equality on in both directions. -/
def equate (equal : Bool) (left right : Value) (s : State) : Option State :=
  (carry equal left (assume right) s).bind (carry equal right (assume left))

/-- Carries a constraint that has just been recorded on to the operands of the value. -/
def spread : Constraint → Value → State → Option State
  | .truth t, .not _ operand, s => assume operand (.truth t.opposite) s
  | .truth t, .equal _ left right, s =>
    (carry (t == .holds) left (assume right) s).bind (carry (t == .holds) right (assume left))
  | .truth t, .notEqual _ left right, s =>
    (carry (t == .fails) left (assume right) s).bind (carry (t == .fails) right (assume left))
  | _, _, s => some s

/-- An assumption about a known value is refused, already known, or recorded and carried on. -/
theorem assume_eq (v : Value) (c : Constraint) (s : State) :
    assume v c s =
      if v.isUnknown then some s
      else match s.constraint v c.domain with
        | some held => if held = c then some s else none
        | none => spread c v (s.record v c) := by
  cases v <;> rw [assume] <;> cases c <;> rfl

/-- A constraint that is no truth is carried nowhere. -/
theorem spread_of_not_truth (hc : c.domain ≠ .truth) (v : Value) (s : State) :
    spread c v s = some s := by
  cases c with
  | truth t => exact absurd rfl hc
  | nullability | disposal | byteArray | saltSize => cases v <;> rfl

/-- The first half of carrying on: what the nullability of the other value says. -/
def carryNullability (equal : Bool) (other : Value) (f : Constraint → State → Option State)
    (s : State) : Option State :=
  match s.nullability other, equal with
  | some n, true => f (.nullability n) s
  | some .null, false => f (.nullability .notNull) s
  | _, _ => some s

/-- The second half of carrying on: what the truth of the other value says. -/
def carryTruth (equal : Bool) (other : Value) (f : Constraint → State → Option State) (s : State) :
    Option State :=
  match s.truth other with
  | some t => f (.truth (if equal then t else t.opposite)) s
  | none => some s

theorem carry_eq (equal : Bool) (other : Value) (f : Constraint → State → Option State)
    (s : State) :
    carry equal other f s = (carryNullability equal other f s).bind (carryTruth equal other f) := by
  unfold carry carryNullability
  cases s.nullability other with
  | none => rfl
  | some n => cases n <;> cases equal <;> rfl

/-- Carrying on makes at most two assumptions, of nullability and of truth. -/
theorem carry_induction {P : State → Prop} {equal : Bool} {other : Value}
    {f : Constraint → State → Option State}
    (hf : ∀ c s s', c.domain = .nullability ∨ c.domain = .truth → f c s = some s' → P s → P s')
    (h : carry equal other f s = some s') (hs : P s) : P s' := by
  rw [carry_eq] at h
  obtain ⟨t, ht, h⟩ := Option.bind_eq_some_iff.1 h
  have hPt : P t := by
    unfold carryNullability at ht
    split at ht
    · exact hf _ _ _ (.inl rfl) ht hs
    · exact hf _ _ _ (.inl rfl) ht hs
    · rwa [← Option.some.inj ht]
  unfold carryTruth at h
  split at h
  · exact hf _ _ _ (.inr rfl) h hPt
  · rwa [← Option.some.inj h]

theorem equate_induction {P : State → Prop} {equal : Bool} {left right : Value}
    (hassume : ∀ o, o = left ∨ o = right → ∀ c s s',
      c.domain = .nullability ∨ c.domain = .truth → assume o c s = some s' → P s → P s')
    (h : equate equal left right s = some s') (hs : P s) : P s' := by
  obtain ⟨t, ht, h⟩ := Option.bind_eq_some_iff.1 h
  have hright := carry_induction (hassume right (.inr rfl)) ht hs
  exact carry_induction (hassume left (.inl rfl)) h hright

/-- What is kept by assumptions about the operands of a value is kept by carrying its truth on. -/
theorem spread_induction {P : State → Prop}
    (hoperand : ∀ o ∈ v.operands, ∀ c' s s', c'.domain = .nullability ∨ c'.domain = .truth →
      assume o c' s = some s' → P s → P s')
    (h : spread c v s = some s') (hs : P s) : P s' := by
  unfold spread at h
  split at h
  · exact hoperand _ (by simp [Value.operands]) _ _ _ (.inr rfl) h hs
  · exact equate_induction (fun o ho => hoperand o (by simpa [Value.operands] using ho)) h hs
  · exact equate_induction (fun o ho => hoperand o (by simpa [Value.operands] using ho)) h hs
  · rwa [← Option.some.inj h]

/-- What is kept by recording constraints on known parts of a value, each in a domain in which
nothing holds of the part, is kept by every assumption about the value. What is recorded is the
constraint itself and what follows from it about the nullability and the truth of parts. -/
theorem assume_induction {P : State → Prop}
    (hrecord : ∀ u c' s, u.Part v → u.isUnknown = false → s.constraint u c'.domain = none →
      c' = c ∨ c'.domain = .nullability ∨ c'.domain = .truth → P s → P (s.record u c'))
    (h : assume v c s = some s') (hs : P s) : P s' := by
  induction v using Value.operandInduction generalizing c s s' with
  | h v ih =>
    have hoperand : ∀ o ∈ v.operands, ∀ c₁ s s', c₁.domain = .nullability ∨ c₁.domain = .truth →
        assume o c₁ s = some s' → P s → P s' := by
      intro o ho c₁ s s' hc₁ h hs
      refine ih o ho (fun u c' s hu hk hnone hc' => ?_) h hs
      refine hrecord u c' s (.operand ho hu) hk hnone (.inr ?_)
      rcases hc' with rfl | hc'
      · exact hc₁
      · exact hc'
    rw [assume_eq] at h
    split at h
    · rwa [← Option.some.inj h]
    · next hk =>
      split at h
      · split at h
        · rwa [← Option.some.inj h]
        · cases h
      · next hnone =>
        have hrec := hrecord v c s (.refl v) (by simpa using hk) hnone (.inl rfl) hs
        exact spread_induction hoperand h hrec

/-- An assumption leaves bindings and stack alone. -/
theorem bindings_stack_assume (h : assume v c s = some s') :
    s'.bindings = s.bindings ∧ s'.stack = s.stack :=
  assume_induction (P := fun t => t.bindings = s.bindings ∧ t.stack = s.stack)
    (fun _ _ _ _ _ _ _ ht => ht) h ⟨rfl, rfl⟩

theorem DrawnFrom.assume {l : List Value} (hs : s.DrawnFrom l) (hl : Ledger l) (hv : v ∈ l)
    (h : State.assume v c s = some s') : s'.DrawnFrom l :=
  assume_induction (P := fun t => t.DrawnFrom l)
    (fun _ _ _ hu hk _ _ ht => ht.record (hl.part hu hv).1 hk) h hs

/-- A constraint that is no truth is overwritten, or nothing happens. -/
theorem assume_of_not_truth (hc : c.domain ≠ .truth) (h : assume v c s = some s') :
    s' = s ∨ s' = s.overwrite v c := by
  rw [assume_eq] at h
  split at h
  · exact .inl (Option.some.inj h).symm
  · next hk =>
    split at h
    · split at h
      · exact .inl (Option.some.inj h).symm
      · cases h
    · rw [spread_of_not_truth hc] at h
      rw [overwrite_of_known (by simpa using hk)]
      exact .inr (Option.some.inj h).symm

/-- What holds of a value still holds after an assumption. -/
theorem constraint_of_assume {u : Value} {d : Domain} {held : Constraint}
    (h : assume v c s = some s') (hu : s.constraint u d = some held) :
    s'.constraint u d = some held := by
  refine assume_induction (P := fun t => t.constraint u d = some held)
    (fun w c' t _ _ hnone _ ht => ?_) h hu
  rw [constraint_record]
  split
  · next hhere =>
    -- nothing is recorded under this identity yet, so it holds by what the value is
    obtain ⟨hid, rfl⟩ := hhere
    have hrecorded : (t.recorded u).get? c'.domain = none := by
      rw [recorded, hid]
      exact (Option.or_eq_none_iff.1 hnone).2
    rw [constraint, hrecorded, Option.or_none] at ht
    rw [ht]
    rfl
  · exact ht

/-- What is assumed of a known value holds afterwards. -/
theorem constraint_assumed (h : assume v c s = some s') (hv : v.isUnknown = false) :
    s'.constraint v c.domain = some c := by
  rw [assume_eq, if_neg (by simp [hv])] at h
  split at h
  · next held hheld =>
    split at h
    · next heq =>
      rw [← Option.some.inj h, hheld, heq]
    · cases h
  · next hnone =>
    refine spread_induction (P := fun t => t.constraint v c.domain = some c)
      (fun o _ c' t t' _ hassume ht => constraint_of_assume hassume ht) h ?_
    have hintrinsic := (Option.or_eq_none_iff.1 hnone).1
    rw [constraint_record, if_pos ⟨rfl, rfl⟩, hintrinsic]
    rfl

/-- A state admits a constraint on a value if it holds no other member of the domain. -/
def Admits (s : State) (v : Value) (c : Constraint) : Prop :=
  s.constraint v c.domain = none ∨ s.constraint v c.domain = some c

/-- Whatever is not held to be null may be assumed not to be. -/
theorem admits_notNull_iff : s.Admits v (.nullability .notNull) ↔ s.nullability v ≠ some .null := by
  simp only [Admits, Constraint.domain, constraint_nullability]
  cases s.nullability v with
  | none => simp
  | some n => cases n <;> simp

/-- What is admitted stays admitted when the same or a member of another domain is recorded. -/
theorem Admits.record {u : Value} {c' : Constraint} (h : s.Admits u c')
    (hsame : c'.domain = c.domain → c' = c) (v : Value) : (s.record v c).Admits u c' := by
  unfold Admits at h ⊢
  rw [constraint_record]
  split
  · next hhere =>
    obtain rfl := hsame hhere.2
    cases hintrinsic : u.intrinsic.get? c'.domain with
    | none => simp
    | some held =>
      rw [constraint, hintrinsic] at h
      simpa using h
  · exact h

/-- What is admitted and is no truth is not refused, and what was admitted stays so. -/
theorem assume_of_admits (hc : c.domain ≠ .truth) (h : s.Admits v c) :
    ∃ s', assume v c s = some s' ∧
      ∀ u c', (c'.domain = c.domain → c' = c) → s.Admits u c' → s'.Admits u c' := by
  rw [assume_eq]
  split
  · exact ⟨s, rfl, fun _ _ _ hc' => hc'⟩
  · rcases h with h | h
    · refine ⟨s.record v c, ?_, fun u c' hsame hc' => hc'.record hsame v⟩
      rw [h]
      exact spread_of_not_truth hc v _
    · refine ⟨s, ?_, fun _ _ _ hc' => hc'⟩
      rw [h]
      exact if_pos rfl

end Pathwise.State
