import Pathwise.Proofs.Cleaning

/-!
# What cleaning keeps

Cleaning keeps what is recorded about live values, all of it and nothing else. An assumption about a
live value looks at parts of that value only and records something about these only, and they are
live as well. So it makes no difference whether a state is cleaned before an assumption is made: it
is refused in both cases or in none, and what it leads to is the same once it is cleaned. This is so
for all states that can be made with the values of one supply.
-/

namespace Pathwise

/-! ## All values of a supply -/

namespace Supply

/-- The values that a supply has handed out when it has come to where it is, the shared ones among
them. A comparison or a negation is made from what was handed out before. -/
inductive HandedOut : Supply → List Value → Prop where
  /-- At the start there are the shared values. -/
  | start : HandedOut .start Value.sharedValues
  /-- A value of its own is handed out. -/
  | fresh {σ : Supply} {values : List Value} (h : HandedOut σ values) :
    HandedOut σ.fresh.2 (σ.fresh.1 :: values)
  /-- Two values are compared. -/
  | equal {σ : Supply} {values : List Value} {left right : Value} (h : HandedOut σ values)
    (hleft : left ∈ values) (hright : right ∈ values) :
    HandedOut (σ.equal left right).2 ((σ.equal left right).1 :: values)
  /-- Two values are told apart. -/
  | notEqual {σ : Supply} {values : List Value} {left right : Value} (h : HandedOut σ values)
    (hleft : left ∈ values) (hright : right ∈ values) :
    HandedOut (σ.notEqual left right).2 ((σ.notEqual left right).1 :: values)
  /-- A condition is negated. -/
  | not {σ : Supply} {values : List Value} {operand : Value} (h : HandedOut σ values)
    (hoperand : operand ∈ values) : HandedOut (σ.not operand).2 ((σ.not operand).1 :: values)
  /-- The value of a variable at a loop header is asked for. -/
  | widened {σ : Supply} {values : List Value} (h : HandedOut σ values) (header : Nat)
    (symbol : Symbol) :
    HandedOut (σ.widened header symbol).2 ((σ.widened header symbol).1 :: values)

variable {σ : Supply} {l values : List Value}

/-- A supply that goes with a ledger has handed out a value, and goes with the ledger continued. -/
def Continues (l : List Value) (handed : Value × Supply) : Prop :=
  ∃ ext, Ledger (l ++ ext) ∧ handed.2.Tracks (l ++ ext) ∧ handed.1 ∈ l ++ ext

/-- A shared value continues a ledger. -/
theorem continues_shared (hl : Ledger l) (ht : σ.Tracks l) {v : Value}
    (hv : v ∈ Value.sharedValues) : Continues l (v, σ) :=
  ⟨[], by simpa using hl, by simpa using ht, by simpa using hl.mem_of_shared hv⟩

/-- So does a value made with the next number from values of the ledger. -/
theorem continues_issue (hl : Ledger l) (ht : σ.Tracks l) {make : Nat → Value}
    (hid : ∀ n, (make n).id = n) (hoperands : ∀ n, ∀ o ∈ (make n).operands, o ∈ l)
    (hwidened : ∀ n id h x, make n ≠ .widened id h x) : Continues l (σ.issue make) := by
  refine ⟨[make σ.next], hl.snoc ?_ (hoperands σ.next), ht.issue (hwidened σ.next), ?_⟩
  · rw [hid, ht.next_eq]
  · exact List.mem_append_right _ List.mem_cons_self

/-- A comparison is decided at once or is a new value. -/
theorem continues_comparison (hl : Ledger l) (ht : σ.Tracks l) {left right : Value}
    {make : Nat → Value} (hleft : left ∈ l) (hright : right ∈ l) (hid : ∀ n, (make n).id = n)
    (hoperands : ∀ n, (make n).operands = [left, right]) (b : Bool) :
    Continues l (if left.same right then (.bool b, σ) else σ.issue make) := by
  split
  · exact continues_shared hl ht (by cases b <;> simp [Value.sharedValues])
  · refine continues_issue hl ht hid (by simp [hoperands, hleft, hright]) fun n id h x heq => ?_
    have hnone := hoperands n
    rw [heq] at hnone
    cases hnone

/-- So does a negation. -/
theorem continues_not (hl : Ledger l) (ht : σ.Tracks l) {operand : Value} (hoperand : operand ∈ l) :
    Continues l (σ.not operand) := by
  unfold Supply.not
  split
  · next b => exact continues_shared hl ht (by cases b <;> simp [Value.sharedValues])
  · exact continues_issue hl ht (fun _ => rfl) (by simp [Value.operands, hoperand]) (by simp)

/-- So does a widened value. -/
theorem continues_widened (hl : Ledger l) (ht : σ.Tracks l) (header : Nat) (symbol : Symbol) :
    Continues l (σ.widened header symbol) := by
  obtain ⟨id, ext, hvalue, hσ, hmem, hext, -⟩ := ht.widened header symbol
  refine ⟨ext, ?_, hσ, hvalue ▸ hmem⟩
  rcases hext with rfl | rfl
  · simpa using hl
  · exact hl.snoc rfl (by simp [Value.operands])

/-- Whatever a supply has handed out stands in one ledger. -/
theorem HandedOut.exists_ledger (h : σ.HandedOut values) :
    ∃ l, Ledger l ∧ σ.Tracks l ∧ ∀ v ∈ values, v ∈ l := by
  -- what is handed out next continues the ledger
  have hnext : ∀ {l values : List Value} {handed : Value × Supply}, (∀ v ∈ values, v ∈ l) →
      Continues l handed →
      ∃ l', Ledger l' ∧ handed.2.Tracks l' ∧ ∀ v ∈ handed.1 :: values, v ∈ l' := by
    intro l values handed hvalues hcontinues
    obtain ⟨ext, hl, ht, hmem⟩ := hcontinues
    refine ⟨l ++ ext, hl, ht, List.forall_mem_cons.2 ⟨hmem, fun v hv => ?_⟩⟩
    exact List.mem_append_left _ (hvalues v hv)
  induction h with
  | start => exact ⟨_, .start, start_tracks, fun _ hv => hv⟩
  | fresh _ ih =>
    obtain ⟨l, hl, ht, hvalues⟩ := ih
    exact hnext hvalues (continues_issue hl ht (fun _ => rfl) (by simp [Value.operands]) (by simp))
  | equal _ hleft hright ih =>
    obtain ⟨l, hl, ht, hvalues⟩ := ih
    exact hnext hvalues (continues_comparison hl ht (hvalues _ hleft) (hvalues _ hright)
      (fun _ => rfl) (fun _ => rfl) true)
  | notEqual _ hleft hright ih =>
    obtain ⟨l, hl, ht, hvalues⟩ := ih
    exact hnext hvalues (continues_comparison hl ht (hvalues _ hleft) (hvalues _ hright)
      (fun _ => rfl) (fun _ => rfl) false)
  | not _ hoperand ih =>
    obtain ⟨l, hl, ht, hvalues⟩ := ih
    exact hnext hvalues (continues_not hl ht (hvalues _ hoperand))
  | widened _ header symbol ih =>
    obtain ⟨l, hl, ht, hvalues⟩ := ih
    exact hnext hvalues (continues_widened hl ht header symbol)

end Supply

/-! ## All states with these values -/

namespace State

/-- The states that can be made with given values, one operation after the other. -/
inductive BuiltFrom (values : List Value) : State → Prop where
  /-- The empty state. -/
  | empty : BuiltFrom values .empty
  /-- A variable is bound. -/
  | bind {s : State} {v : Value} (h : BuiltFrom values s) (x : Symbol) (hv : v ∈ values) :
    BuiltFrom values (s.bind x v)
  /-- A value is pushed. -/
  | push {s : State} {v : Value} (h : BuiltFrom values s) (hv : v ∈ values) :
    BuiltFrom values (s.push v)
  /-- The top of the stack is taken. -/
  | pop {s : State} (h : BuiltFrom values s) : BuiltFrom values s.pop.2
  /-- The stack is emptied. -/
  | clearStack {s : State} (h : BuiltFrom values s) : BuiltFrom values s.clearStack
  /-- An assumption is made. -/
  | assume {s s' : State} {v : Value} {c : Constraint} (h : BuiltFrom values s) (hv : v ∈ values)
    (hassume : State.assume v c s = some s') : BuiltFrom values s'
  /-- A constraint is recorded in place of another one. -/
  | overwrite {s : State} {v : Value} (h : BuiltFrom values s) (hv : v ∈ values) (c : Constraint) :
    BuiltFrom values (s.overwrite v c)
  /-- A constraint is removed. -/
  | retract {s : State} {v : Value} (h : BuiltFrom values s) (hv : v ∈ values) (d : Domain) :
    BuiltFrom values (s.retract v d)
  /-- All constraints on a value are removed. -/
  | forget {s : State} (h : BuiltFrom values s) (v : Value) : BuiltFrom values (s.forget v)
  /-- The state is cleaned. -/
  | clean {s : State} (h : BuiltFrom values s) : BuiltFrom values s.clean

variable {s t : State} {v : Value} {c : Constraint} {l values : List Value} {W : Value → Prop}

/-- A state without its stack is drawn from the same ledger. -/
theorem DrawnFrom.clearStack (h : s.DrawnFrom l) : s.clearStack.DrawnFrom l where
  lookup_mem := h.lookup_mem
  stack_mem := fun hv => absurd hv List.not_mem_nil
  fact_mem := h.fact_mem

/-- So it is after a retraction. -/
theorem DrawnFrom.retract (h : s.DrawnFrom l) (hv : v ∈ l) (d : Domain) :
    (s.retract v d).DrawnFrom l := by
  unfold State.retract
  split
  · exact h
  · next fact hfact =>
    dsimp only
    split
    · exact h.forget
    · refine ⟨h.lookup_mem, h.stack_mem, fun {i f} hf => ?_⟩
      rw [SortedMap.get?_insert_eq] at hf
      split at hf
      · next hi =>
        obtain rfl := Option.some.inj hf
        exact ⟨hv, hi.symm, hi ▸ (h.fact_mem hfact).2.2⟩
      · exact h.fact_mem hf

/-- A state that is built from values of a ledger is drawn from the ledger. -/
theorem BuiltFrom.drawnFrom (h : s.BuiltFrom values) (hl : Ledger l)
    (hvalues : ∀ v ∈ values, v ∈ l) : s.DrawnFrom l := by
  induction h with
  | empty => exact empty_drawnFrom
  | bind _ x hv ih => exact ih.bind x (hvalues _ hv)
  | push _ hv ih => exact ih.push (hvalues _ hv)
  | @pop s _ ih =>
    rw [pop_eq]
    exact ih.drop 1
  | clearStack _ ih => exact ih.clearStack
  | assume _ hv hassume ih => exact ih.assume hl (hvalues _ hv) hassume
  | overwrite _ hv c ih => exact ih.overwrite (hvalues _ hv)
  | retract _ hv d ih => exact ih.retract (hvalues _ hv) d
  | forget _ v ih => exact ih.forget
  | clean _ ih => exact ih.clean

/-! ## Assumptions in states that agree -/

/-- Steps that agree on the values of interest can be composed. -/
theorem rel_bind {o o' : Option State} {f f' : State → Option State}
    (h : Option.Rel (AgreesOn W) o o')
    (hf : ∀ s t : State, s.AgreesOn W t → Option.Rel (AgreesOn W) (f s) (f' t)) :
    Option.Rel (AgreesOn W) (o.bind f) (o'.bind f') := by
  cases h with
  | none => exact .none
  | some h => exact hf _ _ h

namespace AgreesOn

/-- States that agree on a value know the same about its being null. -/
theorem nullability (h : s.AgreesOn W t) (hv : W v) : s.nullability v = t.nullability v := by
  rw [State.nullability, h.constraint hv]
  rfl

/-- They know the same about its being true. -/
theorem truth (h : s.AgreesOn W t) (hv : W v) : s.truth v = t.truth v := by
  rw [State.truth, h.constraint hv]
  rfl

/-- What is known of the other value is carried on alike. -/
theorem carry {equal : Bool} {other : Value} {f : Constraint → State → Option State}
    (hf : ∀ c (s t : State), s.AgreesOn W t → Option.Rel (AgreesOn W) (f c s) (f c t))
    (hother : W other) (h : s.AgreesOn W t) :
    Option.Rel (AgreesOn W) (State.carry equal other f s) (State.carry equal other f t) := by
  rw [carry_eq, carry_eq]
  refine rel_bind ?_ fun s t h => ?_
  · unfold carryNullability
    rw [h.nullability hother]
    split
    · exact hf _ s t h
    · exact hf _ s t h
    · exact .some h
  · unfold carryTruth
    rw [h.truth hother]
    split
    · exact hf _ s t h
    · exact .some h

/-- States that agree on the operands still agree after these have been equated. -/
theorem equate {equal : Bool} {left right : Value}
    (hoperand : ∀ o, o = left ∨ o = right → W o ∧ ∀ c (s t : State), s.AgreesOn W t →
      Option.Rel (AgreesOn W) (State.assume o c s) (State.assume o c t))
    (h : s.AgreesOn W t) :
    Option.Rel (AgreesOn W) (State.equate equal left right s)
      (State.equate equal left right t) := by
  obtain ⟨hleft, hassumeLeft⟩ := hoperand left (.inl rfl)
  obtain ⟨hright, hassumeRight⟩ := hoperand right (.inr rfl)
  exact rel_bind (h.carry hassumeRight hleft) fun _ _ h => h.carry hassumeLeft hright

/-- An assumption looks at the parts of its value only, and records something about these only. -/
theorem assume_of_parts (hW : ∀ u : Value, u.Part v → W u) (h : s.AgreesOn W t) :
    Option.Rel (AgreesOn W) (State.assume v c s) (State.assume v c t) := by
  induction v using Value.operandInduction generalizing c s t with
  | h v ih =>
    have hv : W v := hW v (.refl v)
    have hoperand : ∀ o ∈ v.operands, W o ∧ ∀ c (s t : State), s.AgreesOn W t →
        Option.Rel (AgreesOn W) (State.assume o c s) (State.assume o c t) :=
      fun o ho => ⟨hW o (.operand ho (.refl o)),
        fun c s t h => ih o ho (fun u hu => hW u (.operand ho hu)) h⟩
    rw [assume_eq, assume_eq, h.constraint hv]
    split
    · exact .some h
    · split
      · split
        · exact .some h
        · exact .none
      · have hrecorded := h.record hv c
        unfold spread
        split
        · exact (hoperand _ (by simp [Value.operands])).2 _ _ _ hrecorded
        · exact equate (fun o ho => hoperand o (by simpa [Value.operands] using ho)) hrecorded
        · exact equate (fun o ho => hoperand o (by simpa [Value.operands] using ho)) hrecorded
        · exact .some hrecorded

end AgreesOn

/-! ## Live values -/

/-- The parts of a live value are live. -/
theorem Live.part {u : Value} (hv : s.Live v) (hu : u.Part v) : s.Live u := by
  obtain ⟨r, hr, hpart⟩ := hv
  exact ⟨r, hr, hu.trans hpart⟩

/-- What is live depends on the variables and the stack only. -/
theorem live_eq (hbindings : t.bindings = s.bindings) (hstack : t.stack = s.stack) :
    t.Live = s.Live := by
  unfold Live roots
  rw [hbindings, hstack]

/-- A clean state stays as it is. -/
theorem clean_clean (s : State) : s.clean.clean = s.clean := by
  refine ext_get? rfl rfl fun i => ?_
  have hlive : s.clean.live = s.live := rfl
  rw [facts_clean, hlive, facts_clean]
  split <;> rfl

/-- States that agree on what is live are the same once they are clean. -/
theorem map_clean_eq {o o' : Option State} (h : Option.Rel (AgreesOn s.Live) o o')
    (hlive : ∀ t, o = some t → t.Live = s.Live) : o'.map clean = o.map clean := by
  cases h with
  | none => rfl
  | @some t t' h =>
    rw [← hlive t rfl] at h
    exact congrArg some h.clean_of_live.symm

/-- An assumption about a live value is refused after cleaning as it is before, or leads to the same
once that is cleaned. -/
theorem clean_assume (hl : Ledger l) (hs : s.DrawnFrom l) (hv : s.Live v) (c : Constraint) :
    (assume v c s.clean).map clean = (assume v c s).map clean := by
  have hagrees : s.AgreesOn s.Live s.clean :=
    ⟨rfl, rfl, fun u hu => (facts_clean_of_live hl hs hu).symm⟩
  refine map_clean_eq (hagrees.assume_of_parts fun u hu => hv.part hu) fun t ht => ?_
  obtain ⟨hbindings, hstack⟩ := bindings_stack_assume ht
  exact live_eq hbindings hstack

/-- Of any state that can be made with the values of a supply, cleaning keeps the variables and the
stack and just those facts that are about live values, and cleaning again changes nothing. An
assumption about a live value is refused by the state exactly if it is refused by the cleaned one;
otherwise what it leads to is the same in both cases, once it is cleaned. -/
theorem cleaning_keeps_live {σ : Supply} (hvalues : σ.HandedOut values) (hs : s.BuiltFrom values) :
    s.clean.bindings = s.bindings ∧ s.clean.stack = s.stack ∧
      (∀ i f, s.clean.facts.get? i = some f ↔ s.facts.get? i = some f ∧ s.Live f.value) ∧
      s.clean.clean = s.clean ∧
      ∀ v c, s.Live v →
        (assume v c s = none ↔ assume v c s.clean = none) ∧
        ∀ t t', assume v c s = some t → assume v c s.clean = some t' → t.clean = t'.clean := by
  obtain ⟨l, hl, -, hmem⟩ := hvalues.exists_ledger
  have hdrawn := hs.drawnFrom hl hmem
  refine ⟨rfl, rfl, fun i f => ⟨live_of_facts_clean hl hdrawn, ?_⟩, s.clean_clean, fun v c hv => ?_⟩
  · rintro ⟨hf, hlive⟩
    obtain ⟨-, rfl, -⟩ := hdrawn.fact_mem hf
    rw [facts_clean_of_live hl hdrawn hlive, hf]
  · have hclean := clean_assume hl hdrawn hv c
    refine ⟨?_, fun t t' ht ht' => ?_⟩
    · rw [← Option.map_eq_none_iff (f := clean), ← hclean, Option.map_eq_none_iff]
    · rw [ht, ht'] at hclean
      exact (Option.some.inj hclean).symm

/-- Whether a value is not null, as the negation of a test. -/
def negatedTest : Value := .not 8 (.equal 7 (.fresh 5) .null)

/-- A variable holds the negated test. The value that is tested and another one, which nothing holds
any more, have been disposed. -/
def withNegatedTest : State :=
  let s := empty.bind ⟨"x", .localVariable⟩ negatedTest
  (s.overwrite (.fresh 5) (.disposal .disposed)).overwrite (.fresh 6) (.disposal .disposed)

/-- The fact about the value that nothing holds is dropped, and the other one is kept. That the
value is not null is then assumed before cleaning and after it, and comes to the same. -/
theorem cleaning_keeps_live_negatedTest :
    ∃ σ values, Supply.HandedOut σ values ∧ withNegatedTest.BuiltFrom values ∧
      withNegatedTest.Live negatedTest ∧
      withNegatedTest.facts.size = 2 ∧ withNegatedTest.clean.facts.size = 1 ∧
      (withNegatedTest.clean.facts.get? 5).isSome = true ∧
      ∃ t t', assume negatedTest (.truth .holds) withNegatedTest = some t ∧
        assume negatedTest (.truth .holds) withNegatedTest.clean = some t' ∧
        t.facts.size ≠ t'.facts.size ∧ t.nullability (.fresh 5) = some .notNull ∧
        t.clean = t'.clean := by
  have hfresh : Supply.HandedOut ⟨7, .empty⟩ (.fresh 6 :: .fresh 5 :: Value.sharedValues) :=
    .fresh (.fresh .start)
  have htest : Supply.HandedOut ⟨8, .empty⟩
      (.equal 7 (.fresh 5) .null :: .fresh 6 :: .fresh 5 :: Value.sharedValues) :=
    @Supply.HandedOut.equal _ _ (.fresh 5) .null hfresh (by simp) (by simp [Value.sharedValues])
  have hvalues : Supply.HandedOut ⟨9, .empty⟩
      (negatedTest :: .equal 7 (.fresh 5) .null :: .fresh 6 :: .fresh 5 :: Value.sharedValues) :=
    htest.not List.mem_cons_self
  have hstate : withNegatedTest.BuiltFrom
      (negatedTest :: .equal 7 (.fresh 5) .null :: .fresh 6 :: .fresh 5 :: Value.sharedValues) :=
    .overwrite (.overwrite (.bind .empty _ List.mem_cons_self) (by simp) _) (by simp) _
  have hlive : withNegatedTest.Live negatedTest := live_of_lookup (x := ⟨"x", .localVariable⟩) rfl
  obtain ⟨-, -, -, -, hassume⟩ := cleaning_keeps_live hvalues hstate
  obtain ⟨t, ht, hnotNull, hsize⟩ : ∃ t,
      assume negatedTest (.truth .holds) withNegatedTest = some t ∧
      t.nullability (.fresh 5) = some .notNull ∧ t.facts.size = 4 := ⟨_, rfl, rfl, rfl⟩
  have hclean : withNegatedTest.clean.facts.size = 1 ∧
      (withNegatedTest.clean.facts.get? 5).isSome = true ∧
      (assume negatedTest (.truth .holds) withNegatedTest.clean).map (·.facts.size) = some 3 := by
    decide +kernel
  obtain ⟨t', ht', hsize'⟩ := Option.map_eq_some_iff.1 hclean.2.2
  exact ⟨_, _, hvalues, hstate, hlive, rfl, hclean.1, hclean.2.1, t, t', ht, ht',
    by simp [hsize, hsize'], hnotNull, (hassume _ _ hlive).2 t t' ht ht'⟩

end State

end Pathwise
