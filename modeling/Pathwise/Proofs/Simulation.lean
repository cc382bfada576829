import Pathwise.Proofs.Coherence
import Pathwise.Proofs.Feasible
import Pathwise.Proofs.Machine

/-!
# The steps of a run follow those of a memory

A state follows a memory if a valuation makes the memory out of it and gives data of the right type
to what its conditions compare and negate. When an instruction can be performed on the memory, no
check ends the path, and the state afterwards follows the memory afterwards. The valuation has to
change only at the identity of a value that the instruction makes.
-/

namespace Pathwise

variable {l : List Value} {ν : Valuation} {m m' : Memory} {s : State}

/-- A valuation makes a memory out of a state and types its live values well. -/
structure State.Follows (ν : Valuation) (s : State) (m : Memory) : Prop where
  /-- The valuation makes the memory. -/
  models : s.Models ν m
  /-- Live values are well typed. -/
  typed : ∀ {v}, s.Live v → v.WellTyped ν

/-- What a state that follows a memory offers is well typed. -/
theorem State.Follows.offers_typed (h : s.Follows ν m) {v : Value} (hv : s.Offers v) :
    v.WellTyped ν := by
  rcases hv.shared_or_live with hv | hv
  · exact Value.wellTyped_of_operands_nil (Value.operands_of_shared hv)
  · exact h.typed hv

/-- The datum of an operand. -/
theorem State.Models.operand (h : s.Models ν m) {n k : Nat} (hn : n ≤ m.stack.length) (hk : k < n) :
    (m.stack.take n)[k]? = some ((s.peek k).datum ν) := by
  rw [List.getElem?_take_of_lt hk]
  exact h.peek (by omega)

/-- The data of the two operands of a comparison. -/
theorem State.Models.comparands (h : s.Models ν m) {left right : Datum}
    (hcount : 2 ≤ m.stack.length) (htake : m.stack.take 2 = [right, left]) :
    (s.peek 1).datum ν = left ∧ (s.peek 0).datum ν = right := by
  have hleft := h.operand hcount (k := 1) (by omega)
  have hright := h.operand hcount (k := 0) (by omega)
  rw [htake] at hleft hright
  exact ⟨(Option.some.inj hleft).symm, (Option.some.inj hright).symm⟩

/-! ## Checks go on -/

/-- The standard effects say nothing about data. -/
theorem Effects.standard_not_concrete {method : MethodRef} {e : Effect}
    (h : e ∈ Effects.standard.of method) : ¬e.constraint.IsConcrete := by
  rcases Effects.mem_standard h with rfl | rfl <;> simp [Constraint.IsConcrete, Constraint.domain]

namespace State

variable {s' : State} {v : Value} {c : Constraint}

/-- A state still fits a memory with one more fact that is true of its value. -/
theorem Fits.overwrite (hl : Ledger l) (hs : s.Fits ν l m) (hv : v ∈ l)
    (hc : c.TrueOf (v.datum ν)) : (s.overwrite v c).Fits ν l m :=
  ⟨hs.models.overwrite hl hs.drawn hv hc, hs.drawn.overwrite hv⟩

/-- An assumption that says nothing about data is harmless. -/
theorem Fits.assume_abstract (hl : Ledger l) (hs : s.Fits ν l m) (hv : v ∈ l) (hc : ¬c.IsConcrete)
    (h : State.assume v c s = some s') : s'.Fits ν l m := by
  rcases assume_of_not_truth (fun hd => hc (.inr hd)) h with rfl | rfl
  · exact hs
  · exact hs.overwrite hl hv (Constraint.trueOf_of_not_concrete hc)

end State

namespace Rule

variable (site : Site) (j : Journal)

/-- A dereference that an execution makes is not stopped by the check for null. -/
theorem beforeDereference_goesOn (hl : Ledger l) (hs : s.Fits ν l m)
    (htyped : ∀ v, s.Offers v → v.WellTyped ν)
    (hreceiver : ∀ v, site.receiver s = some v → v.datum ν ≠ .null) :
    ∃ s' j', beforeDereference site s j = (.goOn s', j') ∧ s'.Fits ν l m := by
  unfold beforeDereference
  split
  · exact ⟨s, j, rfl, hs⟩
  · next object hobject =>
    have hoffers := Site.receiver_offers hobject
    have hmem := hoffers.mem hl hs.drawn
    split
    · next hnull =>
      have hconstraint : s.constraint object .nullability = some (.nullability .null) :=
        beq_iff_eq.1 hnull
      have hdatum : object.datum ν = .null :=
        hs.models.trueOf_constraint hl hs.drawn hmem hconstraint
      exact absurd hdatum (hreceiver object hobject)
    · obtain ⟨s', hassume, hs'⟩ := hs.assume (c := .nullability .notNull) hl hmem
        (htyped object hoffers) (.inl rfl) (hreceiver object hobject)
      exact ⟨s', j, by rw [hassume]; rfl, hs'⟩

/-- The check for repeated disposal stops no path and records what fits. -/
theorem beforeDispose_fits (hl : Ledger l) (hs : s.Fits ν l m) :
    ∃ s' j', beforeDispose site s j = (.goOn s', j') ∧ s'.Fits ν l m := by
  unfold beforeDispose
  split
  · exact ⟨s, j, rfl, hs⟩
  · split
    · exact ⟨s, j, rfl, hs⟩
    · next object hobject =>
      split
      · exact ⟨s, j, rfl, hs⟩
      · split
        · exact ⟨s, _, rfl, hs⟩
        · have hmem := (Site.receiver_offers hobject).mem hl hs.drawn
          exact ⟨_, j, rfl, hs.overwrite hl hmem trivial⟩

/-- An array can be marked while it counts neither as random nor as long. -/
def Markable (s : State) : Prop :=
  s.Admits (s.peek 0) (.byteArray .constant) ∧ s.Admits (s.peek 0) (.saltSize .short)

/-- An array that can be marked is marked, and can be marked again. -/
theorem markArray_goesOn (semantics : Semantics) (dimensions : List NodeId)
    (hmarkable : Markable s) : ∃ s', markArray semantics dimensions s = some s' ∧ Markable s' := by
  have hpeek : ∀ {c : Constraint} {s₁ s₂ : State}, State.assume (s.peek 0) c s₁ = some s₂ →
      s₁.peek 0 = s.peek 0 → s₂.peek 0 = s.peek 0 := by
    intro c s₁ s₂ hassume hsame
    rw [← hsame, State.peek, (State.bindings_stack_assume hassume).2]
    rfl
  obtain ⟨t, hassume, hkept⟩ := State.assume_of_admits (by simp [Constraint.domain]) hmarkable.1
  have hconstant := hkept _ (.byteArray .constant) (fun _ => rfl) hmarkable.1
  have hshort := hkept _ (.saltSize .short) (by simp [Constraint.domain]) hmarkable.2
  have htmarkable : Markable t := by
    unfold Markable
    rw [hpeek hassume rfl]
    exact ⟨hconstant, hshort⟩
  simp only [markArray, hassume, bind, Option.bind]
  split
  · split
    · obtain ⟨t', hassume', hkept'⟩ := State.assume_of_admits (by simp [Constraint.domain]) hshort
      refine ⟨t', hassume', ?_⟩
      unfold Markable
      rw [hpeek hassume' (hpeek hassume rfl)]
      exact ⟨hkept' _ (.byteArray .constant) (by simp [Constraint.domain]) hconstant,
        hkept' _ (.saltSize .short) (fun _ => rfl) hshort⟩
    · exact ⟨t, rfl, htmarkable⟩
  · exact ⟨t, rfl, htmarkable⟩

/-- After a creation the check for weak salts stops no path. -/
theorem afterCreation_goesOn
    (hmarkable : ∀ dimensions, site.instruction.operation = .arrayCreation dimensions →
      Markable s) :
    ∃ s' j', afterCreation site s j = (.goOn s', j') ∧
      ∀ dimensions, site.instruction.operation = .arrayCreation dimensions → Markable s' := by
  unfold afterCreation
  split
  · next dimensions hcreation =>
    split
    · obtain ⟨s', hmark, hmarkable'⟩ :=
        markArray_goesOn site.semantics dimensions (hmarkable dimensions hcreation)
      exact ⟨s', j, by rw [hmark]; rfl, fun _ _ => hmarkable'⟩
    · exact ⟨s, j, rfl, hmarkable⟩
  · exact ⟨s, j, rfl, hmarkable⟩

/-- Marking an array says nothing about data. -/
theorem afterCreation_fits (hl : Ledger l) (hs : s.Fits ν l m) {s' : State} {j' : Journal}
    (h : afterCreation site s j = (.goOn s', j')) : s'.Fits ν l m := by
  unfold afterCreation at h
  split at h
  · split at h
    · refine markArray_induction (P := fun t => t.Fits ν l m) (fun c t t' hc hassume ht => ?_)
        (Verdict.eq_some_of_ofOption (Prod.mk.inj h).1) hs
      have habstract : ¬c.IsConcrete := by
        rcases hc with hc | hc <;> simp [Constraint.IsConcrete, hc]
      exact ht.assume_abstract hl (hs.drawn.peek_mem hl 0) habstract hassume
    · exact Verdict.goOn.inj (Prod.mk.inj h).1 ▸ hs
  · exact Verdict.goOn.inj (Prod.mk.inj h).1 ▸ hs

end Rule

namespace Check.Standard

variable {c : Check}

/-- Before an instruction that does not dereference null every check goes on. -/
theorem before_goesOn (hc : c.Standard) (site : Site) (j : Journal) (hl : Ledger l)
    (hs : s.Fits ν l m) (htyped : ∀ v, s.Offers v → v.WellTyped ν)
    (hreceiver : ∀ v, site.receiver s = some v → v.datum ν ≠ .null) :
    ∃ s' j', c.hook .before site s j = (.goOn s', j') ∧ s'.Fits ν l m := by
  cases hc with
  | nullDereference => exact Rule.beforeDereference_goesOn site j hl hs htyped hreceiver
  | repeatedDispose => exact Rule.beforeDispose_fits site j hl hs
  | weakSalt =>
    obtain ⟨j', hj⟩ := Rule.beforeDerivation_goesOn site s j
    exact ⟨s, j', hj, hs⟩

/-- After an instruction every check goes on if a new array can be marked. -/
theorem after_goesOn (hc : c.Standard) (site : Site) (j : Journal) (hmarkable : ∀ dimensions,
      site.instruction.operation = .arrayCreation dimensions → Rule.Markable s) :
    ∃ s' j', c.hook .after site s j = (.goOn s', j') ∧
      ∀ dimensions, site.instruction.operation = .arrayCreation dimensions → Rule.Markable s' := by
  cases hc with
  | nullDereference | repeatedDispose => exact ⟨s, j, rfl, hmarkable⟩
  | weakSalt => exact Rule.afterCreation_goesOn site j hmarkable

/-- What a check of this library does after an instruction fits the memory. -/
theorem after_fits (hc : c.Standard) {site : Site} {j j' : Journal} {s' : State} (hl : Ledger l)
    (hs : s.Fits ν l m) (h : c.hook .after site s j = (.goOn s', j')) : s'.Fits ν l m := by
  cases hc with
  | nullDereference | repeatedDispose => exact Verdict.goOn.inj (Prod.mk.inj h).1 ▸ hs
  | weakSalt => exact Rule.afterCreation_fits site j hl hs h

end Check.Standard

/-- Checks that go on one by one and keep something go on one after the other and keep it. -/
theorem Run.callChecks_goesOn (plan : Plan) (moment : Moment) (point : Point) (i : Instruction)
    {P : State → Prop} {slots : List Slot}
    (hhook : ∀ slot ∈ slots, ∀ s j, P s → ∃ s' j', slot.check.hook moment
      ⟨slot.check.rule, point, i, plan.setting.semantics⟩ s j = (.goOn s', j') ∧ P s')
    (j : Journal) (hs : P s) :
    ∃ j' s', callChecks plan moment point i slots j s = (slots, j', some s') ∧ P s' := by
  induction slots generalizing j s with
  | nil => exact ⟨j, s, rfl, hs⟩
  | cons slot rest ih =>
    have hrest := fun other hother => hhook other (List.mem_cons_of_mem slot hother)
    rw [callChecks]
    split
    · obtain ⟨s₁, j₁, heq, hs₁⟩ := hhook slot List.mem_cons_self s j hs
      obtain ⟨j', s', hcalls, hs'⟩ := ih hrest j₁ hs₁
      exact ⟨j', s', by simp only [heq, hcalls], hs'⟩
    · obtain ⟨j', s', hcalls, hs'⟩ := ih hrest j hs
      exact ⟨j', s', by simp only [hcalls], hs'⟩

/-! ## Outlines act on memories -/

namespace Outline

/-- Does to a memory what the outline says, for the data that a valuation gives. -/
def act (o : Outline) (ν : Valuation) (m : Memory) : Memory :=
  let bound := match o.rebinds with
    | some (x, v) => m.set x (v.datum ν)
    | none => m
  match o.pushed with
  | some v => { bound with stack := v.datum ν :: bound.stack }
  | none => bound

/-- A valuation carries an outline from one memory to another: what is written is true, what is
bound or pushed is well typed. -/
structure Carries (o : Outline) (ν : Valuation) (m m' : Memory) : Prop where
  /-- What is written is true. -/
  writes : ∀ w ∈ o.writes, w.2.TrueOf (w.1.datum ν)
  /-- What is bound is well typed. -/
  rebinds : ∀ {y v}, o.rebinds = some (y, v) → v.WellTyped ν
  /-- What is pushed is well typed. -/
  pushed : ∀ {v}, o.pushed = some v → v.WellTyped ν
  /-- The second memory is what the outline makes of the first. -/
  memory : o.act ν m = m'

variable {o : Outline} {v : Value} {d : Datum} {σ : Supply}

/-- Writes that are true of their values leave a model a model. -/
theorem models_writeAll (hl : Ledger l) (hs : s.DrawnFrom l) (h : s.Models ν m)
    {writes : List (Value × Constraint)} (hmem : ∀ w ∈ writes, w.1 ∈ l)
    (htrue : ∀ w ∈ writes, w.2.TrueOf (w.1.datum ν)) : (writeAll writes s).Models ν m := by
  refine (writeAll_induction (P := fun t => t.DrawnFrom l ∧ t.Models ν m) ?_ ⟨hs, h⟩).2
  rintro w hw t ⟨ht, hmodels⟩
  exact ⟨ht.overwrite (hmem w hw), hmodels.overwrite hl ht (hmem w hw) (htrue w hw)⟩

/-- An outline that a valuation carries takes a state that follows the one memory to a state that
follows the other. -/
theorem Carries.follows (ho : o.Carries ν m m') (hl : Ledger l) (hs : s.DrawnFrom l)
    (hmentions : ∀ v, o.Mentions v → v ∈ l) (h : s.Follows ν m) : (o.apply s).Follows ν m' where
  models := by
    rw [← ho.memory]
    have hrebinds : ∀ y v, o.rebinds = some (y, v) → v ∈ l :=
      fun y v hv => hmentions v (.inl ⟨y, hv⟩)
    have hwrites : ∀ w ∈ o.writes, w.1 ∈ l := fun w hw => hmentions w.1 (.inr (.inl ⟨w.2, hw⟩))
    have hwritten : ∀ (t : State) (k : Memory), t.DrawnFrom l → t.Models ν k →
        (writeAll o.writes t).Models ν k :=
      fun t k ht hk => models_writeAll hl ht hk hwrites ho.writes
    unfold apply act
    cases hr : o.rebinds with
    | none =>
      cases o.pushed with
      | none => exact hwritten s m hs h.models
      | some v => exact (hwritten s m hs h.models).push v
    | some r =>
      have hbound := h.models.bind r.1 r.2
      have hdrawn := hs.bind r.1 (hrebinds r.1 r.2 hr)
      cases o.pushed with
      | none => exact hwritten _ _ hdrawn hbound
      | some v => exact (hwritten _ _ hdrawn hbound).push v
  typed := by
    rintro v ⟨r, hr, hpart⟩
    rcases root_apply hr with ⟨x, hx⟩ | hpushed | hr
    · exact (ho.rebinds hx).part hpart
    · exact (ho.pushed hpushed).part hpart
    · exact h.typed ⟨r, hr, hpart⟩

/-- An outline that pushes a value carries a memory on to one with the datum of the value on top. -/
theorem carries_pushing (hv : v.WellTyped ν) (hd : v.datum ν = d) :
    (pushing v σ).Carries ν m { m with stack := d :: m.stack } where
  writes := by simp [pushing]
  rebinds := by simp [pushing]
  pushed := by
    intro w hw
    exact Option.some.inj hw ▸ hv
  memory := by
    rw [← hd]
    rfl

/-- So does one that pushes a fresh value, with the datum that the valuation gives it. -/
theorem carries_pushingFresh {writes : List (Value × Constraint)}
    (hwrites : ∀ w ∈ writes, w.2.TrueOf (w.1.datum ν)) (hd : ν σ.next = d) :
    (pushingFresh writes σ).Carries ν m { m with stack := d :: m.stack } where
  writes := hwrites
  rebinds := by simp [pushingFresh]
  pushed := by
    intro w hw
    exact Option.some.inj hw ▸ Value.wellTyped_of_operands_nil rfl
  memory := by
    rw [← hd]
    rfl

/-- An outline that only drops is carried by every valuation. -/
theorem carries_quiet (ν : Valuation) (m : Memory) :
    (⟨none, [], none, σ⟩ : Outline).Carries ν m m where
  writes := by simp
  rebinds := by simp
  pushed := by simp
  memory := rfl

end Outline

/-- The valuation with a new datum for one identity. -/
def Valuation.set (ν : Valuation) (i : Nat) (d : Datum) : Valuation :=
  fun k => if k = i then d else ν k

/-- Two valuations agree on a ledger. -/
def Valuation.AgreesOn (ν ν' : Valuation) (l : List Value) : Prop := ∀ v ∈ l, ν v.id = ν' v.id

/-- What is said of a new value changes nothing for the values of the ledger. -/
theorem Valuation.set_agreesOn {σ : Supply} (hl : Ledger l) (ht : σ.Tracks l) (ν : Valuation)
    (d : Datum) : ν.AgreesOn (ν.set σ.next d) l := by
  intro v hv
  have hlt := hl.id_lt hv
  rw [← ht.next_eq] at hlt
  exact (if_neg (by omega)).symm

/-- Whatever agrees on the ledger follows the same memories. -/
theorem State.Follows.congr {ν' : Valuation} (h : s.Follows ν m) (hl : Ledger l)
    (hs : s.DrawnFrom l) (hν : ν.AgreesOn ν' l) : s.Follows ν' m where
  models := h.models.congr hl hs hν
  typed := fun hv => (h.typed hv).congr fun u hu => hν u (hl.part hu (hv.mem hl hs)).1

/-- Taking as many values off the stack as data leaves a state that follows. -/
theorem State.Follows.drop (h : s.Follows ν m) (n : Nat) :
    State.Follows ν { s with stack := s.stack.drop n } { m with stack := m.stack.drop n } where
  models := h.models.drop n
  typed := by
    rintro v ⟨r, hr, hpart⟩
    refine h.typed ⟨r, ?_, hpart⟩
    rcases mem_roots.1 hr with hr | hr
    · exact mem_roots.2 (.inl hr)
    · exact mem_roots.2 (.inr (List.mem_of_mem_drop hr))

namespace Supply

variable {σ : Supply} {left right v : Value}

/-- Two values that are compared are decided to be equal only if they are the same. -/
theorem equal_means (hl : Ledger l) (hleft : left ∈ l) (hright : right ∈ l)
    (htyped : ∀ o ∈ [left, right], o.WellTyped ν) (halike : (left.datum ν).Alike (right.datum ν)) :
    (σ.equal left right).1.WellTyped ν ∧
      (σ.equal left right).1.datum ν = .bool (left.datum ν = right.datum ν) := by
  unfold equal
  split
  · next hsame =>
    rw [hl.eq_of_id hleft hright (beq_iff_eq.1 hsame)]
    exact ⟨Value.wellTyped_of_operands_nil rfl, by simp [Value.datum]⟩
  · exact ⟨Value.wellTyped_of_operands halike htyped, rfl⟩

/-- The inequality of two values means that their data differ. -/
theorem notEqual_means (hl : Ledger l) (hleft : left ∈ l) (hright : right ∈ l)
    (htyped : ∀ o ∈ [left, right], o.WellTyped ν) (halike : (left.datum ν).Alike (right.datum ν)) :
    (σ.notEqual left right).1.WellTyped ν ∧
      (σ.notEqual left right).1.datum ν = .bool (left.datum ν ≠ right.datum ν) := by
  unfold notEqual
  split
  · next hsame =>
    rw [hl.eq_of_id hleft hright (beq_iff_eq.1 hsame)]
    exact ⟨Value.wellTyped_of_operands_nil rfl, by simp [Value.datum]⟩
  · exact ⟨Value.wellTyped_of_operands halike htyped, rfl⟩

/-- The negation of a condition means the opposite truth value. -/
theorem not_means {b : Bool} (htyped : v.WellTyped ν) (hdatum : v.datum ν = .bool b) :
    (σ.not v).1.WellTyped ν ∧ (σ.not v).1.datum ν = .bool !b := by
  unfold not
  split
  · exact ⟨Value.wellTyped_of_operands_nil rfl, by simp_all [Value.datum]⟩
  · refine ⟨Value.wellTyped_of_operands ?_ ?_, ?_⟩
    · simp [issue, Value.Sensible, hdatum, Datum.isBool]
    · simpa [issue, Value.operands] using htyped
    · simp [issue, Value.datum, hdatum]

end Supply

/-! ## Instructions -/

/-- To put a datum where it is already changes nothing. -/
@[simp]
theorem Memory.set_store (m : Memory) (y : Symbol) : m.set y (m.store y) = m := by
  have hstore : (fun z => if z = y then m.store y else m.store z) = m.store := by
    funext z
    by_cases hz : z = y <;> simp [hz]
  rw [Memory.set, hstore]

namespace Setting

variable {x : Setting} {σ : Supply} {i : Instruction} {d : Datum}

/-- Reading a variable pushes what it holds; what was never read or assigned may hold anything. -/
theorem readOutline_carried (hl : Ledger l) (ht : σ.Tracks l) (h : s.Follows ν m) {node : NodeId}
    (hd : ∀ y, x.semantics.symbol node = some y → d = m.store y) (stack : List Datum) :
    ∃ ν', ν.AgreesOn ν' l ∧
      (x.readOutline node σ s).Carries ν' { m with stack := stack }
        { m with stack := d :: stack } := by
  have hset := ν.set_agreesOn hl ht d
  have hnext : ν.set σ.next d σ.next = d := if_pos rfl
  unfold readOutline
  cases hsymbol : x.semantics.symbol node with
  | none => exact ⟨_, hset, Outline.carries_pushingFresh (by simp) hnext⟩
  | some y =>
    have hdy := hd y hsymbol
    dsimp only
    cases hlookup : s.lookup y with
    | some v =>
      have htyped := h.offers_typed (State.offers_lookup hlookup)
      refine ⟨ν, fun _ _ => rfl, Outline.carries_pushing htyped ?_⟩
      rw [h.models.lookup hlookup, hdy]
    | none =>
      refine ⟨_, hset, by simp [Outline.pushingFresh], fun hv => ?_, fun hv => ?_, ?_⟩
      · obtain ⟨-, rfl⟩ := Prod.mk.inj (Option.some.inj hv)
        exact Value.wellTyped_of_operands_nil rfl
      · exact Option.some.inj hv ▸ Value.wellTyped_of_operands_nil rfl
      · have hsame : Memory.set { m with stack := stack } y d = { m with stack := stack } := by
          rw [hdy]
          exact Memory.set_store { m with stack := stack } y
        simp only [Outline.act, Outline.pushingFresh, Value.datum, hnext, hsame]

/-- The standard effects are true of every datum. -/
theorem effectWrites_trueOf (heffects : x.effects = .standard) {node : NodeId} {c : Call}
    {w : Value × Constraint} (hw : w ∈ x.effectWrites node c) : w.2.TrueOf d := by
  unfold effectWrites at hw
  split at hw
  · obtain ⟨e, he, hmap⟩ := List.mem_filterMap.1 hw
    obtain ⟨v, _, rfl⟩ := Option.map_eq_some_iff.1 hmap
    exact Constraint.trueOf_of_not_concrete (Effects.standard_not_concrete (heffects ▸ he))
  · cases hw

/-- An assignment puts the datum of the value on top of the stack into the variable. -/
theorem assign_carried (h : s.Follows ν m) (hassign : i.operation = .assign) {rest : List Datum}
    {y : Symbol} (hstack : m.stack = d :: rest) (hsymbol : x.semantics.symbol i.node = some y) :
    (x.outline i σ s).Carries ν { m with stack := rest } ({ m with stack := rest }.set y d) := by
  have hdatum : (s.peek 0).datum ν = d := by
    have hpeek := h.models.peek (n := 0) (by simp [hstack])
    rw [hstack] at hpeek
    exact (Option.some.inj hpeek).symm
  have houtline : x.outline i σ s = ⟨some (y, s.peek 0), [], none, σ⟩ := by
    unfold outline
    simp only [hassign, hsymbol, Option.map_some]
  rw [houtline]
  refine ⟨by simp, fun hv => ?_, by simp, ?_⟩
  · obtain ⟨-, rfl⟩ := Prod.mk.inj (Option.some.inj hv)
    exact h.offers_typed (s.offers_peek 0)
  · simp only [Outline.act, hdatum]

/-- What an instruction does to a memory is what its outline does, for a valuation that agrees on
the ledger with the one so far. -/
theorem outline_carried (heffects : x.effects = .standard) (hl : Ledger l) (ht : σ.Tracks l)
    (hs : s.DrawnFrom l) (h : s.Follows ν m) (hp : Performs x Datum.Alike i m m') :
    ∃ ν', ν.AgreesOn ν' l ∧ (x.outline i σ s).Carries ν'
      { m with stack := m.stack.drop i.operation.operandCount } m' := by
  have hself : ν.AgreesOn ν l := fun _ _ => rfl
  obtain ⟨node, operation, span⟩ := i
  cases hp with
  | @push d hcount hyields =>
    have hset := ν.set_agreesOn hl ht d
    have hnext : ν.set σ.next d σ.next = d := if_pos rfl
    have hnotNull : d ≠ .null → ∀ w ∈ [(Value.fresh σ.next, Constraint.nullability .notNull)],
        w.2.TrueOf (w.1.datum (ν.set σ.next d)) := by
      intro hd
      simpa [Constraint.TrueOf, Value.datum, hnext] using hd
    have htyped : ∀ n, (s.peek n).WellTyped ν := fun n => h.offers_typed (s.offers_peek n)
    cases operation with
    | identifier => exact readOutline_carried hl ht h hyields _
    | literal c =>
      cases c with
      | null =>
        exact ⟨ν, hself, Outline.carries_pushing (Value.wellTyped_of_operands_nil rfl) hyields.symm⟩
      | bool b =>
        exact ⟨ν, hself, Outline.carries_pushing (Value.wellTyped_of_operands_nil rfl) hyields.symm⟩
      | integer n => exact ⟨_, hset, Outline.carries_pushingFresh (by simp) hnext⟩
      | string text => exact ⟨_, hset, Outline.carries_pushingFresh (hnotNull hyields) hnext⟩
    | self =>
      exact ⟨ν, hself, Outline.carries_pushing (Value.wellTyped_of_operands_nil rfl) hyields.symm⟩
    | objectCreation arguments =>
      refine ⟨_, hset, Outline.carries_pushingFresh (fun w hw => ?_) hnext⟩
      rcases List.mem_append.1 hw with hw | hw
      · exact effectWrites_trueOf heffects hw
      · exact hnotNull hyields w hw
    | arrayCreation dimensions =>
      exact ⟨_, hset, Outline.carries_pushingFresh (hnotNull hyields) hnext⟩
    | invocation arguments hasReceiver =>
      refine ⟨_, hset, Outline.carries_pushingFresh (fun w hw => ?_) hnext⟩
      exact effectWrites_trueOf heffects hw
    | memberAccess =>
      simp only [outline]
      split
      · next hfield =>
        obtain ⟨hselfish, hfield⟩ := Bool.and_eq_true_iff.1 hfield
        have hthis : (m.stack.take 1)[0]? = some .this := by
          rw [h.models.operand (n := 1) hcount Nat.one_pos, hl.eq_self (hs.peek_mem hl 0) hselfish]
          rfl
        exact readOutline_carried hl ht h (hyields.2 hthis hfield) _
      · exact ⟨_, hset, Outline.carries_pushingFresh (by simp) hnext⟩
    | binary op =>
      have hoperands : ∀ o ∈ [s.peek 1, s.peek 0], o.WellTyped ν := by simp [htyped]
      have hmem := fun n => hs.peek_mem hl n
      cases op with
      | equals =>
        obtain ⟨left, right, htake, halike, rfl⟩ := hyields
        obtain ⟨rfl, rfl⟩ := h.models.comparands hcount htake
        have hequal := Supply.equal_means (σ := σ) hl (hmem 1) (hmem 0) hoperands halike
        exact ⟨ν, hself, Outline.carries_pushing hequal.1 hequal.2⟩
      | notEquals =>
        obtain ⟨left, right, htake, halike, rfl⟩ := hyields
        obtain ⟨rfl, rfl⟩ := h.models.comparands hcount htake
        have hdiffer := Supply.notEqual_means (σ := σ) hl (hmem 1) (hmem 0) hoperands halike
        exact ⟨ν, hself, Outline.carries_pushing hdiffer.1 hdiffer.2⟩
      | relational | arithmetic => exact ⟨_, hset, Outline.carries_pushingFresh (by simp) hnext⟩
    | logicalNot =>
      obtain ⟨b, htake, rfl⟩ := hyields
      have hoperand := h.models.operand hcount (k := 0) (by simp [Operation.operandCount])
      rw [htake] at hoperand
      have hnot := Supply.not_means (σ := σ) (htyped 0) (Option.some.inj hoperand).symm
      exact ⟨ν, hself, Outline.carries_pushing hnot.1 hnot.2⟩
    | assign | pop | raise | ret => exact hyields.elim
  | assign hoperation hstack hsymbol =>
    obtain rfl : operation = .assign := hoperation
    simpa only [Operation.operandCount, hstack, List.drop_one, List.tail_cons] using
      ⟨ν, hself, assign_carried h rfl hstack hsymbol⟩
  | drop hcount hpushes hsymbol =>
    refine ⟨ν, hself, ?_⟩
    cases operation with
    | assign =>
      simp only [outline, hsymbol rfl, Option.map_none]
      exact Outline.carries_quiet ν _
    | pop | raise | ret => exact Outline.carries_quiet ν _
    | identifier | literal | self | objectCreation | arrayCreation | invocation | memberAccess
    | binary | logicalNot => cases hpushes

end Setting

/-! ## Steps -/

/-- An instruction that can be performed does not dereference null. -/
theorem Performs.receiver_ne_null {x : Setting} {ok : Datum → Datum → Prop} {i : Instruction}
    (hp : Performs x ok i m m') (h : s.Models ν m) {site : Site} (hsite : site.instruction = i)
    {v : Value} (hv : site.receiver s = some v) : v.datum ν ≠ .null := by
  obtain ⟨node, operation, span⟩ := i
  unfold Site.receiver at hv
  rw [hsite] at hv
  cases hp with
  | push hcount hyields =>
    dsimp only at hv
    split at hv
    · next arguments =>
      obtain rfl := Option.some.inj hv
      have hoperand := h.operand hcount (k := arguments.length) (by simp [Operation.operandCount])
      intro hnull
      exact hyields rfl (hnull ▸ hoperand)
    · obtain rfl := Option.some.inj hv
      have hoperand := h.operand hcount (k := 0) (by simp [Operation.operandCount])
      intro hnull
      exact hyields.1 (hnull ▸ hoperand)
    · cases hv
  | assign hoperation _ _ =>
    obtain rfl : operation = .assign := hoperation
    cases hv
  | drop _ hpushes _ =>
    dsimp only at hv
    split at hv
    · cases hpushes
    · cases hpushes
    · cases hv

/-- Nothing is recorded about a value that has just been made, so a new array can be marked. -/
theorem Setting.markable_outline {x : Setting} {i : Instruction} {σ : Supply} (hl : Ledger l)
    (ht : σ.Tracks l) (hs : s.DrawnFrom l) {dimensions : List NodeId}
    (hcreation : i.operation = .arrayCreation dimensions) (n : Nat) :
    Rule.Markable ((x.outline i σ s).apply { s with stack := s.stack.drop n }) := by
  have hnew := newOnTop (x := x) hcreation hl ht hs n
  unfold Rule.Markable
  rw [hnew.top]
  exact ⟨.inl (hnew.constraint_eq .byteArray), .inl (hnew.constraint_eq .saltSize)⟩

namespace Run

variable {plan : Plan} {run : Run} {i : Instruction}

/-- No check stops a path before an instruction that an execution performs. -/
theorem callChecks_before (point : Point) {slots : List Slot}
    (hslots : ∀ slot ∈ slots, slot.check.Standard)
    (hl : Ledger l) (hs : s.DrawnFrom l) (h : s.Follows ν m)
    (hp : Performs plan.setting Datum.Alike i m m') (j : Journal) :
    ∃ j' s', callChecks plan .before point i slots j s = (slots, j', some s') ∧
      s'.DrawnFrom l ∧ s'.Follows ν m := by
  obtain ⟨j', s', hcalls, hadjust, hfits⟩ :=
    callChecks_goesOn (P := fun t => s.AdjustsTo t ∧ t.Fits ν l m) plan .before point i
      (by
        rintro slot hslot t j ⟨hadjust, hfits⟩
        obtain ⟨t', j', hhook, hfits'⟩ := (hslots slot hslot).before_goesOn
          ⟨slot.check.rule, point, i, plan.setting.semantics⟩ j hl hfits
          (fun v hv => h.offers_typed (hadjust.offers hv))
          (fun v hv => hp.receiver_ne_null hfits.models rfl hv)
        exact ⟨t', j', hhook, hadjust.trans ((hslots slot hslot).adjusts hhook), hfits'⟩)
      j ⟨.refl s, h.models, hs⟩
  exact ⟨j', s', hcalls, hfits.drawn, hfits.models, fun hv => h.typed (hadjust.live hv)⟩

/-- Nor does one after the instruction. -/
theorem callChecks_after (plan : Plan) (point : Point) {slots : List Slot}
    (hslots : ∀ slot ∈ slots, slot.check.Standard)
    (hl : Ledger l) (hs : s.DrawnFrom l) (h : s.Follows ν m)
    (hmarkable : ∀ dimensions, i.operation = .arrayCreation dimensions → Rule.Markable s)
    (j : Journal) :
    ∃ j' s', callChecks plan .after point i slots j s = (slots, j', some s') ∧ s'.Follows ν m := by
  obtain ⟨j', s', hcalls, hadjust, hfits, -⟩ :=
    callChecks_goesOn (P := fun t => s.AdjustsTo t ∧ t.Fits ν l m ∧
        ∀ dimensions, i.operation = .arrayCreation dimensions → Rule.Markable t) plan .after point i
      (by
        rintro slot hslot t j ⟨hadjust, hfits, hmark⟩
        obtain ⟨t', j', hhook, hmark'⟩ := (hslots slot hslot).after_goesOn
          ⟨slot.check.rule, point, i, plan.setting.semantics⟩ j hmark
        exact ⟨t', j', hhook, hadjust.trans ((hslots slot hslot).adjusts hhook),
          (hslots slot hslot).after_fits hl hfits hhook, hmark'⟩)
      j ⟨.refl s, ⟨h.models, hs⟩, hmarkable⟩
  exact ⟨j', s', hcalls, hfits.models, fun hv => h.typed (hadjust.live hv)⟩

/-- When an instruction can be performed on a memory that the state follows, the path goes on with a
state that follows the memory afterwards. -/
theorem step_follows (point : Point) (heffects : plan.setting.effects = .standard)
    (hrun : run.Standard) (hl : Ledger l) (ht : run.supply.Tracks l) (hs : s.DrawnFrom l)
    (h : s.Follows ν m) (hp : Performs plan.setting Datum.Alike i m m') :
    ∃ s' run' ν', run.step plan point i s = (some s', run') ∧ s'.Follows ν' m' := by
  obtain ⟨j₁, s₁, hbefore, hs₁, h₁⟩ := callChecks_before point hrun hl hs h hp run.journal
  -- the instruction itself, on a ledger that holds what it makes
  obtain ⟨new, hissues, hmentions⟩ := plan.setting.outline_drawsOn run.supply s₁ i
  obtain ⟨hl', -⟩ := hissues.ledger hl ht hs₁
  have hmem : ∀ v, (plan.setting.outline i run.supply s₁).Mentions v → v ∈ l ++ new := by
    intro v hv
    rcases hmentions v hv with hv | hv
    · exact List.mem_append_left _ (hv.mem hl hs₁)
    · exact List.mem_append_right _ hv
  obtain ⟨ν', hagrees, hcarries⟩ := plan.setting.outline_carried heffects hl ht hs₁ h₁ hp
  have hdrop := (hs₁.mono (List.prefix_append l new)).drop i.operation.operandCount
  obtain ⟨j₂, s₂, hafter, h₂⟩ := callChecks_after plan point hrun hl'
    (Outline.apply_drawnFrom hdrop hmem)
    (hcarries.follows hl' hdrop hmem ((h₁.congr hl hs₁ hagrees).drop i.operation.operandCount))
    (fun dimensions hcreation => plan.setting.markable_outline hl ht hs₁ hcreation _) j₁
  refine ⟨s₂, { run with
    supply := (plan.setting.outline i run.supply s₁).supply, journal := j₂ }, ν', ?_, h₂⟩
  simp only [step, checked, hbefore, Setting.execute_eq, hafter]

end Run

end Pathwise
