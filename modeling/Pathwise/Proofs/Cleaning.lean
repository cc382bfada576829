import Pathwise.Proofs.Widening

/-!
# Cleaning and what comes after it

Cleaning drops the facts about values that are neither in a variable nor on the stack nor part of
what is. Most of them can never matter again. The exception are the shared values: an instruction
can bring them back out of nothing, and then a fact that was dropped is missed. This is the only
way in which cleaning can be noticed.
-/

namespace Pathwise

namespace State

/-- Two states differ at most in facts about values outside a set. -/
structure AgreesOn (W : Value → Prop) (s t : State) : Prop where
  /-- The same variables have the same values. -/
  bindings : s.bindings = t.bindings
  /-- The stacks are the same. -/
  stack : s.stack = t.stack
  /-- The facts about the values of the set are the same. -/
  facts : ∀ v, W v → s.facts.get? v.id = t.facts.get? v.id

variable {W W' : Value → Prop} {s t : State} {v : Value} {c : Constraint}

namespace AgreesOn

/-- States that agree on some values agree on fewer. -/
theorem mono (h : s.AgreesOn W t) (hW : ∀ v, W' v → W v) : s.AgreesOn W' t :=
  ⟨h.bindings, h.stack, fun v hv => h.facts v (hW v hv)⟩

/-- They have the same values on the stack. -/
theorem peek (h : s.AgreesOn W t) (n : Nat) : s.peek n = t.peek n := by
  rw [State.peek, h.stack]
  rfl

/-- They have the same recorded about the values that they agree on. -/
theorem recorded (h : s.AgreesOn W t) (hv : W v) : s.recorded v = t.recorded v := by
  rw [State.recorded, h.facts v hv]
  rfl

/-- They have the same constraints on these values. -/
theorem constraint (h : s.AgreesOn W t) (hv : W v) (d : Domain) :
    s.constraint v d = t.constraint v d := by
  rw [State.constraint, h.recorded hv]
  rfl

/-- The same holds of these values. -/
theorem holds (h : s.AgreesOn W t) (hv : W v) (c : Constraint) : s.holds v c = t.holds v c := by
  rw [State.holds, h.constraint hv]
  rfl

/-- Names do not depend on the facts. -/
theorem nameOf (h : s.AgreesOn W t) (v : Value) (otherwise : String) :
    Rule.nameOf s v otherwise = Rule.nameOf t v otherwise := by
  unfold Rule.nameOf boundTo
  rw [h.bindings]

/-- Binding a variable in both changes nothing in their agreement. -/
theorem bind (h : s.AgreesOn W t) (x : Symbol) (v : Value) : (s.bind x v).AgreesOn W (t.bind x v) :=
  ⟨by simp only [State.bind, h.bindings], h.stack, h.facts⟩

/-- Nor does pushing a value. -/
theorem push (h : s.AgreesOn W t) (v : Value) : (s.push v).AgreesOn W (t.push v) :=
  ⟨h.bindings, by simp only [State.push, h.stack], h.facts⟩

/-- Nor does taking values off the stack. -/
theorem drop (h : s.AgreesOn W t) (n : Nat) :
    AgreesOn W { s with stack := s.stack.drop n } { t with stack := t.stack.drop n } :=
  ⟨h.bindings, by simp only [h.stack], h.facts⟩

/-- Nor does recording a constraint. -/
theorem record (h : s.AgreesOn W t) (hv : W v) (c : Constraint) :
    (s.record v c).AgreesOn W (t.record v c) :=
  ⟨h.bindings, h.stack, fun w hw => by rw [facts_record, facts_record, h.recorded hv, h.facts w hw]⟩

/-- Nor does overwriting one. -/
theorem overwrite (h : s.AgreesOn W t) (hv : W v) (c : Constraint) :
    (s.overwrite v c).AgreesOn W (t.overwrite v c) := by
  unfold State.overwrite
  split
  · exact h
  · exact h.record hv c

/-- Nor does overwriting several. -/
theorem writeAll {writes : List (Value × Constraint)} (h : s.AgreesOn W t)
    (hw : ∀ w ∈ writes, W w.1) :
    (Outline.writeAll writes s).AgreesOn W (Outline.writeAll writes t) := by
  induction writes generalizing s t with
  | nil => exact h
  | cons w rest ih =>
    have hfirst := h.overwrite (hw w List.mem_cons_self) w.2
    exact ih hfirst fun u hu => hw u (List.mem_cons_of_mem _ hu)

/-- An assumption that is not about truth looks at its value only. -/
theorem assume (h : s.AgreesOn W t) (hv : W v) (hc : c.domain ≠ .truth) :
    Option.Rel (AgreesOn W) (State.assume v c s) (State.assume v c t) := by
  rw [assume_eq, assume_eq, h.constraint hv]
  split
  · exact .some h
  · split
    · split
      · exact .some h
      · exact .none
    · rw [spread_of_not_truth hc, spread_of_not_truth hc]
      exact .some (h.record hv c)

/-- States that agree on what is live become equal when they are cleaned. -/
theorem clean_of_live (h : s.AgreesOn s.Live t) : s.clean = t.clean := by
  have hlive : s.live = t.live := by
    unfold live roots
    rw [h.bindings, h.stack]
  refine ext_get? h.bindings h.stack fun i => ?_
  rw [facts_clean, facts_clean, hlive]
  split
  · next hi =>
    obtain ⟨v, hv, rfl⟩ := exists_live_of_has (hlive ▸ hi)
    exact h.facts v hv
  · rfl

/-- States that agree on what is in sight become equal when they are cleaned. -/
theorem clean (h : s.AgreesOn s.InSight t) : s.clean = t.clean :=
  (h.mono fun _ => .inr).clean_of_live

/-- What an outline does to two states that agree on the values it mentions, they agree on. -/
theorem apply {o : Outline} (h : s.AgreesOn W t) (ho : ∀ v, o.Mentions v → W v) :
    (o.apply s).AgreesOn W (o.apply t) := by
  obtain ⟨rebinds, writes, pushed, supply⟩ := o
  have hwritten : ∀ {s t : State}, s.AgreesOn W t →
      (Outline.writeAll writes s).AgreesOn W (Outline.writeAll writes t) :=
    fun hst => hst.writeAll fun w hw => ho w.1 (.inr (.inl ⟨w.2, hw⟩))
  cases rebinds with
  | none =>
    cases pushed with
    | none => exact hwritten h
    | some v => exact (hwritten h).push v
  | some r =>
    cases pushed with
    | none => exact hwritten (h.bind r.1 r.2)
    | some v => exact (hwritten (h.bind r.1 r.2)).push v

end AgreesOn

end State

/-! ## Checks see only what is in sight -/

variable {W : Value → Prop} {s t : State}

/-- Two verdicts agree if both end the path or both go on with states that agree. -/
def Verdict.Agrees (W : Value → Prop) : Verdict → Verdict → Prop
  | .goOn s, .goOn t => s.AgreesOn W t
  | .stop, .stop => True
  | _, _ => False

/-- Verdicts made from agreeing states agree. -/
theorem Verdict.agrees_ofOption {o o' : Option State} (h : Option.Rel (State.AgreesOn W) o o') :
    (ofOption o).Agrees W (ofOption o') := by
  cases h with
  | none => trivial
  | some h => exact h

/-- States that agree have the same receiver of a call. -/
theorem State.AgreesOn.receiver (h : s.AgreesOn W t) (site : Site) :
    site.receiver s = site.receiver t := by
  unfold Site.receiver
  split
  · rw [h.peek]
  · rw [h.peek]
  · rfl

/-- They have the same arguments. -/
theorem State.AgreesOn.argument (h : s.AgreesOn W t) (site : Site) (index : Nat) :
    site.argument s index = site.argument t index := by
  simp only [Site.argument, h.peek]

namespace Rule

variable {site : Site} {j : Journal}

/-- The check for null dereferences tells apart no states that agree on what is on the stack. -/
theorem beforeDereference_agrees (h : s.AgreesOn W t) (hW : ∀ v, s.Offers v → W v) :
    (beforeDereference site s j).1.Agrees W (beforeDereference site t j).1 ∧
      (beforeDereference site s j).2 = (beforeDereference site t j).2 := by
  unfold beforeDereference
  rw [← h.receiver]
  cases hr : site.receiver s with
  | none => exact ⟨h, rfl⟩
  | some object =>
    have hobject := hW object (Site.receiver_offers hr)
    simp only [h.holds hobject, h.nameOf]
    split
    · exact ⟨trivial, rfl⟩
    · exact ⟨Verdict.agrees_ofOption (h.assume hobject (by simp [Constraint.domain])), rfl⟩

/-- Nor does the check for repeated disposal. -/
theorem beforeDispose_agrees (h : s.AgreesOn W t) (hW : ∀ v, s.Offers v → W v) :
    (beforeDispose site s j).1.Agrees W (beforeDispose site t j).1 ∧
      (beforeDispose site s j).2 = (beforeDispose site t j).2 := by
  unfold beforeDispose
  split
  · exact ⟨h, rfl⟩
  · rw [← h.receiver]
    cases hr : site.receiver s with
    | none => exact ⟨h, rfl⟩
    | some object =>
      have hobject := hW object (Site.receiver_offers hr)
      simp only [h.holds hobject, h.nameOf]
      split
      · exact ⟨h, rfl⟩
      · split
        · exact ⟨h, rfl⟩
        · exact ⟨h.overwrite hobject _, rfl⟩

/-- The arguments of a call are on the stack. -/
theorem argument_offers {v : Value} {index : Nat} (h : site.argument s index = some v) :
    s.Offers v := by
  unfold Site.argument at h
  dsimp only at h
  split at h
  · exact Option.some.inj h ▸ s.offers_peek _
  · cases h

/-- Nor does the check for weak salts before a derivation. -/
theorem beforeDerivation_agrees (h : s.AgreesOn W t) (hW : ∀ v, s.Offers v → W v) :
    (beforeDerivation site s j).1.Agrees W (beforeDerivation site t j).1 ∧
      (beforeDerivation site s j).2 = (beforeDerivation site t j).2 := by
  unfold beforeDerivation
  split
  · exact ⟨h, rfl⟩
  · rw [← h.argument]
    cases ha : site.argument s saltArgument with
    | none => exact ⟨h, rfl⟩
    | some salt =>
      have hsalt := hW salt (argument_offers ha)
      simp only [h.holds hsalt]
      split
      · exact ⟨h, rfl⟩
      · split <;> exact ⟨h, rfl⟩

/-- Arrays are marked in the same way in states that agree. -/
theorem markArray_agrees {semantics : Semantics} {dimensions : List NodeId} (h : s.AgreesOn W t)
    (hW : ∀ v, s.Offers v → W v) :
    Option.Rel (State.AgreesOn W) (markArray semantics dimensions s)
      (markArray semantics dimensions t) := by
  have harray := hW _ (s.offers_peek 0)
  unfold markArray
  dsimp only
  rw [← h.peek]
  have hassume := h.assume harray (c := .byteArray .constant) (by simp [Constraint.domain])
  generalize State.assume (s.peek 0) (.byteArray .constant) s = o at hassume
  generalize State.assume (s.peek 0) (.byteArray .constant) t = o' at hassume
  cases hassume with
  | none => exact .none
  | some hmarked =>
    simp only [Option.bind_eq_bind, Option.bind_some]
    split
    · split
      · exact hmarked.assume harray (by simp [Constraint.domain])
      · exact .some hmarked
    · exact .some hmarked

/-- Nor does the check for weak salts after a creation. -/
theorem afterCreation_agrees (h : s.AgreesOn W t) (hW : ∀ v, s.Offers v → W v) :
    (afterCreation site s j).1.Agrees W (afterCreation site t j).1 ∧
      (afterCreation site s j).2 = (afterCreation site t j).2 := by
  unfold afterCreation
  split
  · split
    · exact ⟨Verdict.agrees_ofOption (markArray_agrees h hW), rfl⟩
    · exact ⟨h, rfl⟩
  · exact ⟨h, rfl⟩

end Rule

/-- A check of this library answers alike in states that agree on what they offer. -/
theorem Check.Standard.hook_agrees {c : Check} (hc : c.Standard) (moment : Moment) (site : Site)
    (j : Journal) (h : s.AgreesOn W t) (hW : ∀ v, s.Offers v → W v) :
    (c.hook moment site s j).1.Agrees W (c.hook moment site t j).1 ∧
      (c.hook moment site s j).2 = (c.hook moment site t j).2 := by
  cases hc with
  | nullDereference =>
    cases moment with
    | before => exact Rule.beforeDereference_agrees h hW
    | after => exact ⟨h, rfl⟩
  | repeatedDispose =>
    cases moment with
    | before => exact Rule.beforeDispose_agrees h hW
    | after => exact ⟨h, rfl⟩
  | weakSalt =>
    cases moment with
    | before => exact Rule.beforeDerivation_agrees h hW
    | after => exact Rule.afterCreation_agrees h hW

namespace Run

variable (plan : Plan) (moment : Moment) (point : Point) (i : Instruction)

/-- Calling checks of this library has the same outcome in states that agree on what they offer. -/
theorem callChecks_agrees {slots : List Slot} (hslots : ∀ slot ∈ slots, slot.check.Standard)
    (j : Journal) (h : s.AgreesOn W t) (hW : ∀ v, s.Offers v → W v) :
    ∃ j' o o', callChecks plan moment point i slots j s = (slots, j', o) ∧
      callChecks plan moment point i slots j t = (slots, j', o') ∧
      Option.Rel (fun s' t' => s.AdjustsTo s' ∧ t.AdjustsTo t' ∧ s'.AgreesOn W t') o o' := by
  induction slots generalizing j s t with
  | nil => exact ⟨j, some s, some t, rfl, rfl, .some ⟨.refl s, .refl t, h⟩⟩
  | cons slot rest ih =>
    have hslot : slot.check.Standard := hslots slot List.mem_cons_self
    have hrest : ∀ slot ∈ rest, slot.check.Standard :=
      fun other hother => hslots other (List.mem_cons_of_mem _ hother)
    rw [callChecks, callChecks]
    split
    · generalize hsite : (⟨slot.check.rule, point, i, plan.setting.semantics⟩ : Site) = site
      obtain ⟨hverdict, hjournal⟩ := hslot.hook_agrees moment site j h hW
      rcases hslot.hook_cases moment site s j with ⟨s₁, j₁, hs, hadjust⟩ | ⟨j₁, hs⟩
      · rcases hslot.hook_cases moment site t j with ⟨t₁, j₂, ht, hadjust'⟩ | ⟨j₂, ht⟩
        · rw [hs, ht] at hverdict hjournal
          obtain rfl : j₁ = j₂ := hjournal
          obtain ⟨j', o, o', hso, hto, ho⟩ :=
            ih hrest j₁ hverdict fun v hv => hW v (hadjust.offers hv)
          refine ⟨j', o, o', by simp only [hs, hso], by simp only [ht, hto], ?_⟩
          cases ho with
          | none => exact .none
          | some ho => exact .some ⟨hadjust.trans ho.1, hadjust'.trans ho.2.1, ho.2.2⟩
        · rw [hs, ht] at hverdict
          exact hverdict.elim
      · rcases hslot.hook_cases moment site t j with ⟨t₁, j₂, ht, _⟩ | ⟨j₂, ht⟩
        · rw [hs, ht] at hverdict
          exact hverdict.elim
        · rw [hs, ht] at hjournal
          obtain rfl : j₁ = j₂ := hjournal
          exact ⟨j₁, none, none, by simp only [hs], by simp only [ht], .none⟩
    · obtain ⟨j', o, o', hs, ht, ho⟩ := ih hrest j h hW
      exact ⟨j', o, o', by simp only [hs], by simp only [ht], ho⟩

end Run

/-! ## Steps -/

namespace Run

/-- Two states of a run that agree on what is in sight. -/
structure Paired (run : Run) (l : List Value) (s t : State) : Prop where
  /-- The checks are those of this library. -/
  standard : run.Standard
  /-- The ledger of the run. -/
  ledger : Ledger l
  /-- The supply goes with it. -/
  tracks : run.supply.Tracks l
  /-- The one state is drawn from it. -/
  drawn : s.DrawnFrom l
  /-- So is the other. -/
  drawn' : t.DrawnFrom l
  /-- They agree. -/
  agrees : s.AgreesOn s.InSight t

variable {plan : Plan} {point : Point} {i : Instruction} {run : Run} {l : List Value}

/-- The instruction itself keeps two states alike in what is in sight. -/
theorem apply_agrees {s₁ t₁ : State} {new : List Value} {σ : Supply} {o : Outline}
    (h : run.Paired l s t) (hnew : Issues s run.supply new σ)
    (ho : ∀ v, o.Mentions v → s.Offers v ∨ v ∈ new) (hs₁ : s.AdjustsTo s₁) (ht₁ : t.AdjustsTo t₁)
    (hagrees : s₁.AgreesOn s.InSight t₁) (n : Nat) :
    (o.apply { s₁ with stack := s₁.stack.drop n }).AgreesOn
      (o.apply { s₁ with stack := s₁.stack.drop n }).InSight
      (o.apply { t₁ with stack := t₁.stack.drop n }) := by
  have hnone : ∀ u : State, u.DrawnFrom l → ∀ v ∈ new, u.facts.get? v.id = none := by
    intro u hu v hv
    have hledger : Ledger (l ++ new) := (hnew.ledger h.ledger h.tracks h.drawn).1
    exact hu.facts_eq_none h.ledger (hledger.length_le_id hv)
  have hwide : s₁.AgreesOn (fun v => s.InSight v ∨ v ∈ new) t₁ := by
    refine ⟨hagrees.bindings, hagrees.stack, fun v hv => ?_⟩
    rcases hv with hv | hv
    · exact hagrees.facts v hv
    · rw [hnone s₁ (hs₁.drawnFrom h.ledger h.drawn) v hv,
        hnone t₁ (ht₁.drawnFrom h.ledger h.drawn') v hv]
  have happly := (hwide.drop n).apply (o := o) fun v hv => (ho v hv).imp_left State.Offers.inSight
  refine happly.mono fun v hv => ?_
  refine Outline.inSight_apply (t := { s₁ with stack := s₁.stack.drop n }) hnew ho hs₁.bindings
    (fun w hw => ?_) hv
  exact hs₁.stack ▸ List.mem_of_mem_drop hw

/-- A step from states that agree on what is in sight has the same outcome. -/
theorem step_paired (plan : Plan) (point : Point) (i : Instruction) (h : run.Paired l s t) :
    ∃ o o' run', run.step plan point i s = (o, run') ∧ run.step plan point i t = (o', run') ∧
      Option.Rel (fun s' t' => ∃ l', run'.Paired l' s' t') o o' := by
  obtain ⟨j, o, o', hs, ht, hrel⟩ := callChecks_agrees plan .before point i h.standard
    run.journal h.agrees fun v hv => hv.inSight
  cases hrel with
  | none =>
    exact ⟨none, none, { run with journal := j }, by simp [step, checked, hs],
      by simp [step, checked, ht], .none⟩
  | @some s₁ t₁ hrel =>
    obtain ⟨hs₁, ht₁, hagrees⟩ := hrel
    obtain ⟨new, hnew, hmentions⟩ := plan.setting.outline_drawsOn run.supply s i
    obtain ⟨hl', hσ⟩ := hnew.ledger h.ledger h.tracks h.drawn
    have houtline : ∀ u : State, u.bindings = s.bindings → u.stack = s.stack →
        plan.setting.outline i run.supply u = plan.setting.outline i run.supply s :=
      fun u hb hk => plan.setting.outline_congr i run.supply hb hk
    have hs₁' := houtline s₁ hs₁.bindings hs₁.stack
    have ht₁' := houtline t₁ (hagrees.bindings ▸ hs₁.bindings) (hagrees.stack ▸ hs₁.stack)
    generalize plan.setting.outline i run.supply s = outline at hnew hmentions hl' hσ hs₁' ht₁'
    have happly := apply_agrees h hnew hmentions hs₁ ht₁ hagrees i.operation.operandCount
    obtain ⟨j', p, p', hp, hp', hrel⟩ := callChecks_agrees plan .after point i h.standard
      j happly fun v hv => hv.inSight
    refine ⟨p, p', { run with supply := outline.supply, journal := j' }, ?_, ?_, ?_⟩
    · simp only [step, checked, hs, Setting.execute_eq, hs₁', hp]
    · simp only [step, checked, ht, Setting.execute_eq, ht₁', hp']
    · have hdrawn : ∀ u : State, u.DrawnFrom l →
          (outline.apply { u with stack := u.stack.drop i.operation.operandCount }).DrawnFrom
            (l ++ new) := by
        intro u hu
        refine Outline.apply_drawnFrom ((hu.mono (List.prefix_append _ _)).drop _) fun v hv => ?_
        rcases hmentions v hv with hv | hv
        · exact List.mem_append_left _ (hv.mem h.ledger h.drawn)
        · exact List.mem_append_right _ hv
      cases hrel with
      | none => exact .none
      | some hrel =>
        obtain ⟨hs', ht', hagrees'⟩ := hrel
        refine .some ⟨l ++ new, h.standard, hl', hσ,
          hs'.drawnFrom hl' (hdrawn s₁ (hs₁.drawnFrom h.ledger h.drawn)),
          ht'.drawnFrom hl' (hdrawn t₁ (ht₁.drawnFrom h.ledger h.drawn')), ?_⟩
        refine hagrees'.mono fun v hv => ?_
        unfold State.InSight State.Live State.roots at hv ⊢
        rwa [hs'.bindings, hs'.stack] at hv

/-! ## Sequences of instructions -/

/-- Executes instructions one after the other: how many were executed, the state at the end if the
path gets there, and the run. -/
def stepAll (plan : Plan) : List (Point × Instruction) → Run → State → Nat × Option State × Run
  | [], run, s => (0, some s, run)
  | (point, i) :: rest, run, s =>
    match run.step plan point i s with
    | (none, run) => (1, none, run)
    | (some s, run) =>
      let (n, o, run) := stepAll plan rest run s
      (n + 1, o, run)

/-- Two outcomes are the same if the paths end at the same instruction or both get to the end, in
states that are equal once they are cleaned, and the runs cannot be told apart, what they have
reported included. -/
def SameOutcome (a b : Nat × Option State × Run) : Prop :=
  a.1 = b.1 ∧ a.2.1.map State.clean = b.2.1.map State.clean ∧ a.2.2 = b.2.2

/-- Instructions have the same outcome in both states of a pair. -/
theorem stepAll_paired (h : run.Paired l s t) (is : List (Point × Instruction)) :
    SameOutcome (stepAll plan is run s) (stepAll plan is run t) := by
  induction is generalizing run l s t with
  | nil => exact ⟨rfl, congrArg some h.agrees.clean, rfl⟩
  | cons pi rest ih =>
    obtain ⟨point, i⟩ := pi
    obtain ⟨o, o', run', hs, ht, hrel⟩ := step_paired plan point i h
    rw [stepAll, stepAll, hs, ht]
    cases hrel with
    | none => exact ⟨rfl, rfl, rfl⟩
    | some hrel =>
      obtain ⟨l', h'⟩ := hrel
      obtain ⟨hcount, hstate, hrun⟩ := ih h'
      exact ⟨congrArg (· + 1) hcount, hstate, hrun⟩

/-- A state and what cleaning makes of it agree on what is in sight, if no fact about a shared value
is dropped. -/
theorem paired_clean (hrun : run.Standard) (hl : Ledger l) (ht : run.supply.Tracks l)
    (hs : s.DrawnFrom l)
    (hshared : ∀ v ∈ Value.sharedValues, s.facts.get? v.id ≠ none → s.Live v) :
    run.Paired l s s.clean := by
  refine ⟨hrun, hl, ht, hs, hs.clean, rfl, rfl, fun v hv => ?_⟩
  by_cases hlive : s.Live v
  · exact (State.facts_clean_of_live hl hs hlive).symm
  · have hnone : s.facts.get? v.id = none :=
      Classical.not_not.1 fun hfact => hlive (hshared v (hv.resolve_right hlive) hfact)
    rw [State.facts_clean, hnone, ite_self]

/-! ## Bringing back a shared value -/

/-- The instruction that pushes a shared value. -/
def pushing : Value → Instruction
  | .null => ⟨⟨0⟩, .literal .null, none⟩
  | .bool b => ⟨⟨0⟩, .literal (.bool b), none⟩
  | _ => ⟨⟨0⟩, .self, none⟩

/-- No check takes notice of a value that is pushed. -/
theorem callChecks_pushing (v : Value) {slots : List Slot}
    (hslots : ∀ slot ∈ slots, slot.check.Standard) (moment : Moment) (j : Journal) (s : State) :
    callChecks plan moment point (pushing v) slots j s = (slots, j, some s) := by
  have hkind : (pushing v).operation.kind = .single 2 ∨ (pushing v).operation.kind = .single 3 := by
    unfold pushing
    split
    · exact .inl rfl
    · exact .inl rfl
    · exact .inr rfl
  induction slots with
  | nil => rfl
  | cons slot rest ih =>
    have hstandard : ∀ c : Check, c.Standard → c.isInterested (pushing v) = false := by
      intro c hc
      unfold Check.isInterested
      cases hc with
      | nullDereference | repeatedDispose | weakSalt =>
        rcases hkind with hkind | hkind <;> rw [hkind] <;> decide
    have hinterested := hstandard slot.check (hslots slot List.mem_cons_self)
    rw [callChecks, hinterested, Bool.and_false, if_neg (by simp),
      ih fun other hother => hslots other (List.mem_cons_of_mem _ hother)]

/-- A shared value can be pushed by an instruction. -/
theorem step_pushing {v : Value} (hv : v ∈ Value.sharedValues) (hknown : v ≠ .unknown)
    (hrun : run.Standard) (s : State) :
    run.step plan point (pushing v) s = (some (s.push v), run) := by
  have hexecute : plan.setting.execute (pushing v) run.supply s = (s.push v, run.supply) := by
    simp only [Value.sharedValues, List.mem_cons, List.not_mem_nil, or_false] at hv
    rcases hv with rfl | rfl | rfl | rfl | rfl
    · exact absurd rfl hknown
    all_goals rfl
  simp only [step, checked, callChecks_pushing v hrun, hexecute]

/-- If a fact about a shared value is dropped, pushing the value tells. -/
theorem live_of_sameOutcome {v : Value} (hrun : run.Standard) (hl : Ledger l) (hs : s.DrawnFrom l)
    (hv : v ∈ Value.sharedValues) (hfact : s.facts.get? v.id ≠ none)
    (h : SameOutcome (stepAll plan [(⟨0, 0, 0⟩, pushing v)] run s)
      (stepAll plan [(⟨0, 0, 0⟩, pushing v)] run s.clean)) : s.Live v := by
  have hvl := hl.mem_of_shared hv
  obtain ⟨f, hf⟩ := Option.ne_none_iff_exists'.1 hfact
  have hknown : v ≠ .unknown := by
    rintro rfl
    exact (hs.fact_mem hf).2.2 rfl
  have hclean : (s.push v).clean = (s.clean.push v).clean := by
    have hstate := h.2.1
    simp only [stepAll, step_pushing hv hknown hrun] at hstate
    exact Option.some.inj hstate
  have hpushed : ∀ t : State, t.DrawnFrom l →
      (t.push v).clean.facts.get? v.id = t.facts.get? v.id := by
    intro t ht
    exact State.facts_clean_of_live hl (ht.push hvl) (State.live_of_stack List.mem_cons_self)
  have hkept : s.clean.facts.get? v.id = some f := by
    rw [← hpushed _ hs.clean, ← hclean, hpushed _ hs, hf]
  obtain ⟨_, hlive⟩ := State.live_of_facts_clean hl hs hkept
  rwa [hs.value_eq hl hvl hf] at hlive

end Run

/-- The states of a situation: those of the stage and those on the worklist. -/
def Situation.states (x : Situation) : List State :=
  x.stage.states ++ x.run.worklist.toList.map (·.state)

/-- The states of a coherent situation are drawn from its ledger. -/
theorem Situation.Coherent.state_drawnFrom {plan : Plan} {checks : List Check} {x : Situation}
    {l : List Value} (h : x.Coherent plan checks l) (hs : s ∈ x.states) : s.DrawnFrom l := by
  rcases List.mem_append.1 hs with hs | hs
  · exact h.stage s hs
  · obtain ⟨node, hnode, rfl⟩ := List.mem_map.1 hs
    exact h.worklist node hnode

/-- Cleaning a state of a run makes no difference to any sequence of instructions exactly if every
shared value about which the state records a fact is live. -/
theorem cleaning_unobservable_iff {plan : Plan} {checks : List Check} {x : Situation} {s : State}
    (hchecks : ∀ c ∈ checks, c.Standard) (hx : Reached plan checks x) (hs : s ∈ x.states) :
    (∀ is, Run.SameOutcome (Run.stepAll plan is x.run s) (Run.stepAll plan is x.run s.clean)) ↔
      ∀ v ∈ Value.sharedValues, s.facts.get? v.id ≠ none → s.Live v := by
  obtain ⟨l, hl⟩ := hx.coherent hchecks
  have hdrawn := hl.state_drawnFrom hs
  constructor
  · intro h v hv hfact
    exact Run.live_of_sameOutcome hl.standard hl.ledger hdrawn hv hfact (h _)
  · intro hshared
    exact Run.stepAll_paired (Run.paired_clean hl.standard hl.ledger hl.tracks hdrawn hshared)

/-- Whether control is about to leave for a block in a state with more facts than cleaning keeps,
none of them about a shared value. -/
def NestedLoops.dropsFacts : Situation → Bool
  | ⟨_, .leaving (.into _ s :: _)⟩ =>
    s.clean.facts.size < s.facts.size ∧
      ∀ v ∈ Value.sharedValues, (s.facts.get? v.id).isNone = true
  | _ => false

/-- On the way through the nested loops facts are dropped. -/
theorem NestedLoops.dropsFacts_after :
    ((Situation.entering plan (.start checks)).after plan 32).any dropsFacts = true := by
  decide +kernel

/-- Where the inner loop is left, what is recorded about the condition is dropped, and nobody will
notice. -/
theorem cleaning_unobservable_nested :
    ∃ x s, Reached NestedLoops.plan NestedLoops.checks x ∧ s ∈ x.states ∧
      s.clean.facts.size < s.facts.size ∧
      ∀ is, Run.SameOutcome (Run.stepAll NestedLoops.plan is x.run s)
        (Run.stepAll NestedLoops.plan is x.run s.clean) := by
  obtain ⟨x, hx, hdrops⟩ := (Option.any_eq_true _ _).1 NestedLoops.dropsFacts_after
  unfold NestedLoops.dropsFacts at hdrops
  split at hdrops
  · next run block s rest =>
    obtain ⟨hfewer, hnone⟩ := of_decide_eq_true hdrops
    have hreached := Reached.of_after hx
    have hs : s ∈ (Situation.mk run (.leaving (.into block s :: rest))).states :=
      List.mem_append_left _ (List.mem_append_left _ List.mem_cons_self)
    refine ⟨_, s, hreached, hs, hfewer, ?_⟩
    refine (cleaning_unobservable_iff (fun c hc => Registry.standard_enabled hc) hreached hs).2 ?_
    intro v hv hfact
    exact absurd (Option.isNone_iff_eq_none.1 (hnone v hv)) hfact
  · cases hdrops

/-! ## An object that is disposed in two blocks -/

namespace DisposeTwice

/-- Two nodes call `Dispose`. -/
def semantics : Semantics where
  symbol _ := none
  typeOf _ := none
  method n := if n.val ∈ [2, 5] then some ⟨"T", "Dispose"⟩ else none
  constant _ := none

/-- The first block disposes the object whose code runs. -/
def first : List Instruction :=
  [⟨⟨1⟩, .self, none⟩, ⟨⟨2⟩, .invocation [] true, none⟩, ⟨⟨3⟩, .pop, none⟩]

/-- The second block does it again. -/
def second : List Instruction :=
  [⟨⟨4⟩, .self, none⟩, ⟨⟨5⟩, .invocation [] true, none⟩, ⟨⟨6⟩, .pop, none⟩]

/-- The two blocks, one after the other. -/
def sample : Sample := ⟨[], semantics, [⟨0, first⟩, ⟨1, second⟩], [⟨0, 1, .jump⟩], 2⟩

/-- The plan of its exploration. -/
def plan : Plan := sample.plan

/-- All checks of this library. -/
def checks : List Check := sample.checks

/-- The instructions of the second block at their places. -/
def places : List (Point × Instruction) :=
  second.mapIdx fun offset i => (⟨1, offset, 0⟩, i)

/-- Whether control is about to enter the second block in a state from which it reports what it does
not report once the state is cleaned. -/
def reportsLess : Situation → Bool
  | ⟨run, .leaving (.into 1 s :: _)⟩ =>
    (Run.stepAll plan places run s).2.2.diagnostics.map (·.rule) = ["S3966"] ∧
      (Run.stepAll plan places run s.clean).2.2.diagnostics = []
  | _ => false

/-- Without some of the facts the checks report less. -/
theorem reportsLess_after :
    ((Situation.entering plan (.start checks)).after plan 7).any reportsLess = true := by
  decide +kernel

end DisposeTwice

/-- The object whose code runs is disposed at the end of the first block, but is then neither in a
variable nor on the stack. The second block disposes it again, and this is reported if the state was
not cleaned in between, but not if it was. -/
theorem cleaning_observed :
    ∃ x s, Reached DisposeTwice.plan DisposeTwice.checks x ∧ s ∈ x.states ∧
      ¬∀ is, Run.SameOutcome (Run.stepAll DisposeTwice.plan is x.run s)
        (Run.stepAll DisposeTwice.plan is x.run s.clean) := by
  obtain ⟨x, hx, hreports⟩ := (Option.any_eq_true _ _).1 DisposeTwice.reportsLess_after
  unfold DisposeTwice.reportsLess at hreports
  split at hreports
  · next run s rest =>
    obtain ⟨hdirty, hclean⟩ := of_decide_eq_true hreports
    refine ⟨_, s, .of_after hx, ?_, fun hsame => ?_⟩
    · exact List.mem_append_left _ (List.mem_append_left _ List.mem_cons_self)
    · obtain ⟨_, _, hrun⟩ := hsame DisposeTwice.places
      rw [hrun, hclean] at hdirty
      cases hdirty
  · cases hreports

end Pathwise
