import Pathwise.Check.Registry
import Pathwise.Explore.Run
import Pathwise.Proofs.Assume
import Pathwise.Proofs.Outline

/-!
# What the checks of this library do to a state

The three checks never fail. They end the path, or go on after overwriting facts about values that
the state offers, none of them about the truth of a condition. A step of a run is therefore an
instruction between two such adjustments.
-/

namespace Pathwise

/-- The checks of this library. -/
inductive Check.Standard : Check → Prop where
  /-- The check for null dereferences. -/
  | nullDereference : Standard Rule.nullDereference
  /-- The check for repeated disposal. -/
  | repeatedDispose : Standard Rule.repeatedDispose
  /-- The check for weak salts. -/
  | weakSalt : Standard Rule.weakSalt

/-- The checks of the standard registry that are wanted, in the order of their rules. -/
theorem Registry.standard_enabled_eq (settings : Settings) (sink : Sink) :
    standard.enabled settings sink =
      [Rule.weakSalt, Rule.nullDereference, Rule.repeatedDispose].filter
        fun c => settings.isEnabled c.rule && sink.isEnabled c.rule := by
  have hentries : standard.checks.entries =
      [Rule.weakSalt, Rule.nullDereference, Rule.repeatedDispose].map fun c => (c.rule, c) := rfl
  unfold enabled
  rw [hentries, List.filter_map, List.map_map]
  exact List.map_id' _

/-- Whatever settings and sink choose from the standard registry are checks of this library. -/
theorem Registry.standard_enabled {settings : Settings} {sink : Sink} {c : Check}
    (h : c ∈ standard.enabled settings sink) : c.Standard := by
  rw [standard_enabled_eq] at h
  have hc := (List.mem_filter.1 h).1
  simp only [List.mem_cons, List.not_mem_nil, or_false] at hc
  rcases hc with rfl | rfl | rfl
  · exact .weakSalt
  · exact .nullDereference
  · exact .repeatedDispose

namespace State

/-- A state is adjusted to another by overwriting facts about values that it offers, none of them
about truth. -/
def AdjustsTo (s s' : State) : Prop :=
  ∃ writes, s' = Outline.writeAll writes s ∧ ∀ w ∈ writes, s.Offers w.1 ∧ w.2.domain ≠ .truth

variable {s s' s'' : State}

/-- A state is adjusted to itself. -/
theorem AdjustsTo.refl (s : State) : s.AdjustsTo s := ⟨[], rfl, by simp⟩

/-- An adjustment leaves the variables alone. -/
theorem AdjustsTo.bindings (h : s.AdjustsTo s') : s'.bindings = s.bindings := by
  obtain ⟨writes, rfl, _⟩ := h
  exact Outline.bindings_writeAll writes s

/-- It leaves the stack alone. -/
theorem AdjustsTo.stack (h : s.AdjustsTo s') : s'.stack = s.stack := by
  obtain ⟨writes, rfl, _⟩ := h
  exact Outline.stack_writeAll writes s

/-- Variables are looked up as before. -/
theorem AdjustsTo.lookup (h : s.AdjustsTo s') (y : Symbol) : s'.lookup y = s.lookup y := by
  rw [State.lookup, h.bindings]
  rfl

/-- Nothing more is offered than before. -/
theorem AdjustsTo.offers (h : s.AdjustsTo s') {v : Value} (hv : s'.Offers v) : s.Offers v := by
  unfold Offers peek State.lookup at hv ⊢
  rwa [h.bindings, h.stack] at hv

/-- Adjusting a state leaves its roots alone. -/
theorem AdjustsTo.live (h : s.AdjustsTo s') {v : Value} (hv : s'.Live v) : s.Live v := by
  unfold Live roots at hv ⊢
  rwa [h.bindings, h.stack] at hv

/-- Nothing more is in sight than before. -/
theorem AdjustsTo.inSight (h : s.AdjustsTo s') {v : Value} (hv : s'.InSight v) : s.InSight v :=
  hv.imp_right h.live

/-- Two adjustments are one. -/
theorem AdjustsTo.trans (h : s.AdjustsTo s') (h' : s'.AdjustsTo s'') : s.AdjustsTo s'' := by
  obtain ⟨second, rfl, hsecond⟩ := h'
  have hoffers : ∀ w ∈ second, s.Offers w.1 ∧ w.2.domain ≠ .truth :=
    fun w hw => ⟨h.offers (hsecond w hw).1, (hsecond w hw).2⟩
  obtain ⟨first, rfl, hfirst⟩ := h
  refine ⟨first ++ second, (Outline.writeAll_append first second s).symm, fun w hw => ?_⟩
  rcases List.mem_append.1 hw with hw | hw
  · exact hfirst w hw
  · exact hoffers w hw

/-- To overwrite a constraint on a value that is offered is an adjustment. -/
theorem AdjustsTo.overwrite {v : Value} {c : Constraint} (hv : s.Offers v)
    (hc : c.domain ≠ .truth) : s.AdjustsTo (s.overwrite v c) :=
  ⟨[(v, c)], rfl, by simp [hv, hc]⟩

/-- So is to assume one. -/
theorem AdjustsTo.assume {v : Value} {c : Constraint} (hv : s.Offers v) (hc : c.domain ≠ .truth)
    (h : State.assume v c s = some s') : s.AdjustsTo s' := by
  rcases assume_of_not_truth hc h with rfl | rfl
  · exact .refl _
  · exact .overwrite hv hc

/-- Writes about values of the ledger leave the state drawn from it. -/
theorem DrawnFrom.writeAll {l : List Value} (hs : s.DrawnFrom l)
    {writes : List (Value × Constraint)} (hw : ∀ w ∈ writes, w.1 ∈ l) :
    (Outline.writeAll writes s).DrawnFrom l :=
  Outline.writeAll_induction (P := fun t => t.DrawnFrom l)
    (fun w hmem _ ht => ht.overwrite (hw w hmem)) hs

/-- An adjusted state is drawn from the same ledger. -/
theorem AdjustsTo.drawnFrom {l : List Value} (h : s.AdjustsTo s') (hl : Ledger l)
    (hs : s.DrawnFrom l) : s'.DrawnFrom l := by
  obtain ⟨writes, rfl, hw⟩ := h
  exact hs.writeAll fun w hmem => (hw w hmem).1.mem hl hs

end State

namespace Site

/-- The receiver of a call is offered. -/
theorem receiver_offers {x : Site} {s : State} {v : Value} (h : x.receiver s = some v) :
    s.Offers v := by
  unfold receiver at h
  split at h
  · exact Option.some.inj h ▸ s.offers_peek _
  · exact Option.some.inj h ▸ s.offers_peek _
  · cases h

end Site

/-- A verdict that goes on is made from a state. -/
theorem Verdict.eq_some_of_ofOption {o : Option State} {s : State} (h : ofOption o = .goOn s) :
    o = some s := by
  cases o with
  | none => cases h
  | some t => exact congrArg some (Verdict.goOn.inj h)

namespace Rule

variable (site : Site) (s : State) (j : Journal)

/-- What assumptions about the value on top keep is kept by marking it. -/
theorem markArray_induction {P : State → Prop} {semantics : Semantics} {dimensions : List NodeId}
    {s s' : State}
    (hassume : ∀ c t t', c.domain = .byteArray ∨ c.domain = .saltSize →
      State.assume (s.peek 0) c t = some t' → P t → P t')
    (h : markArray semantics dimensions s = some s') (hs : P s) : P s' := by
  unfold markArray at h
  obtain ⟨t, ht, h⟩ := Option.bind_eq_some_iff.1 h
  have hPt : P t := hassume _ s t (.inl rfl) ht hs
  split at h
  · split at h
    · exact hassume _ t s' (.inr rfl) h hPt
    · exact Option.some.inj h ▸ hPt
  · exact Option.some.inj h ▸ hPt

/-- To mark an array is an adjustment. -/
theorem markArray_adjusts {semantics : Semantics} {dimensions : List NodeId} {s s' : State}
    (h : markArray semantics dimensions s = some s') : s.AdjustsTo s' := by
  refine markArray_induction (P := s.AdjustsTo) (fun c t t' hc hassume ht => ?_) h (.refl s)
  have hpeek : t.peek 0 = s.peek 0 := by
    unfold State.peek
    rw [ht.stack]
  have htruth : c.domain ≠ .truth := by rcases hc with hc | hc <;> simp [hc]
  exact ht.trans (.assume (hpeek ▸ t.offers_peek 0) htruth hassume)

/-- What the checks of this library answer at a moment of an instruction. -/
inductive Answer (moment : Moment) (site : Site) (s : State) (j : Journal) :
    Verdict × Journal → Prop where
  /-- The path goes on as it was. -/
  | pass : Answer moment site s j (.goOn s, j)
  /-- A defect is reported. -/
  | report (message : String) :
    Answer moment site s j (.goOn s, j.add (site.diagnostic message))
  /-- A defect is reported, and the path ends. -/
  | refuse (message : String) : Answer moment site s j (.stop, j.add (site.diagnostic message))
  /-- The object that is dereferenced is assumed not to be null. -/
  | assume {object : Value} (hmoment : moment = .before) (hobject : site.receiver s = some object) :
    Answer moment site s j (.ofOption (State.assume object (.nullability .notNull) s), j)
  /-- The object is disposed. -/
  | dispose {object : Value} (hmoment : moment = .before)
      (hobject : site.receiver s = some object) :
    Answer moment site s j (.goOn (s.overwrite object (.disposal .disposed)), j)
  /-- A new array is marked. -/
  | mark {dimensions : List NodeId} (hmoment : moment = .after)
    (hcreation : site.instruction.operation = .arrayCreation dimensions) :
    Answer moment site s j (.ofOption (markArray site.semantics dimensions s), j)

/-- What the check for null dereferences does before an instruction. -/
theorem beforeDereference_eq : beforeDereference site s j = (.goOn s, j) ∨
    ∃ object, site.receiver s = some object ∧
      ((s.holds object (.nullability .null) = true ∧
          ∃ message, beforeDereference site s j = (.stop, j.add (site.diagnostic message))) ∨
        (s.holds object (.nullability .null) = false ∧ beforeDereference site s j =
          (.ofOption (State.assume object (.nullability .notNull) s), j))) := by
  unfold beforeDereference
  split
  · exact .inl rfl
  · next object hobject =>
    split
    · next hnull => exact .inr ⟨object, hobject, .inl ⟨hnull, _, rfl⟩⟩
    · next hnull => exact .inr ⟨object, hobject, .inr ⟨by simpa using hnull, rfl⟩⟩

/-- What the check for repeated disposal does before an instruction. -/
theorem beforeDispose_eq : beforeDispose site s j = (.goOn s, j) ∨
    ∃ object, callsDispose site = true ∧ site.receiver s = some object ∧
      ((s.holds object (.disposal .disposed) = true ∧
          ∃ message, beforeDispose site s j = (.goOn s, j.add (site.diagnostic message))) ∨
        beforeDispose site s j = (.goOn (s.overwrite object (.disposal .disposed)), j)) := by
  unfold beforeDispose
  split
  · exact .inl rfl
  · next hcalls =>
    split
    · exact .inl rfl
    · next object hobject =>
      split
      · exact .inl rfl
      · refine .inr ⟨object, by simpa using hcalls, hobject, ?_⟩
        split
        · next hdisposed => exact .inl ⟨hdisposed, _, rfl⟩
        · exact .inr rfl

/-- What the check for weak salts does before an instruction. -/
theorem beforeDerivation_eq : beforeDerivation site s j = (.goOn s, j) ∨
    ∃ salt c, takesSalt site = true ∧ site.argument s saltArgument = some salt ∧
      (c = .saltSize .short ∨ c = .byteArray .constant) ∧ s.holds salt c = true ∧
      ∃ message, beforeDerivation site s j = (.goOn s, j.add (site.diagnostic message)) := by
  unfold beforeDerivation
  split
  · exact .inl rfl
  · next htakes =>
    have htakes : takesSalt site = true := by simpa using htakes
    split
    · exact .inl rfl
    · next salt hsalt =>
      split
      · next hshort => exact .inr ⟨salt, _, htakes, hsalt, .inl rfl, hshort, _, rfl⟩
      · split
        · next hconstant => exact .inr ⟨salt, _, htakes, hsalt, .inr rfl, hconstant, _, rfl⟩
        · exact .inl rfl

/-- What the check for weak salts does after an instruction. -/
theorem afterCreation_eq : afterCreation site s j = (.goOn s, j) ∨
    ∃ dimensions, site.instruction.operation = .arrayCreation dimensions ∧
      createsBytes site = true ∧
      afterCreation site s j = (.ofOption (markArray site.semantics dimensions s), j) := by
  unfold afterCreation
  split
  · next dimensions hcreation =>
    split
    · next hbytes => exact .inr ⟨dimensions, hcreation, hbytes, rfl⟩
    · exact .inl rfl
  · exact .inl rfl

/-- The rule on salts never changes a state before an instruction. -/
theorem beforeDerivation_goesOn : ∃ j', beforeDerivation site s j = (.goOn s, j') := by
  rcases beforeDerivation_eq site s j with heq | ⟨_, _, _, _, _, _, _, heq⟩ <;> exact ⟨_, heq⟩

end Rule

namespace Check.Standard

variable {c : Check}

/-- The checks of this library have no other answers. -/
theorem answer (hc : c.Standard) (moment : Moment) (site : Site) (s : State) (j : Journal) :
    Rule.Answer moment site s j (c.hook moment site s j) := by
  cases hc with
  | nullDereference =>
    cases moment with
    | before =>
      change Rule.Answer .before site s j (Rule.beforeDereference site s j)
      rcases Rule.beforeDereference_eq site s j with
        heq | ⟨object, hobject, ⟨-, message, heq⟩ | ⟨-, heq⟩⟩ <;> rw [heq]
      · exact .pass
      · exact .refuse message
      · exact .assume rfl hobject
    | after => exact .pass
  | repeatedDispose =>
    cases moment with
    | before =>
      change Rule.Answer .before site s j (Rule.beforeDispose site s j)
      rcases Rule.beforeDispose_eq site s j with
        heq | ⟨object, -, hobject, ⟨-, message, heq⟩ | heq⟩ <;> rw [heq]
      · exact .pass
      · exact .report message
      · exact .dispose rfl hobject
    | after => exact .pass
  | weakSalt =>
    cases moment with
    | before =>
      change Rule.Answer .before site s j (Rule.beforeDerivation site s j)
      rcases Rule.beforeDerivation_eq site s j with
        heq | ⟨_, _, -, -, -, -, message, heq⟩ <;> rw [heq]
      · exact .pass
      · exact .report message
    | after =>
      change Rule.Answer .after site s j (Rule.afterCreation site s j)
      rcases Rule.afterCreation_eq site s j with heq | ⟨dimensions, hcreation, -, heq⟩ <;> rw [heq]
      · exact .pass
      · exact .mark rfl hcreation

/-- A check of this library ends the path or adjusts the state; it never fails. -/
theorem hook_cases (hc : c.Standard) (moment : Moment) (site : Site) (s : State) (j : Journal) :
    (∃ s' j', c.hook moment site s j = (.goOn s', j') ∧ s.AdjustsTo s') ∨
      ∃ j', c.hook moment site s j = (.stop, j') := by
  have hoption : ∀ {o : Option State}, (∀ s', o = some s' → s.AdjustsTo s') →
      (∃ s' j', (Verdict.ofOption o, j) = (.goOn s', j') ∧ s.AdjustsTo s') ∨
        ∃ j', (Verdict.ofOption o, j) = (.stop, j') := by
    intro o ho
    cases o with
    | none => exact .inr ⟨j, rfl⟩
    | some s' => exact .inl ⟨s', j, rfl, ho s' rfl⟩
  have hanswer := hc.answer moment site s j
  generalize c.hook moment site s j = answer at hanswer
  cases hanswer with
  | pass | report => exact .inl ⟨s, _, rfl, .refl s⟩
  | refuse => exact .inr ⟨_, rfl⟩
  | assume _ hobject =>
    exact hoption fun s' hs' =>
      .assume (Site.receiver_offers hobject) (by simp [Constraint.domain]) hs'
  | dispose _ hobject =>
    exact .inl ⟨_, j, rfl, .overwrite (Site.receiver_offers hobject) (by simp [Constraint.domain])⟩
  | mark => exact hoption fun s' hs' => Rule.markArray_adjusts hs'

/-- A check of this library reports nothing or one diagnostic about the instruction at hand. -/
theorem journal_cases (hc : c.Standard) (moment : Moment) (site : Site) (s : State) (j : Journal) :
    (c.hook moment site s j).2 = j ∨
      ∃ message, (c.hook moment site s j).2 = j.add (site.diagnostic message) := by
  have hanswer := hc.answer moment site s j
  generalize c.hook moment site s j = answer at hanswer
  cases hanswer with
  | pass | assume | dispose | mark => exact .inl rfl
  | report message | refuse message => exact .inr ⟨message, rfl⟩

/-- A check of this library does not ask to end the run. -/
theorem cancelled (hc : c.Standard) (moment : Moment) (site : Site) (s : State) (j : Journal) :
    (c.hook moment site s j).2.cancelled = j.cancelled := by
  rcases hc.journal_cases moment site s j with hsame | ⟨message, hadd⟩
  · rw [hsame]
  · rw [hadd]
    rfl

/-- Whatever a check of this library does to a state is an adjustment. -/
theorem adjusts (hc : c.Standard) {moment : Moment} {site : Site}
    {s s' : State} {j j' : Journal} (h : c.hook moment site s j = (.goOn s', j')) :
    s.AdjustsTo s' := by
  rcases hc.hook_cases moment site s j with ⟨s₁, j₁, heq, hadjust⟩ | ⟨j₁, heq⟩
  · obtain ⟨hsame, -⟩ := Prod.mk.inj (heq.symm.trans h)
    exact Verdict.goOn.inj hsame ▸ hadjust
  · cases heq.symm.trans h

end Check.Standard

namespace Run

/-- The checks of a run are those of this library. -/
def Standard (run : Run) : Prop := ∀ slot ∈ run.slots, slot.check.Standard

variable (plan : Plan) (moment : Moment) (point : Point) (i : Instruction)

/-- Calling checks of this library ends the path or adjusts the state, and no check is disabled. -/
theorem callChecks_cases {slots : List Slot} (hslots : ∀ slot ∈ slots, slot.check.Standard)
    (j : Journal) (s : State) :
    (∃ j', callChecks plan moment point i slots j s = (slots, j', none)) ∨
      ∃ j' s', callChecks plan moment point i slots j s = (slots, j', some s') ∧
        s.AdjustsTo s' := by
  induction slots generalizing j s with
  | nil => exact .inr ⟨j, s, rfl, .refl s⟩
  | cons slot rest ih =>
    have hrest : ∀ slot ∈ rest, slot.check.Standard :=
      fun other hother => hslots other (List.mem_cons_of_mem _ hother)
    rw [callChecks]
    split
    · rcases (hslots slot List.mem_cons_self).hook_cases moment
        ⟨slot.check.rule, point, i, plan.setting.semantics⟩ s j with
        ⟨s₁, j₁, hhook, hadjust⟩ | ⟨j₁, hhook⟩
      · simp only [hhook]
        rcases ih hrest j₁ s₁ with ⟨j', heq⟩ | ⟨j', s', heq, hs'⟩
        · exact .inl ⟨j', by simp only [heq]⟩
        · exact .inr ⟨j', s', by simp only [heq], hadjust.trans hs'⟩
      · simp only [hhook]
        exact .inl ⟨j₁, rfl⟩
    · rcases ih hrest j s with ⟨j', heq⟩ | ⟨j', s', heq, hs'⟩
      · exact .inl ⟨j', by simp only [heq]⟩
      · exact .inr ⟨j', s', by simp only [heq], hs'⟩

/-- What every check keeps that is called is kept by all of them together. -/
theorem callChecks_induction {P : State → Prop} {slots : List Slot}
    (hhook : ∀ slot ∈ slots, slot.check.isInterested i = true → ∀ s j s', P s →
      (slot.check.hook moment ⟨slot.check.rule, point, i, plan.setting.semantics⟩ s j).1 =
        .goOn s' → P s')
    {s s' : State} (j : Journal) (hs : P s)
    (h : (callChecks plan moment point i slots j s).2.2 = some s') : P s' := by
  induction slots generalizing j s with
  | nil => exact Option.some.inj h ▸ hs
  | cons slot rest ih =>
    have hrest := fun other hother => hhook other (List.mem_cons_of_mem slot hother)
    rw [callChecks] at h
    split at h
    · next hcalled =>
      have hslot := hhook slot List.mem_cons_self (Bool.and_eq_true_iff.1 hcalled).2 s j
      dsimp only at h
      cases hanswer : slot.check.hook moment
          ⟨slot.check.rule, point, i, plan.setting.semantics⟩ s j with
      | mk verdict j' =>
        rw [hanswer] at h hslot
        cases verdict with
        | goOn t => exact ih hrest j' (hslot t hs rfl) h
        | stop => cases h
        | failed => exact ih hrest j' hs h
    · exact ih hrest j hs h

/-- No check of this library asks to end the run. -/
theorem callChecks_cancelled {slots : List Slot} (hslots : ∀ slot ∈ slots, slot.check.Standard)
    (j : Journal) (s : State) :
    (callChecks plan moment point i slots j s).2.1.cancelled = j.cancelled := by
  induction slots generalizing j s with
  | nil => rfl
  | cons slot rest ih =>
    have hrest : ∀ other ∈ rest, other.check.Standard :=
      fun other hother => hslots other (List.mem_cons_of_mem _ hother)
    rw [callChecks]
    split
    · generalize hsite : (⟨slot.check.rule, point, i, plan.setting.semantics⟩ : Site) = site
      have hhook := (hslots slot List.mem_cons_self).cancelled moment site s j
      dsimp only
      split
      · next heq => exact (ih hrest _ _).trans (by rw [← hhook, heq])
      · next heq => rw [← hhook, heq]
      · next heq => exact (ih hrest _ _).trans (by rw [← hhook, heq])
    · exact ih hrest j s

/-- Of the plan the checks see the setting only. -/
theorem callChecks_congr {plan plan' : Plan} (h : plan.setting = plan'.setting) (slots : List Slot)
    (j : Journal) (s : State) :
    callChecks plan moment point i slots j s = callChecks plan' moment point i slots j s := by
  induction slots generalizing j s with
  | nil => rfl
  | cons slot rest ih => simp only [callChecks, ih, h]

/-- An instruction depends on the setting and on nothing else in the plan. -/
theorem step_congr {plan plan' : Plan} (h : plan.setting = plan'.setting) (run : Run) (s : State) :
    run.step plan point i s = run.step plan' point i s := by
  simp only [step, checked, callChecks_congr _ _ _ h, h]

/-- What a step of a run with the checks of this library can do: end the path, or adjust the state,
do what the outline of the instruction says, and adjust the state again. Apart from the supply and
the journal the run stays as it is. -/
theorem step_cases {run : Run} (hrun : run.Standard) (s : State) :
    (∃ σ j, run.step plan point i s = (none, { run with supply := σ, journal := j }) ∧
        (σ = run.supply ∨ σ = (plan.setting.outline i run.supply s).supply)) ∨
      ∃ s₁ s' j,
        run.step plan point i s =
          (some s',
            { run with supply := (plan.setting.outline i run.supply s).supply, journal := j }) ∧
        s.AdjustsTo s₁ ∧
        ((plan.setting.outline i run.supply s).apply
          { s₁ with stack := s₁.stack.drop i.operation.operandCount }).AdjustsTo s' := by
  rw [step, checked]
  rcases callChecks_cases plan .before point i hrun run.journal s with
    ⟨j, heq⟩ | ⟨j, s₁, heq, hs₁⟩
  · exact .inl ⟨run.supply, j, by simp only [heq], .inl rfl⟩
  · simp only [heq, Setting.execute_eq, Setting.outline_congr _ _ _ hs₁.bindings hs₁.stack, checked]
    rcases callChecks_cases plan .after point i hrun j ((plan.setting.outline i run.supply s).apply
        { s₁ with stack := s₁.stack.drop i.operation.operandCount }) with
      ⟨j', heq'⟩ | ⟨j', s', heq', hs'⟩
    · exact .inl ⟨_, j', by simp only [heq'], .inr rfl⟩
    · exact .inr ⟨s₁, s', j', by simp only [heq'], hs₁, hs'⟩

/-- A step that does not end the path is an instruction between two rounds of checks. -/
theorem step_eq_some {run run' : Run} {s s' : State} (hrun : run.Standard)
    (h : run.step plan point i s = (some s', run')) :
    ∃ j s₁, callChecks plan .before point i run.slots run.journal s = (run.slots, j, some s₁) ∧
      s.AdjustsTo s₁ ∧
      (callChecks plan .after point i run.slots j (plan.setting.execute i run.supply s₁).1).2.2 =
        some s' := by
  rw [step, checked] at h
  rcases callChecks_cases plan .before point i hrun run.journal s with
    ⟨j, heq⟩ | ⟨j, s₁, heq, hs₁⟩
  · simp [heq] at h
  · simp only [heq, checked] at h
    exact ⟨j, s₁, heq, hs₁, congrArg Prod.fst h⟩

/-- So an instruction is no request to end the run, either. -/
theorem step_cancelled {run run' : Run} {s : State} {o : Option State} (hrun : run.Standard)
    (h : run.step plan point i s = (o, run')) :
    run'.journal.cancelled = run.journal.cancelled := by
  have hbefore := callChecks_cancelled plan .before point i hrun run.journal s
  rw [step, checked] at h
  rcases callChecks_cases plan .before point i hrun run.journal s with
    ⟨j, heq⟩ | ⟨j, s₁, heq, -⟩
  · simp only [heq] at h hbefore
    obtain ⟨-, rfl⟩ := Prod.mk.inj h
    exact hbefore
  · simp only [heq, checked] at h hbefore
    obtain ⟨-, rfl⟩ := Prod.mk.inj h
    exact (callChecks_cancelled plan .after point i hrun _ _).trans hbefore

end Run

end Pathwise
