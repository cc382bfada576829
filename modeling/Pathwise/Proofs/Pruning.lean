import Pathwise.Proofs.Sample
import Pathwise.Proofs.Simulation

/-!
# Where a path ends within a block

Each check of this library assumes or overwrites something, and an assumption can be refused. It
never is: an object is assumed not to be null only if it is not held to be null, and the array that
is marked has just been made. So a path ends within a block where null is dereferenced, which has
been reported then, and nowhere else.
-/

namespace Pathwise

variable {plan : Plan} {point : Point} {i : Instruction} {s : State}

/-- The instruction invokes a method or accesses a member of an object that is held to be null. -/
def Instruction.DereferencesNull (i : Instruction) (s : State) : Prop :=
  match i.operation with
  | .invocation arguments true => s.holds (s.peek arguments.length) (.nullability .null) = true
  | .memberAccess => s.holds (s.peek 0) (.nullability .null) = true
  | _ => False

theorem Site.dereferencesNull_iff {site : Site} : site.instruction.DereferencesNull s ↔
    ∃ object, site.receiver s = some object ∧ s.holds object (.nullability .null) = true := by
  unfold Instruction.DereferencesNull receiver
  cases site.instruction.operation with
  | invocation arguments hasReceiver => cases hasReceiver <;> simp
  | memberAccess => simp
  | _ => simp

/-- The check for null dereferences is called for every instruction that dereferences null. -/
theorem Instruction.DereferencesNull.isInterested (h : i.DereferencesNull s) :
    Rule.nullDereference.isInterested i = true := by
  have hinvocation : Rule.nullDereference.interests.intersects .invocation = true := by decide
  have hmemberAccess : Rule.nullDereference.interests.intersects .memberAccess = true := by decide
  unfold DereferencesNull at h
  unfold Check.isInterested
  split at h
  · next hoperation => rwa [hoperation]
  · next hoperation => rwa [hoperation]
  · cases h

/-- Recording something other than nullability leaves null dereferences alone. -/
theorem Instruction.dereferencesNull_overwrite (i : Instruction) (s : State) (v : Value)
    {c : Constraint} (hc : c.domain ≠ .nullability) :
    i.DereferencesNull (s.overwrite v c) ↔ i.DereferencesNull s := by
  unfold DereferencesNull State.holds State.peek
  simp only [State.stack_overwrite, Constraint.domain,
    State.constraint_overwrite_of_ne s v _ hc.symm]

/-! ## Checks before an instruction -/

namespace Rule

variable (site : Site) (s : State) (j : Journal)

/-- The check for null dereferences ends the path exactly where null is dereferenced. -/
theorem beforeDereference_cases :
    (site.instruction.DereferencesNull s ∧
        ∃ message, beforeDereference site s j = (.stop, j.add (site.diagnostic message))) ∨
      (¬site.instruction.DereferencesNull s ∧
        ∃ s', beforeDereference site s j = (.goOn s', j) ∧
          ¬site.instruction.DereferencesNull s') := by
  simp only [Site.dereferencesNull_iff]
  unfold beforeDereference
  cases hreceiver : site.receiver s with
  | none => exact .inr ⟨by simp, s, rfl, by simp [hreceiver]⟩
  | some object =>
    dsimp only
    split
    · next hnull => exact .inl ⟨⟨object, rfl, hnull⟩, _, rfl⟩
    · next hnull =>
      have hadmits : s.Admits object (.nullability .notNull) :=
        State.admits_notNull_iff.2 fun hheld => hnull (State.holds_nullability_iff.2 hheld)
      obtain ⟨s', hassume, hkept⟩ := State.assume_of_admits (by simp [Constraint.domain]) hadmits
      have hnot := State.admits_notNull_iff.1 (hkept object _ (fun _ => rfl) hadmits)
      have hsame : site.receiver s' = some object := by
        rw [← hreceiver]
        unfold Site.receiver State.peek
        rw [(State.bindings_stack_assume hassume).2]
      refine .inr ⟨?_, s', by rw [hassume]; rfl, ?_⟩
      · rintro ⟨_, heq, hheld⟩
        exact hnull (Option.some.inj heq ▸ hheld)
      · rintro ⟨_, heq, hheld⟩
        obtain rfl := Option.some.inj (hsame.symm.trans heq)
        exact hnot (State.holds_nullability_iff.1 hheld)

theorem repeatedDispose_ne : repeatedDispose ≠ nullDereference :=
  fun h => absurd (congrArg Check.rule h) (by decide)

theorem weakSalt_ne : weakSalt ≠ nullDereference :=
  fun h => absurd (congrArg Check.rule h) (by decide)

end Rule

/-- Before an instruction a check ends the path if it is the one for null dereferences and null is
dereferenced. Otherwise it goes on, and changes nothing about that. -/
theorem Check.Standard.before_cases {c : Check} (hc : c.Standard) (site : Site) (s : State)
    (j : Journal) :
    ((c = Rule.nullDereference ∧ site.instruction.DereferencesNull s) ∧
        ∃ message, c.hook .before site s j = (.stop, j.add (site.diagnostic message))) ∨
      (¬(c = Rule.nullDereference ∧ site.instruction.DereferencesNull s) ∧
        ∃ s' j', c.hook .before site s j = (.goOn s', j') ∧
          (site.instruction.DereferencesNull s' ↔ site.instruction.DereferencesNull s)) := by
  cases hc with
  | nullDereference =>
    rcases Rule.beforeDereference_cases site s j with ⟨hnull, hstop⟩ | ⟨hnot, s', hgoOn, hnot'⟩
    · exact .inl ⟨⟨rfl, hnull⟩, hstop⟩
    · exact .inr ⟨fun h => hnot h.2, s', j, hgoOn, by simp only [hnot, hnot']⟩
  | repeatedDispose =>
    have hne : ¬(Rule.repeatedDispose = Rule.nullDereference ∧
        site.instruction.DereferencesNull s) := fun h => Rule.repeatedDispose_ne h.1
    rcases Rule.beforeDispose_eq site s j with
      heq | ⟨object, -, -, ⟨-, message, heq⟩ | heq⟩
    · exact .inr ⟨hne, s, _, heq, .rfl⟩
    · exact .inr ⟨hne, s, _, heq, .rfl⟩
    · exact .inr ⟨hne, _, _, heq,
        Instruction.dereferencesNull_overwrite _ s object (by simp [Constraint.domain])⟩
  | weakSalt =>
    obtain ⟨j', hgoOn⟩ := Rule.beforeDerivation_goesOn site s j
    exact .inr ⟨fun h => Rule.weakSalt_ne h.1, s, j', hgoOn, .rfl⟩

theorem Report.has_add (r : Report) (d : Diagnostic) : (r.add d).has d.rule d.key = true := by
  unfold add
  split
  · next h => exact h
  · simp [has]

namespace Run

variable {slots : List Slot} {run : Run}

/-- The checks are those of this library, and all of them are called. -/
def AllCalled (slots : List Slot) : Prop :=
  ∀ slot ∈ slots, slot.check.Standard ∧ slot.enabled = true

/-- Null is dereferenced and the check for that is called. -/
def Refuses (slots : List Slot) (i : Instruction) (s : State) : Prop :=
  (∃ slot ∈ slots, slot.check = Rule.nullDereference) ∧ i.DereferencesNull s

/-- The checks before an instruction end the path exactly where null is dereferenced, and then this
has been reported. -/
theorem callChecks_before_cases (plan : Plan) (point : Point) (i : Instruction)
    (hslots : AllCalled slots) (j : Journal) (s : State) :
    (Refuses slots i s ∧ ∃ j', callChecks plan .before point i slots j s = (slots, j', none) ∧
        j'.report.has Rule.nullDereferenceId i.node.val.toNat.repr = true) ∨
      (¬Refuses slots i s ∧ ∃ j' s', callChecks plan .before point i slots j s =
        (slots, j', some s') ∧ s.AdjustsTo s') := by
  induction slots generalizing j s with
  | nil => exact .inr ⟨by simp [Refuses], j, s, rfl, .refl s⟩
  | cons slot rest ih =>
    obtain ⟨⟨hstandard, henabled⟩, hrest⟩ := List.forall_mem_cons.1 hslots
    have hrefuses : Refuses (slot :: rest) i s ↔
        (slot.check = Rule.nullDereference ∧ i.DereferencesNull s) ∨ Refuses rest i s := by
      simp only [Refuses, List.mem_cons, or_and_right, exists_or, exists_eq_left]
    rw [callChecks, henabled, Bool.true_and, hrefuses]
    split
    · have hcases := hstandard.before_cases ⟨slot.check.rule, point, i, plan.setting.semantics⟩ s j
      dsimp only at hcases ⊢
      rcases hcases with ⟨hnull, message, hstop⟩ | ⟨hnot, s₁, j₁, hgoOn, hsame⟩
      · simp only [hstop]
        have hadd := Report.has_add j.report (Site.diagnostic
          ⟨slot.check.rule, point, i, plan.setting.semantics⟩ message)
        have hrule : slot.check.rule = Rule.nullDereferenceId := by rw [hnull.1]; rfl
        exact .inl ⟨.inl hnull, _, rfl, hrule ▸ hadd⟩
      · have hnext : Refuses rest i s₁ ↔ Refuses rest i s := and_congr_right fun _ => hsame
        have hadjust := hstandard.adjusts hgoOn
        simp only [hgoOn]
        rcases ih hrest j₁ s₁ with ⟨hyes, j', heq, hhas⟩ | ⟨hno, j', s', heq, hs'⟩
        · exact .inl ⟨.inr (hnext.1 hyes), j', by simp only [heq], hhas⟩
        · exact .inr ⟨not_or.2 ⟨hnot, fun h => hno (hnext.2 h)⟩, j', s', by simp only [heq],
            hadjust.trans hs'⟩
    · next hbored =>
      have hnot : ¬(slot.check = Rule.nullDereference ∧ i.DereferencesNull s) := by
        rintro ⟨hcheck, hnull⟩
        exact hbored (hcheck ▸ hnull.isInterested)
      rcases ih hrest j s with ⟨hyes, j', heq, hhas⟩ | ⟨hno, j', s', heq, hs'⟩
      · exact .inl ⟨.inr hyes, j', by simp only [heq], hhas⟩
      · exact .inr ⟨not_or.2 ⟨hnot, hno⟩, j', s', by simp only [heq], hs'⟩

end Run

/-! ## Checks after an instruction -/

/-- Recording in another domain leaves a new array markable. -/
theorem Rule.Markable.overwrite (h : Markable s) {v : Value} {c : Constraint}
    (hcontent : c.domain ≠ .byteArray) (hsize : c.domain ≠ .saltSize) :
    Markable (s.overwrite v c) := by
  unfold Markable State.Admits State.peek at h ⊢
  simp only [Constraint.domain] at h ⊢
  rwa [State.stack_overwrite, State.constraint_overwrite_of_ne s v _ hcontent.symm,
    State.constraint_overwrite_of_ne s v _ hsize.symm]

/-- A new array that can be marked can be marked after every check. -/
theorem Check.Standard.keeps_markable {c : Check} (hc : c.Standard) :
    c.Keeps fun _ s => Rule.Markable s := by
  intro l moment site s s' j _ hs h
  have hanswer := hc.answer moment site s j
  generalize c.hook moment site s j = answer at h hanswer
  cases hanswer with
  | pass | report => exact Verdict.goOn.inj h ▸ hs
  | refuse => cases h
  | assume =>
    rcases State.assume_of_not_truth (by simp [Constraint.domain]) (Verdict.eq_some_of_ofOption h)
      with rfl | rfl
    · exact hs
    · exact hs.overwrite (by simp [Constraint.domain]) (by simp [Constraint.domain])
  | dispose =>
    exact Verdict.goOn.inj h ▸
      hs.overwrite (by simp [Constraint.domain]) (by simp [Constraint.domain])
  | @mark dimensions =>
    obtain ⟨t, hmark, ht⟩ := Rule.markArray_goesOn site.semantics dimensions hs
    rw [hmark] at h
    exact Verdict.goOn.inj h ▸ ht

namespace Run

variable {slots : List Slot} {run : Run} {l : List Value}

/-- The checks after an instruction go on if a new array can be marked. -/
theorem callChecks_after_goesOn (plan : Plan) (point : Point) (i : Instruction)
    (hslots : AllCalled slots) (j : Journal)
    (hmarkable : ∀ dimensions, i.operation = .arrayCreation dimensions → Rule.Markable s) :
    ∃ j' s', callChecks plan .after point i slots j s = (slots, j', some s') := by
  obtain ⟨j', s', heq, -⟩ := callChecks_goesOn
    (P := fun t => ∀ dimensions, i.operation = .arrayCreation dimensions → Rule.Markable t)
    plan .after point i
    (fun slot hslot s j hs => (hslots slot hslot).1.after_goesOn
      ⟨slot.check.rule, point, i, plan.setting.semantics⟩ j hs) j hmarkable
  exact ⟨j', s', heq⟩

theorem callsOf_after_goesOn (hslots : AllCalled slots) (hl : Ledger l) (j : Journal)
    (hmarkable : ∀ dimensions, i.operation = .arrayCreation dimensions → Rule.Markable s)
    {c : HookCall} (hc : c ∈ callsOf plan .after point i slots j s) :
    ∃ t, c.answer.1 = .goOn t := by
  obtain ⟨⟨slot, hslot, hcheck⟩, -, hmoment, hsite⟩ := mem_callsOf hc
  have hstandard : c.check.Standard := hcheck ▸ (hslots slot hslot).1
  have hstate : c.state ∈ c.states := by
    unfold HookCall.states
    split <;> simp
  obtain ⟨t, j', hgoOn, -⟩ := hstandard.after_goesOn (s := c.state) c.site c.journal
    fun dimensions hcreation => (callChecks_keeps plan .after point i
      (fun slot hslot => (hslots slot hslot).1.keeps_markable) hl j
      (hmarkable dimensions (by rwa [hsite] at hcreation))).1 c hc c.state hstate
  exact ⟨t, by rw [HookCall.answer, hmoment, hgoOn]⟩

end Run

/-! ## Steps and runs -/

namespace Run

variable {run : Run} {l : List Value}

/-- When the checks before an instruction have gone on, a new array can be marked after it. -/
theorem markable_execute (x : Setting) (hl : Ledger l) (ht : run.supply.Tracks l)
    (hs : s.DrawnFrom l) {s₁ : State} (hadjust : s.AdjustsTo s₁) (dimensions : List NodeId)
    (hcreation : i.operation = .arrayCreation dimensions) :
    Rule.Markable (x.execute i run.supply s₁).1 := by
  rw [Setting.execute_eq]
  exact Setting.markable_outline hl ht (hadjust.drawnFrom hl hs) hcreation _

/-- A step ends the path exactly where null is dereferenced, and then this has been reported. It
disables no check. -/
theorem step_refuses_iff (plan : Plan) (run : Run) (point : Point) (i : Instruction)
    (hslots : AllCalled run.slots) (hl : Ledger l) (ht : run.supply.Tracks l)
    (hs : s.DrawnFrom l) :
    ((run.step plan point i s).1 = none ↔ Refuses run.slots i s) ∧
      ((run.step plan point i s).1 = none → (run.step plan point i s).2.journal.report.has
        Rule.nullDereferenceId i.node.val.toNat.repr = true) := by
  rw [step, checked]
  rcases callChecks_before_cases plan point i hslots run.journal s with
    ⟨hrefuses, j, heq, hhas⟩ | ⟨hnot, j, s₁, heq, hadjust⟩
  · simp only [heq]
    exact ⟨iff_of_true trivial hrefuses, fun _ => hhas⟩
  · obtain ⟨j', s', heq'⟩ := callChecks_after_goesOn plan point i hslots j
      (markable_execute plan.setting hl ht hs hadjust)
    simp only [heq, checked, heq']
    exact ⟨iff_of_false (by simp) hnot, by simp⟩

/-- In a step all checks but the one for null dereferences go on. -/
theorem stepCalls_goOn (run : Run) (hslots : AllCalled run.slots) (hl : Ledger l)
    (ht : run.supply.Tracks l) (hs : s.DrawnFrom l) {c : HookCall}
    (hc : c ∈ run.stepCalls plan point i s) (hother : c.check ≠ Rule.nullDereference) :
    ∃ t, c.answer.1 = .goOn t := by
  unfold stepCalls at hc
  rcases List.mem_append.1 hc with hc | hc
  · obtain ⟨⟨slot, hslot, hcheck⟩, -, hmoment, -⟩ := mem_callsOf hc
    have hstandard : c.check.Standard := hcheck ▸ (hslots slot hslot).1
    rcases hstandard.before_cases c.site c.state c.journal with
      ⟨⟨hnull, -⟩, -⟩ | ⟨-, t, j', hgoOn, -⟩
    · exact absurd hnull hother
    · exact ⟨t, by rw [HookCall.answer, hmoment, hgoOn]⟩
  · rw [checked] at hc
    rcases callChecks_before_cases plan point i hslots run.journal s with
      ⟨-, j, heq, -⟩ | ⟨-, j, s₁, heq, hadjust⟩
    · simp [heq] at hc
    · simp only [heq] at hc
      exact callsOf_after_goesOn hslots hl j (markable_execute plan.setting hl ht hs hadjust) hc

end Run

theorem Reached.allCalled {checks : List Check} (hchecks : ∀ c ∈ checks, c.Standard)
    {x : Situation} (hx : Reached plan checks x) : Run.AllCalled x.run.slots := by
  rw [hx.slots_eq hchecks]
  intro slot hslot
  obtain ⟨c, hc, rfl⟩ := List.mem_map.1 hslot
  exact ⟨hchecks c hc, rfl⟩

/-- Only a reported null dereference ends a path within a block. However far an exploration with
checks of this library has come, all checks are still called, and those besides the check for null
dereferences go on whenever they are called. The step of an instruction ends the path exactly if it
invokes a method or accesses a member of an object that is held to be null and the check for that is
among the checks; then a diagnostic of its rule about the instruction is in the report. -/
theorem only_null_dereferences_end_paths {checks : List Check}
    (hchecks : ∀ c ∈ checks, c.Standard) {x : Situation} (hx : Reached plan checks x) :
    x.run.slots = checks.map (⟨·, true⟩) ∧
      (∀ c ∈ x.calls plan, c.check ≠ Rule.nullDereference → ∃ t, c.answer.1 = .goOn t) ∧
      ∀ point i rest s o run', x.stage = .executing point (i :: rest) s →
        (x.run.count .countStep).step plan point i s = (o, run') →
        (o = none ↔ Rule.nullDereference ∈ checks ∧ i.DereferencesNull s) ∧
          (o = none → run'.journal.report.has Rule.nullDereferenceId i.node.val.toNat.repr =
            true) := by
  have hslots := hx.slots_eq hchecks
  have hcalled := hx.allCalled hchecks
  obtain ⟨l, hdrawn, -⟩ := hx.coherent hchecks
  obtain ⟨run, stage⟩ := x
  refine ⟨hslots, fun c hc hother => ?_, ?_⟩
  · unfold Situation.calls at hc
    split at hc
    · next point i rest s hstage =>
      split at hc
      · cases hc
      · have hs : s.DrawnFrom l := by
          refine hdrawn.stage s ?_
          rw [hstage]
          exact List.mem_cons_self
        exact Run.stepCalls_goOn (run.count .countStep) hcalled hdrawn.ledger hdrawn.tracks hs hc
          hother
    · cases hc
  · rintro point i rest s o run' rfl hstep
    obtain ⟨hiff, hhas⟩ := Run.step_refuses_iff plan (run.count .countStep) point i hcalled
      hdrawn.ledger hdrawn.tracks (hdrawn.stage s List.mem_cons_self)
    rw [hstep] at hiff hhas
    refine ⟨hiff.trans (and_congr_left fun _ => ?_), hhas⟩
    exact List.mem_map.symm.trans (Iff.of_eq (congrArg _ hx.checks_eq))

namespace WrongGuard

/-- The parameter. -/
def p : Symbol := ⟨"p", .parameter⟩

/-- What the nodes mean. -/
def semantics : Semantics where
  symbol n := if n.val ∈ [1, 4, 7] then some p else none
  typeOf _ := none
  method _ := none
  constant _ := none

/-- A member of `p` is accessed, whether `p` is null or not. -/
def blocks : List Block := [
  ⟨0, [⟨⟨1⟩, .identifier, none⟩, ⟨⟨2⟩, .literal .null, none⟩, ⟨⟨3⟩, .binary .equals, none⟩]⟩,
  ⟨1, [⟨⟨4⟩, .identifier, none⟩, ⟨⟨5⟩, .memberAccess, none⟩, ⟨⟨6⟩, .pop, none⟩]⟩,
  ⟨2, [⟨⟨7⟩, .identifier, none⟩, ⟨⟨8⟩, .memberAccess, none⟩, ⟨⟨9⟩, .pop, none⟩]⟩]

/-- The program. -/
def sample : Sample := ⟨[p], semantics, blocks, [⟨0, 1, .whenTrue⟩, ⟨0, 2, .whenFalse⟩], 1⟩

/-- A member is accessed, and the object is held to be null or not. -/
def accesses (null : Bool) : Situation → Bool
  | ⟨_, .executing _ (i :: _) s⟩ =>
    i.operation == .memberAccess && s.holds (s.peek 0) (.nullability .null) == null
  | _ => false

/-- The exploration gets to an access with an object that is held to be null or not. -/
theorem accesses_reached (null : Bool) (n : Nat)
    (h : ((Situation.entering sample.plan (.start sample.checks)).after sample.plan n).any
      (accesses null) = true) :
    ∃ run point i rest s,
      Reached sample.plan sample.checks ⟨run, .executing point (i :: rest) s⟩ ∧
        i.operation = .memberAccess ∧ (i.DereferencesNull s ↔ null = true) := by
  obtain ⟨x, hx, haccesses⟩ := (Option.any_eq_true _ _).1 h
  unfold accesses at haccesses
  split at haccesses
  · next run point i rest s =>
    rw [Bool.and_eq_true, beq_iff_eq, beq_iff_eq] at haccesses
    refine ⟨run, point, i, rest, s, .of_after hx, haccesses.1, ?_⟩
    simp only [Instruction.DereferencesNull, haccesses]
  · cases haccesses

end WrongGuard

open WrongGuard in
/-- The path on which `p` is null ends at the access, which is reported; the other one goes on. -/
theorem only_null_dereferences_end_paths_wrongGuard :
    (∃ run point i rest s,
      Reached sample.plan sample.checks ⟨run, .executing point (i :: rest) s⟩ ∧
        ((run.count .countStep).step sample.plan point i s).1 = none ∧
        ((run.count .countStep).step sample.plan point i s).2.journal.report.has
          Rule.nullDereferenceId i.node.val.toNat.repr = true) ∧
      ∃ run point i rest s,
        Reached sample.plan sample.checks ⟨run, .executing point (i :: rest) s⟩ ∧
          i.operation = .memberAccess ∧
          ((run.count .countStep).step sample.plan point i s).1 ≠ none := by
  have hchecks : ∀ c ∈ sample.checks, c.Standard := fun c hc => Registry.standard_enabled hc
  have hnull : Rule.nullDereference ∈ sample.checks := by
    rw [Sample.checks, Registry.standard_enabled_eq]
    exact List.mem_filter.2 ⟨by simp, by decide⟩
  obtain ⟨run, point, i, rest, s, hx, -, hends⟩ :=
    accesses_reached true 12 (by decide +kernel)
  obtain ⟨run', point', i', rest', s', hx', haccess, hgoes⟩ :=
    accesses_reached false 15 (by decide +kernel)
  obtain ⟨-, -, hstep⟩ := only_null_dereferences_end_paths hchecks hx
  obtain ⟨-, -, hstep'⟩ := only_null_dereferences_end_paths hchecks hx'
  obtain ⟨hiff, hreported⟩ := hstep point i rest s _ _ rfl rfl
  have hnone := hiff.2 ⟨hnull, hends.2 rfl⟩
  refine ⟨⟨run, point, i, rest, s, hx, hnone, hreported hnone⟩,
    run', point', i', rest', s', hx', haccess, fun h => ?_⟩
  have hfalse := hgoes.1 ((hstep' point' i' rest' s' _ _ rfl rfl).1.1 h).2
  cases hfalse

end Pathwise
