import Pathwise.Proofs.Arrival

/-!
# The calls of the checks

The calls that a run makes to the hooks of its checks, in order, each with the state and the journal
that the hook was given. A check that fails is disabled, a disabled check is not called and stays
disabled, and no move brings a check back, so the call in which a check fails is its last one. What
is reported is reported in a call.
-/

namespace Pathwise

/-- A call of a hook. -/
structure HookCall where
  /-- The check. -/
  check : Check
  /-- When it is called. -/
  moment : Moment
  /-- What it knows about the instruction. -/
  site : Site
  /-- The state that it is given. -/
  state : State
  /-- The journal that it is given. -/
  journal : Journal

namespace HookCall

/-- What the hook answers, and the journal that it leaves. -/
def answer (c : HookCall) : Verdict × Journal := c.check.hook c.moment c.site c.state c.journal

/-- The hook adds a diagnostic to the report. -/
def Reports (c : HookCall) (d : Diagnostic) : Prop :=
  d ∉ c.journal.report.diagnostics ∧ d ∈ c.answer.2.report.diagnostics

/-- The hook fails. -/
def Fails (c : HookCall) : Prop := ∃ message, c.answer.1 = .failed message

/-- The states that pass through the hook: the one it is given and the one it goes on with. -/
def states (c : HookCall) : List State :=
  match c.answer.1 with
  | .goOn s => [c.state, s]
  | _ => [c.state]

end HookCall

namespace Run

/-- The calls at a moment of an instruction. -/
def callsOf (plan : Plan) (moment : Moment) (point : Point) (i : Instruction) :
    List Slot → Journal → State → List HookCall
  | [], _, _ => []
  | slot :: rest, journal, s =>
    if slot.enabled && slot.check.isInterested i then
      let call : HookCall :=
        ⟨slot.check, moment, ⟨slot.check.rule, point, i, plan.setting.semantics⟩, s, journal⟩
      match call.answer with
      | (.goOn s, journal) => call :: callsOf plan moment point i rest journal s
      | (.stop, _) => [call]
      | (.failed _, journal) => call :: callsOf plan moment point i rest journal s
    else
      callsOf plan moment point i rest journal s

/-- The calls around an instruction: those before it, and those after it unless the path has ended.
-/
def stepCalls (plan : Plan) (run : Run) (point : Point) (i : Instruction) (s : State) :
    List HookCall :=
  callsOf plan .before point i run.slots run.journal s ++
    match run.checked plan .before point i s with
    | (none, _) => []
    | (some s, run) =>
      callsOf plan .after point i run.slots run.journal (plan.setting.execute i run.supply s).1

end Run

namespace Situation

/-- The calls that the next move makes. -/
def calls (plan : Plan) (x : Situation) : List HookCall :=
  match x.stage with
  | .executing point (i :: _) s =>
    if plan.settings.maxSteps < (x.run.count .countStep).statistics.steps then []
    else (x.run.count .countStep).stepCalls plan point i s
  | _ => []

/-- The calls that a number of moves make. -/
def callsWithin (plan : Plan) : Nat → Situation → List HookCall
  | 0, _ => []
  | n + 1, x => x.calls plan ++ ((x.next plan).map (callsWithin plan n)).getD []

end Situation

/-! ## Disabled checks -/

/-- No check of a rule is called any more. -/
def Silent (rule : String) (slots : List Slot) : Prop :=
  ∀ slot ∈ slots, slot.check.rule = rule → slot.enabled = false

/-- A check of a rule fails in one of the calls. -/
def FailsIn (rule : String) (calls : List HookCall) : Prop :=
  ∃ c ∈ calls, c.check.rule = rule ∧ c.Fails

/-- No failing call of a rule is followed by another call of the rule. -/
def LastIfFailed (rule : String) (calls : List HookCall) : Prop :=
  calls.Pairwise fun a b => a.check.rule = rule → a.Fails → b.check.rule ≠ rule

/-- A rule is silent if no slot of it is enabled. -/
theorem silent_cons {rule : String} {slot : Slot} {rest : List Slot} :
    Silent rule (slot :: rest) ↔
      (slot.check.rule = rule → slot.enabled = false) ∧ Silent rule rest :=
  List.forall_mem_cons

theorem failsIn_cons {rule : String} {c : HookCall} {rest : List HookCall} :
    FailsIn rule (c :: rest) ↔ (c.check.rule = rule ∧ c.Fails) ∨ FailsIn rule rest := by
  simp only [FailsIn, List.mem_cons, or_and_right, exists_or, exists_eq_left]

theorem failsIn_append {rule : String} {calls calls' : List HookCall} :
    FailsIn rule (calls ++ calls') ↔ FailsIn rule calls ∨ FailsIn rule calls' := by
  simp only [FailsIn, List.mem_append, or_and_right, exists_or]

/-- The first check is not called, or it ends the path, or the others are called after it. -/
theorem Run.callsOf_cons (plan : Plan) (moment : Moment) (point : Point) (i : Instruction)
    (slot : Slot) (rest : List Slot) (j : Journal) (s : State) :
    (callsOf plan moment point i (slot :: rest) j s = callsOf plan moment point i rest j s ∧
        (callChecks plan moment point i (slot :: rest) j s).1 =
          slot :: (callChecks plan moment point i rest j s).1) ∨
      ∃ c : HookCall, c.check = slot.check ∧ slot.enabled = true ∧
        ((¬ c.Fails ∧ callsOf plan moment point i (slot :: rest) j s = [c] ∧
            (callChecks plan moment point i (slot :: rest) j s).1 = slot :: rest) ∨
          ∃ enabled j' t, (c.Fails ↔ enabled = false) ∧
            callsOf plan moment point i (slot :: rest) j s =
              c :: callsOf plan moment point i rest j' t ∧
            (callChecks plan moment point i (slot :: rest) j s).1 =
              ⟨slot.check, enabled⟩ :: (callChecks plan moment point i rest j' t).1) := by
  obtain ⟨check, enabled⟩ := slot
  rw [callsOf, callChecks]
  split
  · next hcalled =>
    have henabled : enabled = true := (Bool.and_eq_true_iff.1 hcalled).1
    refine .inr ⟨⟨check, moment, ⟨check.rule, point, i, plan.setting.semantics⟩, s, j⟩, rfl,
      henabled, ?_⟩
    dsimp only [HookCall.answer, HookCall.Fails]
    cases check.hook moment ⟨check.rule, point, i, plan.setting.semantics⟩ s j with
    | mk verdict j' =>
      cases verdict with
      | goOn t => exact .inr ⟨enabled, j', t, by simp [henabled], rfl, rfl⟩
      | stop => exact .inl ⟨by simp, rfl, rfl⟩
      | failed message => exact .inr ⟨false, j', s, by simp, rfl, rfl⟩
  · exact .inl ⟨rfl, rfl⟩

namespace Run

variable {plan : Plan} {moment : Moment} {point : Point} {i : Instruction} {rule : String}
  {slots : List Slot} {j : Journal} {s : State} {run : Run}

/-- Calling checks leaves the checks as they are, in their order. -/
theorem callChecks_checks (plan : Plan) (moment : Moment) (point : Point) (i : Instruction)
    (slots : List Slot) (j : Journal) (s : State) :
    (callChecks plan moment point i slots j s).1.map Slot.check = slots.map Slot.check := by
  induction slots generalizing j s with
  | nil => rfl
  | cons slot rest ih =>
    rcases callsOf_cons plan moment point i slot rest j s with
      ⟨-, hslots⟩ | ⟨c, -, -, ⟨-, -, hslots⟩ | ⟨enabled, j', t, -, -, hslots⟩⟩
    · rw [hslots, List.map_cons, List.map_cons, ih]
    · rw [hslots]
    · rw [hslots, List.map_cons, List.map_cons, ih]

/-- What holds of all checks depends on the checks alone. -/
theorem forall_check_of_eq {C : Check → Prop} {slots slots' : List Slot}
    (h : slots'.map Slot.check = slots.map Slot.check) (hslots : ∀ slot ∈ slots, C slot.check) :
    ∀ slot ∈ slots', C slot.check := by
  intro slot hslot
  have hmem : slot.check ∈ slots.map Slot.check := h ▸ List.mem_map_of_mem hslot
  obtain ⟨other, hother, hcheck⟩ := List.mem_map.1 hmem
  exact hcheck ▸ hslots other hother

/-- A call is made to a check of the run that is interested in the instruction at hand. -/
theorem mem_callsOf {c : HookCall} (hc : c ∈ callsOf plan moment point i slots j s) :
    (∃ slot ∈ slots, c.check = slot.check) ∧ c.check.isInterested i = true ∧ c.moment = moment ∧
      c.site = ⟨c.check.rule, point, i, plan.setting.semantics⟩ := by
  induction slots generalizing j s with
  | nil => cases hc
  | cons slot rest ih =>
    have hlater : ∀ {j s}, c ∈ callsOf plan moment point i rest j s →
        (∃ other ∈ slot :: rest, c.check = other.check) ∧ c.check.isInterested i = true ∧
          c.moment = moment ∧ c.site = ⟨c.check.rule, point, i, plan.setting.semantics⟩ := by
      intro j s hc
      obtain ⟨⟨other, hother, hcheck⟩, hrest⟩ := ih hc
      exact ⟨⟨other, List.mem_cons_of_mem _ hother, hcheck⟩, hrest⟩
    rw [callsOf] at hc
    split at hc
    · next hcalled =>
      have hfirst : (∃ other ∈ slot :: rest, slot.check = other.check) ∧
          slot.check.isInterested i = true :=
        ⟨⟨slot, List.mem_cons_self, rfl⟩, (Bool.and_eq_true_iff.1 hcalled).2⟩
      dsimp only at hc
      split at hc
      · rcases List.mem_cons.1 hc with rfl | hc
        · exact ⟨hfirst.1, hfirst.2, rfl, rfl⟩
        · exact hlater hc
      · obtain rfl := List.mem_singleton.1 hc
        exact ⟨hfirst.1, hfirst.2, rfl, rfl⟩
      · rcases List.mem_cons.1 hc with rfl | hc
        · exact ⟨hfirst.1, hfirst.2, rfl, rfl⟩
        · exact hlater hc
    · exact hlater hc

/-- A silent rule is not called. -/
theorem rule_ne_of_silent (h : Silent rule slots) {c : HookCall}
    (hc : c ∈ callsOf plan moment point i slots j s) : c.check.rule ≠ rule := by
  induction slots generalizing j s with
  | nil => cases hc
  | cons slot rest ih =>
    obtain ⟨hslot, hrest⟩ := silent_cons.1 h
    rcases callsOf_cons plan moment point i slot rest j s with
      ⟨hcalls, -⟩ | ⟨d, hd, henabled, hcases⟩
    · exact ih hrest (hcalls ▸ hc)
    · have hfirst : d.check.rule ≠ rule := by
        intro hrule
        have hdisabled := hslot (hd ▸ hrule)
        rw [henabled] at hdisabled
        cases hdisabled
      rcases hcases with ⟨-, hcalls, -⟩ | ⟨enabled, j', t, -, hcalls, -⟩
      · rw [hcalls, List.mem_singleton] at hc
        exact hc ▸ hfirst
      · rw [hcalls] at hc
        rcases List.mem_cons.1 hc with rfl | hc
        · exact hfirst
        · exact ih hrest hc

/-- A rule that stands once among the checks at most: where it stands, it does not follow. -/
theorem silent_of_count_le_one {slot : Slot} {rest : List Slot}
    (hone : ((slot :: rest).map (·.check.rule)).count rule ≤ 1) :
    (rest.map (·.check.rule)).count rule ≤ 1 ∧ (slot.check.rule = rule → Silent rule rest) := by
  rw [List.map_cons, List.count_cons] at hone
  refine ⟨by omega, fun hrule other hmem heq => ?_⟩
  have hmem : rule ∈ rest.map (·.check.rule) := List.mem_map.2 ⟨other, hmem, heq⟩
  have hcount := List.count_pos_iff.2 hmem
  simp only [hrule, beq_self_eq_true, if_true] at hone
  omega

/-- A rule with one check at most is silent once it was silent or its check has failed. -/
theorem silent_callChecks_iff (plan : Plan) (moment : Moment) (point : Point) (i : Instruction)
    (hone : (slots.map (·.check.rule)).count rule ≤ 1) (j : Journal) (s : State) :
    Silent rule (callChecks plan moment point i slots j s).1 ↔
      Silent rule slots ∨ FailsIn rule (callsOf plan moment point i slots j s) := by
  induction slots generalizing j s with
  | nil => exact ⟨.inl, fun h => h.elim id fun ⟨c, hc, _⟩ => nomatch hc⟩
  | cons slot rest ih =>
    obtain ⟨honce, hsilent⟩ := silent_of_count_le_one hone
    have hquiet : slot.check.rule = rule → ∀ j t,
        ¬ FailsIn rule (callsOf plan moment point i rest j t) :=
      fun hrule j t ⟨c, hc, heq, _⟩ => rule_ne_of_silent (hsilent hrule) hc heq
    rcases callsOf_cons plan moment point i slot rest j s with
      ⟨hcalls, hslots⟩ | ⟨c, hc, henabled, hcases⟩
    · rw [hslots, hcalls, silent_cons, silent_cons, ih honce]
      by_cases hrule : slot.check.rule = rule
      · simp [hrule, hquiet hrule]
      · simp [hrule]
    · rcases hcases with ⟨hgoes, hcalls, hslots⟩ | ⟨enabled, j', t, hfails, hcalls, hslots⟩
      · have hnone : ¬ FailsIn rule [c] := fun ⟨d, hd, _, hfails⟩ =>
          hgoes (List.mem_singleton.1 hd ▸ hfails)
        rw [hslots, hcalls]
        exact ⟨.inl, fun h => h.resolve_right hnone⟩
      · rw [hslots, hcalls, silent_cons, silent_cons, failsIn_cons, ih honce, hfails, hc]
        by_cases hrule : slot.check.rule = rule
        · simp [hrule, hquiet hrule, hsilent hrule, henabled]
        · simp [hrule]

/-- Of a rule with one check at most, no call follows one that failed. -/
theorem lastIfFailed_callsOf (plan : Plan) (moment : Moment) (point : Point) (i : Instruction)
    (hone : (slots.map (·.check.rule)).count rule ≤ 1) (j : Journal) (s : State) :
    LastIfFailed rule (callsOf plan moment point i slots j s) := by
  induction slots generalizing j s with
  | nil => exact .nil
  | cons slot rest ih =>
    obtain ⟨honce, hsilent⟩ := silent_of_count_le_one hone
    rcases callsOf_cons plan moment point i slot rest j s with
      ⟨hcalls, -⟩ | ⟨c, hc, -, ⟨-, hcalls, -⟩ | ⟨enabled, j', t, -, hcalls, -⟩⟩
    · rw [hcalls]
      exact ih honce j s
    · rw [hcalls]
      exact List.pairwise_singleton _ _
    · rw [hcalls]
      refine List.pairwise_cons.2 ⟨fun d hd hrule _ => ?_, ih honce j' t⟩
      exact rule_ne_of_silent (hsilent (hc ▸ hrule)) hd

/-- What all checks but those of one rule keep holds of the states with which that rule is called,
if it has one check at most. -/
theorem callsOf_induction {P : State → Prop} (hone : (slots.map (·.check.rule)).count rule ≤ 1)
    (hhook : ∀ slot ∈ slots, slot.check.rule ≠ rule → slot.check.isInterested i = true →
      ∀ s j s', P s →
        (slot.check.hook moment ⟨slot.check.rule, point, i, plan.setting.semantics⟩ s j).1 =
          .goOn s' → P s')
    (hs : P s) {c : HookCall} (hc : c ∈ callsOf plan moment point i slots j s)
    (hrule : c.check.rule = rule) : P c.state := by
  induction slots generalizing j s with
  | nil => cases hc
  | cons slot rest ih =>
    obtain ⟨honce, hsilent⟩ := silent_of_count_le_one hone
    have hrest := fun other hother => hhook other (List.mem_cons_of_mem slot hother)
    rw [callsOf] at hc
    split at hc
    · next hcalled =>
      have hinterested := (Bool.and_eq_true_iff.1 hcalled).2
      dsimp only [HookCall.answer] at hc
      cases hanswer : slot.check.hook moment
          ⟨slot.check.rule, point, i, plan.setting.semantics⟩ s j with
      | mk verdict j' =>
        rw [hanswer] at hc
        cases verdict with
        | goOn t =>
          rcases List.mem_cons.1 hc with rfl | hc
          · exact hs
          · by_cases hslot : slot.check.rule = rule
            · exact absurd hrule (rule_ne_of_silent (hsilent hslot) hc)
            · have ht : P t := hhook slot List.mem_cons_self hslot hinterested s j t hs
                (congrArg Prod.fst hanswer)
              exact ih honce hrest ht hc
        | stop => exact List.mem_singleton.1 hc ▸ hs
        | failed =>
          rcases List.mem_cons.1 hc with rfl | hc
          · exact hs
          · exact ih honce hrest hs hc
    · exact ih honce hrest hs hc

/-- What is reported after calling checks was reported before or in one of the calls. -/
theorem reports_of_callChecks {d : Diagnostic}
    (h : d ∈ (callChecks plan moment point i slots j s).2.1.report.diagnostics) :
    d ∈ j.report.diagnostics ∨ ∃ c ∈ callsOf plan moment point i slots j s, c.Reports d := by
  induction slots generalizing j s with
  | nil => exact .inl h
  | cons slot rest ih =>
    rw [callChecks] at h
    rw [callsOf]
    split
    · next hcalled =>
      rw [if_pos hcalled] at h
      generalize hcall : (⟨slot.check, moment, ⟨slot.check.rule, point, i, plan.setting.semantics⟩,
        s, j⟩ : HookCall) = call
      have hanswer : call.answer = slot.check.hook moment
          ⟨slot.check.rule, point, i, plan.setting.semantics⟩ s j := hcall ▸ rfl
      have hjournal : call.journal = j := hcall ▸ rfl
      dsimp only at h ⊢
      rw [← hanswer] at h
      -- a diagnostic that is there after the call was there before it, or the call reports it
      have hfirst : d ∈ call.answer.2.report.diagnostics →
          d ∈ j.report.diagnostics ∨ call.Reports d := by
        intro hd
        by_cases hold : d ∈ j.report.diagnostics
        · exact .inl hold
        · exact .inr ⟨hjournal ▸ hold, hd⟩
      cases hverdict : call.answer with
      | mk verdict j' =>
        rw [hverdict] at h hfirst
        have hlater : ∀ {t : State},
            d ∈ (callChecks plan moment point i rest j' t).2.1.report.diagnostics →
            d ∈ j.report.diagnostics ∨
              ∃ c ∈ call :: callsOf plan moment point i rest j' t, c.Reports d := by
          intro t hd
          rcases ih hd with hd | ⟨c, hc, hreports⟩
          · exact (hfirst hd).imp_right fun hreports => ⟨call, List.mem_cons_self, hreports⟩
          · exact .inr ⟨c, List.mem_cons_of_mem _ hc, hreports⟩
        cases verdict with
        | goOn t => exact hlater h
        | stop => exact (hfirst h).imp_right fun hreports => ⟨call, List.mem_cons_self, hreports⟩
        | failed => exact hlater h
    · next hcalled =>
      rw [if_neg hcalled] at h
      exact ih h

/-- What a step does to the checks, and which of them it calls. -/
theorem step_calls (plan : Plan) (run : Run) (point : Point) (i : Instruction) (s : State) :
    ((run.step plan point i s).2.slots =
          (callChecks plan .before point i run.slots run.journal s).1 ∧
        run.stepCalls plan point i s = callsOf plan .before point i run.slots run.journal s) ∨
      ∃ j t, (run.step plan point i s).2.slots = (callChecks plan .after point i
            (callChecks plan .before point i run.slots run.journal s).1 j t).1 ∧
        run.stepCalls plan point i s = callsOf plan .before point i run.slots run.journal s ++
          callsOf plan .after point i
            (callChecks plan .before point i run.slots run.journal s).1 j t := by
  unfold step stepCalls checked
  dsimp only
  generalize callChecks plan .before point i run.slots run.journal s = r
  obtain ⟨slots, j, result⟩ := r
  cases result with
  | none => exact .inl ⟨rfl, List.append_nil _⟩
  | some t => exact .inr ⟨j, _, rfl, rfl⟩

/-- What is reported after a step was reported before or in one of its calls. -/
theorem reports_of_step {d : Diagnostic}
    (h : d ∈ (run.step plan point i s).2.journal.report.diagnostics) :
    d ∈ run.journal.report.diagnostics ∨ ∃ c ∈ run.stepCalls plan point i s, c.Reports d := by
  unfold step checked at h
  unfold stepCalls checked
  dsimp only at h ⊢
  generalize hr : callChecks plan .before point i run.slots run.journal s = r at h ⊢
  obtain ⟨slots, j, result⟩ := r
  have hfirst : d ∈ j.report.diagnostics → ∀ later, d ∈ run.journal.report.diagnostics ∨
      ∃ c ∈ callsOf plan .before point i run.slots run.journal s ++ later, c.Reports d := by
    intro hd later
    have hcalled : d ∈ (callChecks plan .before point i run.slots run.journal
        s).2.1.report.diagnostics := by rwa [hr]
    exact (reports_of_callChecks hcalled).imp_right
      fun ⟨c, hc, hreports⟩ => ⟨c, List.mem_append_left _ hc, hreports⟩
  cases result with
  | none => exact hfirst h _
  | some t =>
    rcases reports_of_callChecks h with hd | ⟨c, hc, hreports⟩
    · exact hfirst hd _
    · exact .inr ⟨c, List.mem_append_right _ hc, hreports⟩

theorem step_checks (plan : Plan) (run : Run) (point : Point) (i : Instruction) (s : State) :
    (run.step plan point i s).2.slots.map Slot.check = run.slots.map Slot.check := by
  rcases step_calls plan run point i s with ⟨hslots, -⟩ | ⟨j, t, hslots, -⟩
  · rw [hslots, callChecks_checks]
  · rw [hslots, callChecks_checks, callChecks_checks]

/-- How often a rule stands among the checks depends on the checks alone. -/
theorem count_rule_eq {slots slots' : List Slot}
    (h : slots'.map Slot.check = slots.map Slot.check) :
    (slots'.map (·.check.rule)).count rule = (slots.map (·.check.rule)).count rule := by
  have hrules := congrArg (List.map Check.rule) h
  simp only [List.map_map] at hrules
  exact congrArg (List.count rule) hrules

/-- After a step a rule is silent if it was or if it failed. -/
theorem silent_step_iff (plan : Plan) (point : Point) (i : Instruction) (s : State)
    (hone : (run.slots.map (·.check.rule)).count rule ≤ 1) :
    Silent rule (run.step plan point i s).2.slots ↔
      Silent rule run.slots ∨ FailsIn rule (run.stepCalls plan point i s) := by
  have hbefore := silent_callChecks_iff plan .before point i hone run.journal s
  rcases step_calls plan run point i s with ⟨hslots, hcalls⟩ | ⟨j, t, hslots, hcalls⟩
  · rw [hslots, hcalls, hbefore]
  · have hone' := hone
    rw [← count_rule_eq (callChecks_checks plan .before point i run.slots run.journal s)] at hone'
    have hafter := silent_callChecks_iff plan .after point i hone' j t
    rw [hslots, hcalls, hafter, hbefore, failsIn_append, or_assoc]

/-- A failed call is the last one of its rule. -/
theorem lastIfFailed_stepCalls (plan : Plan) (point : Point) (i : Instruction) (s : State)
    (hone : (run.slots.map (·.check.rule)).count rule ≤ 1) :
    LastIfFailed rule (run.stepCalls plan point i s) := by
  have hbefore := lastIfFailed_callsOf plan .before point i hone run.journal s
  rcases step_calls plan run point i s with ⟨-, hcalls⟩ | ⟨j, t, -, hcalls⟩
  · exact hcalls ▸ hbefore
  · have hone' := hone
    rw [← count_rule_eq (callChecks_checks plan .before point i run.slots run.journal s)] at hone'
    have hafter := lastIfFailed_callsOf plan .after point i hone' j t
    rw [hcalls]
    refine List.pairwise_append.2 ⟨hbefore, hafter, fun a ha b hb hrule hfails => ?_⟩
    have hsilent := (silent_callChecks_iff plan .before point i hone run.journal s).2
      (.inr ⟨a, ha, hrule, hfails⟩)
    exact rule_ne_of_silent hsilent hb

/-- A step of a run in which a rule is silent does not call it. -/
theorem rule_ne_of_mem_stepCalls (hone : (run.slots.map (·.check.rule)).count rule ≤ 1)
    (h : Silent rule run.slots) {c : HookCall} (hc : c ∈ run.stepCalls plan point i s) :
    c.check.rule ≠ rule := by
  rcases step_calls plan run point i s with ⟨-, hcalls⟩ | ⟨j, t, -, hcalls⟩
  · exact rule_ne_of_silent h (hcalls ▸ hc)
  · rcases List.mem_append.1 (hcalls ▸ hc) with hc | hc
    · exact rule_ne_of_silent h hc
    · have hsilent := (silent_callChecks_iff plan .before point i hone run.journal s).2 (.inl h)
      exact rule_ne_of_silent hsilent hc

end Run

/-! ## The calls of a whole run -/

/-- As long as there are steps left, the instruction at hand decides which checks are called. -/
theorem Situation.calls_executing {plan : Plan} {run : Run} {point : Point} {i : Instruction}
    {rest : List Instruction} {s : State}
    (hbudget : run.statistics.steps < plan.settings.maxSteps) :
    calls plan ⟨run, .executing point (i :: rest) s⟩ =
      (run.count .countStep).stepCalls plan point i s := by
  have hwithin : ¬ plan.settings.maxSteps < (run.count .countStep).statistics.steps := by
    simp only [Run.count, Statistics.countStep]
    omega
  simp only [calls, if_neg hwithin]

/-- A move calls no check, or it executes an instruction. -/
theorem Move.calls_cases {plan : Plan} {x y : Situation} (h : Move plan x y) :
    (y.run.slots = x.run.slots ∧ x.calls plan = []) ∨
      ∃ point i s,
        y.run.slots = ((x.run.count .countStep).step plan point i s).2.slots ∧
          x.calls plan = (x.run.count .countStep).stepCalls plan point i s := by
  cases h with
  | take | finish | settle => exact .inl ⟨rfl, rfl⟩
  | prune hbudget hstep | raise hbudget hstep _ | proceed hbudget hstep _ =>
    exact .inr ⟨_, _, _, (congrArg (·.2.slots) hstep).symm,
      Situation.calls_executing hbudget⟩
  | @depart run d rest =>
    refine .inl ⟨?_, rfl⟩
    cases d with
    | blocked => rfl
    | into block s => exact (Run.enter_fields plan run block s).1

/-- Moves do not change which checks there are. -/
theorem Move.checks_eq {plan : Plan} {x y : Situation} (h : Move plan x y) :
    y.run.slots.map Slot.check = x.run.slots.map Slot.check := by
  rcases h.calls_cases with ⟨hslots, -⟩ | ⟨point, i, s, hslots, -⟩
  · rw [hslots]
  · rw [hslots, Run.step_checks]
    rfl

/-- The slots keep their checks. -/
theorem Reached.checks_eq {plan : Plan} {checks : List Check} {x : Situation}
    (h : Reached plan checks x) : x.run.slots.map Slot.check = checks := by
  induction h with
  | refl =>
    show (checks.map (Slot.mk · true)).map Slot.check = checks
    rw [List.map_map]
    exact List.map_id' checks
  | tail _ hmove ih => rw [hmove.checks_eq, ih]

/-- A rule stands among the checks of a run once at most. -/
def Situation.Single (rule : String) (x : Situation) : Prop :=
  (x.run.slots.map (·.check.rule)).count rule ≤ 1

namespace Situation

variable {plan : Plan} {x y : Situation} {rule : String}

theorem Single.move (h : x.Single rule) (hmove : Move plan x y) : y.Single rule := by
  unfold Single
  rwa [Run.count_rule_eq hmove.checks_eq]

/-- A rule becomes silent by a move exactly if its check fails in it. -/
theorem Single.silent_iff (h : x.Single rule) (hmove : Move plan x y) :
    Silent rule y.run.slots ↔ Silent rule x.run.slots ∨ FailsIn rule (x.calls plan) := by
  rcases hmove.calls_cases with ⟨hslots, hcalls⟩ | ⟨point, i, s, hslots, hcalls⟩
  · rw [hslots, hcalls]
    exact ⟨.inl, fun h => h.elim id fun ⟨c, hc, _⟩ => nomatch hc⟩
  · rw [hslots, hcalls]
    exact Run.silent_step_iff plan point i s h

/-- Where there is no next move, no check is called. -/
theorem calls_of_stuck (h : x.next plan = none) : x.calls plan = [] := by
  obtain ⟨run, stage⟩ := x
  cases stage with
  | idle | leaving => rfl
  | executing point instructions s =>
    cases instructions with
    | nil => rfl
    | cons i rest =>
      simp only [next] at h
      simp only [calls]
      split at h
      · next hbudget => rw [if_pos hbudget]
      · split at h
        · cases h
        · split at h <;> cases h

/-- The calls of a number of moves are those of the first one and those of the others. -/
theorem callsWithin_succ (plan : Plan) (x : Situation) (n : Nat) :
    x.callsWithin plan (n + 1) = [] ∨
      ∃ y, Move plan x y ∧ x.callsWithin plan (n + 1) = x.calls plan ++ y.callsWithin plan n := by
  rw [callsWithin]
  cases hnext : x.next plan with
  | none => exact .inl (by simp [calls_of_stuck hnext])
  | some y => exact .inr ⟨y, Move.iff_next.2 hnext, rfl⟩

/-- A silent rule is never called again. -/
theorem Single.rule_ne (h : x.Single rule) (hsilent : Silent rule x.run.slots) {n : Nat}
    {c : HookCall} (hc : c ∈ x.callsWithin plan n) : c.check.rule ≠ rule := by
  induction n generalizing x with
  | zero => cases hc
  | succ n ih =>
    rcases callsWithin_succ plan x n with hnil | ⟨y, hmove, hcalls⟩
    · rw [hnil] at hc
      cases hc
    · rw [hcalls] at hc
      rcases List.mem_append.1 hc with hc | hc
      · rcases hmove.calls_cases with ⟨-, hnil⟩ | ⟨point, i, s, -, hstep⟩
        · rw [hnil] at hc
          cases hc
        · rw [hstep] at hc
          have hone : ((x.run.count .countStep).slots.map (·.check.rule)).count rule ≤ 1 := h
          exact Run.rule_ne_of_mem_stepCalls hone hsilent hc
      · exact ih (h.move hmove) ((h.silent_iff hmove).2 (.inl hsilent)) hc

/-- Of a rule with one check at most, no call follows one that failed. -/
theorem Single.lastIfFailed (h : x.Single rule) (plan : Plan) (n : Nat) :
    LastIfFailed rule (x.callsWithin plan n) := by
  induction n generalizing x with
  | zero => exact .nil
  | succ n ih =>
    rcases callsWithin_succ plan x n with hnil | ⟨y, hmove, hcalls⟩
    · exact hnil ▸ .nil
    · have hrest := ih (h.move hmove)
      have hfirst : LastIfFailed rule (x.calls plan) := by
        rcases hmove.calls_cases with ⟨-, hnil⟩ | ⟨point, i, s, -, hstep⟩
        · exact hnil ▸ .nil
        · have hone : ((x.run.count .countStep).slots.map (·.check.rule)).count rule ≤ 1 := h
          exact hstep ▸ Run.lastIfFailed_stepCalls plan point i s hone
      rw [hcalls]
      refine List.pairwise_append.2 ⟨hfirst, hrest, fun a ha b hb hrule hfails => ?_⟩
      have hsilent := (h.silent_iff hmove).2 (.inr ⟨a, ha, hrule, hfails⟩)
      exact (h.move hmove).rule_ne hsilent hb

/-- After a number of moves a rule is silent exactly if it was before or its check has failed in
one of them. -/
theorem Single.silent_after_iff (h : x.Single rule) {n : Nat} (hafter : x.after plan n = some y) :
    Silent rule y.run.slots ↔ Silent rule x.run.slots ∨ FailsIn rule (x.callsWithin plan n) := by
  induction n generalizing x with
  | zero =>
    obtain rfl := Option.some.inj hafter
    exact ⟨.inl, fun h => h.elim id fun ⟨c, hc, _⟩ => nomatch hc⟩
  | succ n ih =>
    obtain ⟨z, hnext, hrest⟩ := Option.bind_eq_some_iff.1 hafter
    have hmove := Move.iff_next.2 hnext
    have hcalls : x.callsWithin plan (n + 1) = x.calls plan ++ z.callsWithin plan n := by
      rw [callsWithin, hnext]
      rfl
    rw [ih (h.move hmove) hrest, h.silent_iff hmove, hcalls, failsIn_append, or_assoc]

end Situation

end Pathwise
