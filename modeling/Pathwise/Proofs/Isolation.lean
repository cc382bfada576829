import Pathwise.Proofs.Calls
import Pathwise.Proofs.Lockstep
import Pathwise.Check.Script
import Pathwise.Proofs.Sample

/-!
# A failing check leaves no trace

A check that leaves alone what it is given, or fails, is inert. Two explorations that differ in an
inert check only, wherever it stands among the others, stay in step: the checks after it are given
what they would have been given without it, whether it is called, passed over, fails or has failed
before.
-/

namespace Pathwise

/-- Whenever the check is called it goes on with what it was given, or it fails; it says nothing. -/
def Check.Inert (c : Check) : Prop :=
  ∀ moment site s j, c.hook moment site s j = (.goOn s, j) ∨
    ∃ message, c.hook moment site s j = (.failed message, j)

/-- A list of checks arises from another one when a check is put in somewhere. -/
inductive Inserted (c : Check) : List Slot → List Slot → Prop where
  /-- It stands first. -/
  | here (enabled : Bool) (rest : List Slot) : Inserted c (⟨c, enabled⟩ :: rest) rest
  /-- It stands behind the first of the others. -/
  | there (slot : Slot) {longer shorter : List Slot} (h : Inserted c longer shorter) :
    Inserted c (slot :: longer) (slot :: shorter)

namespace Inserted

variable {c : Check} {longer shorter : List Slot}

theorem append (c : Check) (enabled : Bool) (before rest : List Slot) :
    Inserted c (before ++ ⟨c, enabled⟩ :: rest) (before ++ rest) := by
  induction before with
  | nil => exact .here enabled rest
  | cons slot before ih => exact .there slot ih

/-- Calling an inert check in between changes nothing for the others. -/
theorem callChecks (h : Inserted c longer shorter) (hc : c.Inert) (plan : Plan) (moment : Moment)
    (point : Point) (i : Instruction) (j : Journal) (s : State) :
    Inserted c (Run.callChecks plan moment point i longer j s).1
        (Run.callChecks plan moment point i shorter j s).1 ∧
      (Run.callChecks plan moment point i longer j s).2 =
        (Run.callChecks plan moment point i shorter j s).2 := by
  induction h generalizing j s with
  | here enabled rest =>
    rw [Run.callChecks]
    split
    · dsimp only
      rcases hc moment ⟨c.rule, point, i, plan.setting.semantics⟩ s j with hpass | ⟨message, hfail⟩
      · rw [hpass]
        exact ⟨.here enabled _, rfl⟩
      · rw [hfail]
        exact ⟨.here false _, rfl⟩
    · exact ⟨.here enabled _, rfl⟩
  | there slot h ih =>
    rw [Run.callChecks, Run.callChecks]
    split
    · dsimp only
      split
      · exact ⟨.there slot (ih _ _).1, (ih _ _).2⟩
      · exact ⟨.there slot h, rfl⟩
      · exact ⟨.there _ (ih _ _).1, (ih _ _).2⟩
    · exact ⟨.there slot (ih j s).1, (ih j s).2⟩

/-- The rules of the other checks that are still called are the same. -/
theorem enabledRules (h : Inserted c longer shorter)
    (hown : ∀ slot ∈ shorter, slot.check.rule ≠ c.rule) :
    ((longer.filter (·.enabled)).map (·.check.rule)).filter (· != c.rule) =
      (shorter.filter (·.enabled)).map (·.check.rule) := by
  induction h with
  | here enabled rest =>
    have hrest : ((rest.filter (·.enabled)).map (·.check.rule)).filter (· != c.rule) =
        (rest.filter (·.enabled)).map (·.check.rule) := by
      refine List.filter_eq_self.2 fun rule hrule => ?_
      obtain ⟨slot, hslot, rfl⟩ := List.mem_map.1 hrule
      simpa using hown slot (List.mem_filter.1 hslot).1
    cases enabled <;> simp [hrest]
  | @there slot longer shorter _ ih =>
    have hslot : slot.check.rule ≠ c.rule := hown slot List.mem_cons_self
    have hrest := ih fun other hother => hown other (List.mem_cons_of_mem _ hother)
    cases henabled : slot.enabled with
    | false => simpa [henabled] using hrest
    | true => simpa [henabled, hslot] using hrest

theorem count_rule (h : Inserted c longer shorter)
    (hown : ∀ slot ∈ shorter, slot.check.rule ≠ c.rule) :
    (longer.map (·.check.rule)).count c.rule = 1 := by
  induction h with
  | here enabled rest =>
    have hrest : c.rule ∉ rest.map (·.check.rule) := by
      intro hmem
      obtain ⟨slot, hslot, hrule⟩ := List.mem_map.1 hmem
      exact hown slot hslot hrule
    simp [List.count_eq_zero.2 hrest]
  | there slot _ ih =>
    have hslot : slot.check.rule ≠ c.rule := hown slot List.mem_cons_self
    have hrest := ih fun other hother => hown other (List.mem_cons_of_mem _ hother)
    simp [hslot, hrest]

end Inserted

/-! ## The two explorations -/

/-- The run with other checks. -/
def Run.withSlots (run : Run) (slots : List Slot) : Run := { run with slots := slots }

namespace Run

variable {c : Check} {slots : List Slot}

theorem meet_withSlots (run : Run) (slots : List Slot) (node : Node) :
    (run.withSlots slots).meet node = (run.meet node).withSlots slots := by
  unfold meet
  dsimp only
  have hvisited : ∀ b f, (run.withSlots slots).hasVisited b f = run.hasVisited b f := fun _ _ => rfl
  rw [hvisited]
  split <;> rfl

/-- Arrivals do not depend on the checks. -/
theorem enter_withSlots (plan : Plan) (run : Run) (slots : List Slot) (block : Nat) (s : State) :
    (run.withSlots slots).enter plan block s = (run.enter plan block s).withSlots slots := by
  rw [enter_eq, enter_eq]
  exact meet_withSlots (run.counting plan block s) slots (run.arriving plan block s)

theorem depart_withSlots (plan : Plan) (run : Run) (slots : List Slot) (d : Departure) :
    (run.withSlots slots).depart plan d = (run.depart plan d).withSlots slots := by
  cases d with
  | blocked => rfl
  | into block s => exact enter_withSlots plan run slots block s

/-- The checks answer as they would without an inert check among them. -/
theorem checked_withSlots {run : Run} (hc : c.Inert) (h : Inserted c slots run.slots) (plan : Plan)
    (moment : Moment) (point : Point) (i : Instruction) (s : State) :
    ∃ slots', Inserted c slots' (run.checked plan moment point i s).2.slots ∧
      (run.withSlots slots).checked plan moment point i s =
        ((run.checked plan moment point i s).1,
          (run.checked plan moment point i s).2.withSlots slots') := by
  obtain ⟨hslots, hresult⟩ := h.callChecks hc plan moment point i run.journal s
  unfold checked withSlots
  dsimp only
  generalize callChecks plan moment point i slots run.journal s = r at hslots hresult
  obtain ⟨slots', rest⟩ := r
  obtain rfl : rest = (callChecks plan moment point i run.slots run.journal s).2 := hresult
  exact ⟨slots', hslots, rfl⟩

/-- A step with an inert check among the others is the step without it. -/
theorem step_withSlots {run : Run} (hc : c.Inert) (h : Inserted c slots run.slots) (plan : Plan)
    (point : Point) (i : Instruction) (s : State) :
    ∃ slots', Inserted c slots' (run.step plan point i s).2.slots ∧
      (run.withSlots slots).step plan point i s =
        ((run.step plan point i s).1, (run.step plan point i s).2.withSlots slots') := by
  obtain ⟨slots₁, hbefore, hchecked⟩ := checked_withSlots hc h plan .before point i s
  unfold step
  rw [hchecked]
  generalize run.checked plan .before point i s = r at hbefore
  obtain ⟨result, run₁⟩ := r
  cases result with
  | none => exact ⟨slots₁, hbefore, rfl⟩
  | some t =>
    have hslots : Inserted c slots₁
        { run₁ with supply := (plan.setting.execute i run₁.supply t).2 }.slots := hbefore
    exact checked_withSlots hc hslots plan .after point i (plan.setting.execute i run₁.supply t).1

end Run

/-- The one situation has an inert check more than the other. -/
def Situation.Besides (c : Check) (x y : Situation) : Prop :=
  ∃ slots, Inserted c slots y.run.slots ∧ x = ⟨y.run.withSlots slots, y.stage⟩

namespace Situation.Besides

variable {plan : Plan} {c : Check} {x y : Situation}

theorem next (hc : c.Inert) (h : Besides c x y) :
    Option.Rel (Besides c) (x.next plan) (y.next plan) := by
  obtain ⟨slots, hslots, rfl⟩ := h
  obtain ⟨run, stage⟩ := y
  cases stage with
  | idle =>
    simp only [Situation.next]
    change Option.Rel _ (if run.isCancelled plan then _ else _) _
    split
    · exact .none
    · change Option.Rel _ (run.worklist.pop?.map _) _
      cases run.worklist.pop? with
      | none => exact .none
      | some next => exact .some ⟨slots, hslots, rfl⟩
  | executing point instructions s =>
    cases instructions with
    | nil => exact .some ⟨slots, hslots, rfl⟩
    | cons i rest =>
      have hslots : Inserted c slots (run.count .countStep).slots := hslots
      obtain ⟨slots', hslots', hstep⟩ := Run.step_withSlots hc hslots plan point i s
      have hcount : (run.withSlots slots).count .countStep =
          (run.count .countStep).withSlots slots := rfl
      simp only [Situation.next, hcount]
      change Option.Rel _
        (if plan.settings.maxSteps < (run.count .countStep).statistics.steps then none else _) _
      split
      · exact .none
      · rw [hstep]
        generalize (run.count .countStep).step plan point i s = r at hslots'
        obtain ⟨result, run'⟩ := r
        cases result with
        | none => exact .some ⟨slots', hslots', rfl⟩
        | some t =>
          dsimp only
          split
          · exact .some ⟨slots', hslots', rfl⟩
          · exact .some ⟨slots', hslots', rfl⟩
  | leaving departures =>
    cases departures with
    | nil => exact .some ⟨slots, hslots, rfl⟩
    | cons d rest =>
      have hkept : (run.depart plan d).slots = run.slots := by
        cases d with
        | blocked => rfl
        | into block s => exact (Run.enter_fields plan run block s).1
      refine .some ⟨slots, hkept ▸ hslots, ?_⟩
      exact congrArg (Situation.mk · (.leaving rest)) (Run.depart_withSlots plan run slots d)

/-- An inert check more or less keeps two explorations in step. -/
theorem inStep (hc : c.Inert) (plan : Plan) : InStep plan plan (Besides c) := by
  refine ⟨rfl, rfl, ?_, ?_, fun h => h.next hc⟩
  · rintro _ y ⟨slots, -, rfl⟩
    exact ⟨rfl, rfl, rfl, rfl, rfl⟩
  · rintro _ y ⟨slots, -, rfl⟩
    exact .refl _

end Situation.Besides

/-- A rule is silent if it is not among those of the checks that are still called. -/
theorem Run.not_mem_enabledRules {run : Run} {rule : String} :
    rule ∉ run.enabledRules ↔ Silent rule run.slots := by
  unfold Run.enabledRules
  simp only [List.mem_map, List.mem_filter, not_exists, not_and, and_imp]
  refine forall₂_congr fun slot _ => ?_
  cases slot.enabled <;> simp

/-- An inert check leaves no trace in an exploration, wherever it stands: the exploration ends in
the same way, has counted the same, has reported the same, and the same other rules are still
called. Its own rule is called until it fails, and after that never again. -/
theorem inert_check_isolated {c : Check} {before rest : List Check} (hc : c.Inert)
    (hown : ∀ d ∈ before ++ rest, d.rule ≠ c.rule) (plan : Plan) :
    ((Run.start (before ++ c :: rest)).explore plan).1 =
        ((Run.start (before ++ rest)).explore plan).1 ∧
      ((Run.start (before ++ c :: rest)).explore plan).2.finalStatistics =
        ((Run.start (before ++ rest)).explore plan).2.finalStatistics ∧
      ((Run.start (before ++ c :: rest)).explore plan).2.diagnostics =
        ((Run.start (before ++ rest)).explore plan).2.diagnostics ∧
      ((Run.start (before ++ c :: rest)).explore plan).2.enabledRules.filter (· != c.rule) =
        ((Run.start (before ++ rest)).explore plan).2.enabledRules ∧
      ∀ n,
        LastIfFailed c.rule
            ((Situation.entering plan (.start (before ++ c :: rest))).callsWithin plan n) ∧
          ∀ x, (Situation.entering plan (.start (before ++ c :: rest))).after plan n = some x →
            (c.rule ∉ x.run.enabledRules ↔ FailsIn c.rule
              ((Situation.entering plan (.start (before ++ c :: rest))).callsWithin plan n)) := by
  have hslots : Inserted c (Run.start (before ++ c :: rest)).slots
      (Run.start (before ++ rest)).slots := by
    simpa [Run.start] using Inserted.append c true (before.map (⟨·, true⟩)) (rest.map (⟨·, true⟩))
  have hentering : Situation.Besides c (.entering plan (.start (before ++ c :: rest)))
      (.entering plan (.start (before ++ rest))) := ⟨_, hslots, rfl⟩
  obtain ⟨hstatus, x, y, ⟨⟨slots, hinserted, rfl⟩, -, hreached⟩, hx, hy, hstatistics⟩ :=
    ((Situation.Besides.inStep hc plan).reached (before ++ c :: rest) (before ++ rest)).explore
      ⟨hentering, .refl, .refl⟩
  have hothers : ∀ slot ∈ y.run.slots, slot.check.rule ≠ c.rule := by
    intro slot hslot
    refine hown slot.check ?_
    rw [← hreached.checks_eq]
    exact List.mem_map_of_mem hslot
  have hsingle : (Situation.entering plan (.start (before ++ c :: rest))).Single c.rule := by
    refine Nat.le_of_eq (hslots.count_rule fun slot hslot => ?_)
    obtain ⟨d, hd, rfl⟩ := List.mem_map.1 hslot
    exact hown d hd
  have hcalled :
      ¬ Silent c.rule (Situation.entering plan (.start (before ++ c :: rest))).run.slots := by
    intro hsilent
    have hmem : (⟨c, true⟩ : Slot) ∈ (Run.start (before ++ c :: rest)).slots :=
      List.mem_map_of_mem (List.mem_append_right _ List.mem_cons_self)
    cases hsilent ⟨c, true⟩ hmem rfl
  refine ⟨hstatus, ?_, ?_, ?_, fun n => ⟨hsingle.lastIfFailed plan n, fun z hz => ?_⟩⟩
  · unfold Run.finalStatistics
    rw [hstatistics, hx.supply, hy.supply]
    rfl
  · unfold Run.diagnostics
    rw [hx.journal, hy.journal]
    rfl
  · unfold Run.enabledRules
    rw [hx.slots, hy.slots]
    exact hinserted.enabledRules hothers
  · rw [Run.not_mem_enabledRules, hsingle.silent_after_iff hz]
    exact ⟨fun h => h.resolve_left hcalled, .inr⟩

/-- A script that fails where it is guarded to is inert. -/
theorem Script.inert_of_fail {x : Script} {message : String} (h : x.action = .fail message) :
    x.check.Inert := by
  have hhook : ∀ moment site s j, x.hook moment site s j = (.goOn s, j) ∨
      ∃ message, x.hook moment site s j = (.failed message, j) := by
    intro moment site s j
    unfold Script.hook
    split
    · rw [h]
      exact .inr ⟨message, rfl⟩
    · exact .inl rfl
  intro moment site s j
  cases moment with
  | before => exact hhook .before site s j
  | after => exact hhook .after site s j

namespace SecondRound

/-- The variable. -/
def x : Symbol := ⟨"x", .localVariable⟩

/-- What the nodes mean. -/
def semantics : Semantics where
  symbol n := if n.val ∈ [2, 3, 7, 8, 11] then some x else none
  typeOf _ := none
  method n := if n.val ∈ [9, 12] then some ⟨"T", "Dispose"⟩ else none
  constant _ := none

/-- As long as `x` is null it gets a new value; then it is disposed twice. -/
def blocks : List Block := [
  ⟨0, [⟨⟨1⟩, .literal .null, none⟩, ⟨⟨2⟩, .assign, none⟩]⟩,
  ⟨1, [⟨⟨3⟩, .identifier, none⟩, ⟨⟨4⟩, .literal .null, none⟩, ⟨⟨5⟩, .binary .equals, none⟩]⟩,
  ⟨2, [⟨⟨6⟩, .invocation [] false, none⟩, ⟨⟨7⟩, .assign, none⟩]⟩,
  ⟨3, [⟨⟨8⟩, .identifier, none⟩, ⟨⟨9⟩, .invocation [] true, none⟩, ⟨⟨10⟩, .pop, none⟩,
    ⟨⟨11⟩, .identifier, none⟩, ⟨⟨12⟩, .invocation [] true, none⟩, ⟨⟨13⟩, .pop, none⟩]⟩]

/-- The edges between the blocks. -/
def edges : List FlowEdge :=
  [⟨0, 1, .jump⟩, ⟨1, 2, .whenTrue⟩, ⟨1, 3, .whenFalse⟩, ⟨2, 1, .jump⟩]

/-- Loops are widened when they are entered for the second time. -/
def sample : Sample := ⟨[], semantics, blocks, edges, 1⟩

/-- A check that fails in the second round of the loop. -/
def failing : Script :=
  ⟨"T1", .fail "no", [.before, .after], { Guard.anywhere with block := some 1, visits := some 2 },
    .all⟩

end SecondRound

/-- The check fails in the middle of the exploration; the repeated disposal behind the loop is
reported as it is without the check. -/
theorem inert_check_isolated_secondRound :
    SecondRound.failing.check.Inert ∧
      (∀ d ∈ [Rule.weakSalt] ++ [Rule.nullDereference, Rule.repeatedDispose],
        d.rule ≠ SecondRound.failing.check.rule) ∧
      ((Run.start [Rule.weakSalt, SecondRound.failing.check, Rule.nullDereference,
          Rule.repeatedDispose]).explore SecondRound.sample.plan).1 = .completed ∧
      ((Run.start [Rule.weakSalt, SecondRound.failing.check, Rule.nullDereference,
          Rule.repeatedDispose]).explore SecondRound.sample.plan).2.diagnostics.map (·.rule) =
        [Rule.repeatedDisposeId] ∧
      ((Run.start [Rule.weakSalt, SecondRound.failing.check, Rule.nullDereference,
          Rule.repeatedDispose]).explore SecondRound.sample.plan).2.enabledRules =
        [Rule.weakSaltId, Rule.nullDereferenceId, Rule.repeatedDisposeId] := by
  have hinert : SecondRound.failing.check.Inert := Script.inert_of_fail rfl
  have hown : ∀ d ∈ [Rule.weakSalt] ++ [Rule.nullDereference, Rule.repeatedDispose],
      d.rule ≠ SecondRound.failing.check.rule := by decide +kernel
  have hwithout :
      ((Run.start ([Rule.weakSalt] ++ [Rule.nullDereference, Rule.repeatedDispose])).explore
          SecondRound.sample.plan).1 = .completed ∧
        ((Run.start ([Rule.weakSalt] ++ [Rule.nullDereference, Rule.repeatedDispose])).explore
          SecondRound.sample.plan).2.diagnostics.map (·.rule) = [Rule.repeatedDisposeId] := by
    decide +kernel
  obtain ⟨hstatus, -, hdiagnostics, -⟩ := inert_check_isolated hinert hown SecondRound.sample.plan
  refine ⟨hinert, hown, hstatus.trans hwithout.1, ?_, by decide +kernel⟩
  exact (congrArg (List.map Diagnostic.rule) hdiagnostics).trans hwithout.2

end Pathwise
