import Pathwise.Proofs.Ending
import Pathwise.Proofs.Lockstep

/-!
# Bounds matter only when they are hit

A run has two bounds: how many instructions it executes, and how often a loop header is entered
before the state is widened there. Hitting the first ends the run with one step more than allowed,
hitting the second shows in the number of widenings. A completed run is the same, move by move,
under all bounds that it does not hit.
-/

namespace Pathwise

/-! ## Where an exploration ends -/

/-- What an exploration comes to in a situation from which there is no move. -/
inductive Concludes (plan : Plan) : Situation → Status → Run → Prop where
  /-- No node is left. -/
  | done {run : Run} (hpop : run.worklist.pop? = none) :
    Concludes plan ⟨run, .idle⟩ .completed run
  /-- A node is taken, but the run has been asked to end. -/
  | cancelled {run : Run} {node : Node} {rest : Queue Node}
    (hpop : run.worklist.pop? = some (node, rest)) (hcancelled : run.isCancelled plan = true) :
    Concludes plan ⟨run, .idle⟩ (.incomplete .cancelled) (run.taking rest)
  /-- An instruction is left, but no step. -/
  | exceeded {run : Run} {point : Point} {i : Instruction} {rest : List Instruction} {s : State}
    (hbudget : plan.settings.maxSteps ≤ run.statistics.steps) :
    Concludes plan ⟨run, .executing point (i :: rest) s⟩ (.incomplete .stepBudgetExceeded)
      (run.count .countStep)

namespace Concludes

variable {plan : Plan} {checks : List Check} {x y : Situation} {status status' : Status}
  {run run' : Run}

/-- There is no move from where an exploration ends. -/
theorem not_move (h : Concludes plan x status run) : ¬Move plan x y := by
  intro hmove
  cases h with
  | done hpop =>
    cases hmove with
    | take _ hsome => simp [hpop] at hsome
  | cancelled _ hcancelled =>
    cases hmove with
    | take hgoesOn _ => simp [hcancelled] at hgoesOn
  | exceeded hbudget =>
    cases hmove with
    | prune hless _ | raise hless _ _ | proceed hless _ _ => omega

theorem unique (h : Concludes plan x status run) (h' : Concludes plan x status' run') :
    status = status' ∧ run = run' := by
  cases h with
  | done hpop =>
    cases h' with
    | done => exact ⟨rfl, rfl⟩
    | cancelled hsome _ => simp [hpop] at hsome
  | cancelled hsome _ =>
    cases h' with
    | done hpop => simp [hpop] at hsome
    | cancelled hpop _ =>
      obtain ⟨-, rfl⟩ := Prod.mk.inj (Option.some.inj (hsome.symm.trans hpop))
      exact ⟨rfl, rfl⟩
  | exceeded =>
    cases h' with
    | exceeded => exact ⟨rfl, rfl⟩

/-- Only one situation that is reached has no moves. -/
theorem eq_of_reached (hx : Reached plan checks x) (hy : Reached plan checks y)
    (h : Concludes plan x status run) (h' : Concludes plan y status' run') : x = y := by
  rcases hx.total hy with hleads | hleads
  · rcases hleads.cases_head with rfl | ⟨z, hmove, -⟩
    · rfl
    · exact absurd hmove h.not_move
  · rcases hleads.cases_head with rfl | ⟨z, hmove, -⟩
    · rfl
    · exact absurd hmove h'.not_move

/-- Work that stops before it is done has no step left. -/
theorem of_stuck (hbusy : x.stage ≠ .idle) (hstuck : x.next plan = none) :
    Concludes plan x (.incomplete .stepBudgetExceeded) (x.run.count .countStep) := by
  obtain ⟨run, stage⟩ := x
  cases stage with
  | idle => exact absurd rfl hbusy
  | leaving departures => cases departures <;> cases hstuck
  | executing point instructions s =>
    cases instructions with
    | nil => cases hstuck
    | cons i rest =>
      simp only [Situation.next] at hstuck
      split at hstuck
      · next hbudget =>
        refine .exceeded ?_
        simp only [Run.count, Statistics.countStep] at hbudget
        omega
      · split at hstuck
        · cases hstuck
        · split at hstuck <;> cases hstuck

/-- What turn after turn comes to is what a situation without moves comes to. -/
theorem of_ends {n : Nat} (hplan : plan.Charted) (hrun : Reached plan checks ⟨run, .idle⟩)
    (h : Run.Ends plan n run status run') :
    ∃ x, Reached plan checks x ∧ Concludes plan x status run' := by
  induction h with
  | stop hturn =>
    cases Run.turned hturn with
    | done hpop => exact ⟨_, hrun, .done hpop⟩
    | cancelled hpop hcancelled => exact ⟨_, hrun, .cancelled hpop hcancelled⟩
    | @exceeded node rest _ hpop hcancelled hprocess =>
      have htaken := hrun.move (.take hcancelled hpop)
      obtain ⟨z, hworks, hbusy, hstuck, rfl⟩ := Works.process_exceeded hprocess
      exact ⟨z, htaken.trans hworks.leads, of_stuck hbusy hstuck⟩
    | failed => exact absurd (Run.turn_ended hplan hrun.placed hturn) (by simp [Status.Ended])
  | turn hturn _ ih => exact ih (hrun.trans (Leads.turn hturn))

variable {p : Procedure} {x : Setting} {settings : Settings} {polls : Option Polls}

/-- Every exploration gets to a situation without moves. -/
theorem exists_reached (hplan : plan.Prepared p x settings polls) (hbuilt : p.flow.Built)
    (checks : List Check) :
    ∃ y, Reached plan checks y ∧ Concludes plan y ((Run.start checks).explore plan).1
      ((Run.start checks).explore plan).2 := by
  obtain ⟨n, hends⟩ := Run.explore_ends hplan hbuilt (Run.Resumed.start.tidy hplan hbuilt)
  have hbegin : Reached plan checks ⟨(Run.start checks).begin plan, .idle⟩ :=
    (Works.leaving plan _ _).leads
  exact of_ends (hplan.charted hbuilt) hbegin hends

/-- An exploration comes to what the situation without moves that it reaches comes to. -/
theorem explore_eq (hplan : plan.Prepared p x settings polls) (hbuilt : p.flow.Built)
    {y : Situation} (hy : Reached plan checks y) (h : Concludes plan y status run) :
    (Run.start checks).explore plan = (status, run) := by
  obtain ⟨z, hz, hconcludes⟩ := exists_reached hplan hbuilt checks
  obtain rfl := eq_of_reached hy hz h hconcludes
  obtain ⟨hstatus, hrun⟩ := h.unique hconcludes
  exact Prod.ext hstatus.symm hrun.symm

end Concludes

/-! ## The counters -/

/-- An arrival is counted as a widening exactly if it is one. -/
theorem Run.widenings_enter (plan : Plan) (run : Run) (block : Nat) (s : State) :
    (run.enter plan block s).statistics.widenings =
      run.statistics.widenings + if Widens plan run block then 1 else 0 := by
  have hmeet : ∀ (r : Run) (node : Node),
      (r.meet node).statistics.widenings = r.statistics.widenings := by
    intro r node
    unfold meet
    dsimp only
    split <;> rfl
  rw [enter_eq, hmeet]
  simp only [counting]
  split <;> rfl

/-- No move takes back steps or widenings. -/
theorem Move.counts_le {plan : Plan} {x y : Situation} (h : Move plan x y) :
    x.run.statistics.steps ≤ y.run.statistics.steps ∧
      x.run.statistics.widenings ≤ y.run.statistics.widenings := by
  cases h with
  | take | finish | settle => exact ⟨Nat.le_refl _, Nat.le_refl _⟩
  | prune _ hstep | raise _ hstep _ | proceed _ hstep _ =>
    obtain ⟨-, -, -, hstatistics⟩ := Run.step_fields hstep
    simp [hstatistics, Run.count, Statistics.countStep, Statistics.countInfeasible]
  | @depart run d rest =>
    cases d with
    | blocked => exact ⟨Nat.le_refl _, Nat.le_refl _⟩
    | into block s =>
      have hsteps := Run.steps_depart plan run (.into block s)
      have hwidenings := Run.widenings_enter plan run block s
      exact ⟨Nat.le_of_eq hsteps.symm, hwidenings ▸ Nat.le_add_right _ _⟩

/-- A run that is still going has not executed more instructions than allowed. -/
theorem Reached.steps_le {plan : Plan} {checks : List Check} {x : Situation}
    (hx : Reached plan checks x) : x.run.statistics.steps ≤ plan.settings.maxSteps := by
  induction hx with
  | refl => exact Nat.zero_le _
  | tail _ hmove ih =>
    cases hmove with
    | take | finish | settle => exact ih
    | prune hbudget hstep | raise hbudget hstep _ | proceed hbudget hstep _ =>
      obtain ⟨-, -, -, hstatistics⟩ := Run.step_fields hstep
      simp only [hstatistics, Run.count, Statistics.countStep, Statistics.countInfeasible]
      exact hbudget
    | @depart run d rest => exact (Run.steps_depart plan run d).trans_le ih

/-! ## Moves under other bounds -/

/-- A run under some settings has not hit the bounds of others: it has executed no more
instructions than allowed, and whether it widens is decided in the same way or has not come up. -/
structure Run.Clears (settings settings' : Settings) (run : Run) : Prop where
  /-- There have been steps enough. -/
  steps : run.statistics.steps ≤ settings'.maxSteps
  /-- Loops are widened after as many visits, or they are widened later and none was. -/
  limit : settings.loopVisitLimit = settings'.loopVisitLimit ∨
    settings.loopVisitLimit ≤ settings'.loopVisitLimit ∧ run.statistics.widenings = 0

variable {plan : Plan} {settings settings' : Settings} {checks : List Check} {x y : Situation}

theorem Run.Clears.of_move (h : y.run.Clears settings settings') (hmove : Move plan x y) :
    x.run.Clears settings settings' := by
  obtain ⟨hsteps, hwidenings⟩ := hmove.counts_le
  refine ⟨hsteps.trans h.steps, h.limit.imp_right fun ⟨hle, hzero⟩ => ⟨hle, ?_⟩⟩
  omega

/-- Arrivals are the same if they are widened under both settings or under none. -/
theorem Run.enter_under {run : Run} {block : Nat}
    (h : Widens (plan.under settings) run block ↔ Widens (plan.under settings') run block)
    (s : State) :
    run.enter (plan.under settings) block s = run.enter (plan.under settings') block s := by
  rw [enter_eq, enter_eq]
  simp only [counting, arriving, h]
  rfl

/-- A run that has cleared the bounds after an arrival arrives in the same way under them. -/
theorem Run.Clears.enter_eq {run : Run} {block : Nat} {s : State}
    (h : (run.enter (plan.under settings) block s).Clears settings settings') :
    run.enter (plan.under settings) block s = run.enter (plan.under settings') block s := by
  refine enter_under ?_ s
  rcases h.limit with hlimit | ⟨hlimit, hzero⟩
  · simp only [Widens, Plan.under, hlimit]
  · -- no widening was counted, so not even the smaller limit was passed
    have hnot : ¬Widens (plan.under settings) run block := by
      intro hwidens
      rw [widenings_enter, if_pos hwidens] at hzero
      cases hzero
    refine ⟨fun hwidens => absurd hwidens hnot, fun hwidens => ⟨hwidens.1, ?_⟩⟩
    exact Nat.lt_of_le_of_lt hlimit hwidens.2

/-- A move under some settings is one under all settings whose bounds it does not hit. -/
theorem Move.under (h : Move (plan.under settings) x y)
    (hclears : y.run.Clears settings settings') :
    Move (plan.under settings') x y := by
  have hbudget : ∀ {run run' : Run} {point : Point} {i : Instruction} {s : State}
      {o : Option State}, (run.count .countStep).step (plan.under settings) point i s = (o, run') →
      run'.statistics.steps ≤ settings'.maxSteps →
      run.statistics.steps < (plan.under settings').settings.maxSteps ∧
        (run.count .countStep).step (plan.under settings') point i s = (o, run') := by
    intro run run' point i s o hstep hsteps
    obtain ⟨-, -, -, hstatistics⟩ := Run.step_fields hstep
    simp only [hstatistics, Run.count, Statistics.countStep] at hsteps
    refine ⟨hsteps, ?_⟩
    rw [← hstep]
    exact Run.step_congr point i (by rfl) _ s
  cases h with
  | take hcancelled hpop => exact .take hcancelled hpop
  | finish => exact .finish
  | prune _ hstep =>
    obtain ⟨hless, hsame⟩ := hbudget hstep hclears.steps
    exact .prune hless hsame
  | raise _ hstep hraise =>
    obtain ⟨hless, hsame⟩ := hbudget hstep hclears.steps
    exact .raise hless hsame hraise
  | proceed _ hstep hraise =>
    obtain ⟨hless, hsame⟩ := hbudget hstep hclears.steps
    exact .proceed hless hsame hraise
  | @depart run d rest =>
    cases d with
    | blocked => exact .depart
    | into block s =>
      have hsame : run.depart (plan.under settings) (.into block s) =
        run.depart (plan.under settings') (.into block s) := Run.Clears.enter_eq hclears
      rw [hsame]
      exact .depart
  | settle => exact .settle

/-- What is reached without hitting the bounds of other settings is reached under them, too. -/
theorem Reached.under (hx : Reached (plan.under settings) checks x)
    (hclears : x.run.Clears settings settings') : Reached (plan.under settings') checks x := by
  induction hx with
  | refl => exact .refl
  | tail _ hmove ih =>
    have hbefore := ih (hclears.of_move hmove)
    exact hbefore.move (hmove.under hclears)

namespace Run

variable {p : Procedure} {x : Setting} {settings settings' : Settings} {polls : Option Polls}
  {plan : Plan} {run : Run}

/-- A completed exploration comes to the same under all bounds that it does not hit. -/
theorem explore_under (hplan : (plan.under settings').Prepared p x settings' polls)
    (hbuilt : p.flow.Built)
    (h : (start checks).explore (plan.under settings) = (.completed, run))
    (hclears : run.Clears settings settings') :
    (start checks).explore (plan.under settings') = (.completed, run) := by
  obtain ⟨hreached, hpop⟩ := Reached.of_completed h
  have hend : Reached (plan.under settings') checks ⟨run, .idle⟩ := hreached.under hclears
  exact Concludes.explore_eq hplan hbuilt hend (.done hpop)

/-- An exploration is given up for want of steps exactly if it has counted one step more than
allowed; otherwise it has counted no more. -/
theorem explore_steps (hplan : plan.Prepared p x settings polls) (hbuilt : p.flow.Built)
    (checks : List Check) :
    (((start checks).explore plan).1 = .incomplete .stepBudgetExceeded ↔
        ((start checks).explore plan).2.statistics.steps = plan.settings.maxSteps + 1) ∧
      (((start checks).explore plan).1 = .completed →
        ((start checks).explore plan).2.statistics.steps ≤ plan.settings.maxSteps) := by
  obtain ⟨y, hy, hconcludes⟩ := Concludes.exists_reached hplan hbuilt checks
  have hle := hy.steps_le
  generalize (start checks).explore plan = r at hconcludes
  obtain ⟨status, run⟩ := r
  cases hconcludes with
  | done =>
    refine ⟨⟨(nomatch ·), fun hsteps => ?_⟩, fun _ => hle⟩
    dsimp only at hle hsteps
    omega
  | cancelled =>
    refine ⟨⟨(nomatch ·), fun hsteps => ?_⟩, (nomatch ·)⟩
    dsimp only [taking] at hle hsteps
    omega
  | exceeded hbudget =>
    have hall := Nat.le_antisymm hle hbudget
    exact ⟨⟨fun _ => congrArg (· + 1) hall, fun _ => rfl⟩, (nomatch ·)⟩

end Run

/-! ## Analyses under other bounds -/

/-- The same settings with other bounds. -/
def Settings.bounded (s : Settings) (loopVisitLimit maxSteps : Nat) : Settings :=
  { s with loopVisitLimit, maxSteps }

namespace Analysis

/-- The same analysis with other bounds. -/
def bounded (a : Analysis) (loopVisitLimit maxSteps : Nat) : Analysis :=
  { a with settings := a.settings.bounded loopVisitLimit maxSteps }

/-- What an analysis tells of an exploration. -/
def told (p : Procedure) (r : Status × Run) : Exploration :=
  ⟨p.name, r.1, r.2.finalStatistics, deliverable r.1 r.2.diagnostics⟩

/-- The bounds decide neither which checks there are nor what is explored. -/
theorem exploration_bounded (a : Analysis) (p : Procedure) (sink : Sink) (polls : Option Polls)
    (limit maxSteps : Nat) :
    ((a.bounded limit maxSteps).analyse p sink polls).exploration =
      match Plan.prepare p ⟨a.semantics, .standard⟩ a.settings polls with
      | .error e => ⟨p.name, .skipped e.message, .zero, []⟩
      | .ok plan => told p ((Run.start (a.registry.enabled a.settings sink)).explore
          (plan.under (a.settings.bounded limit maxSteps))) := by
  unfold analyse
  have hprepare := Plan.prepare_under p ⟨a.semantics, .standard⟩ a.settings
    (a.settings.bounded limit maxSteps) polls
  simp only [bounded]
  rw [hprepare]
  cases Plan.prepare p ⟨a.semantics, .standard⟩ a.settings polls <;> rfl

variable {p : Procedure} {a : Analysis} {sink : Sink} {polls : Option Polls} {r : Exploration}
  {limit limit' m m' : Nat}

/-- A plan that was made for an analysis is made for it under other bounds, too. -/
theorem prepared_bounded {plan : Plan}
    (h : Plan.prepare p ⟨a.semantics, .standard⟩ a.settings polls = .ok plan) (limit m : Nat) :
    (plan.under (a.settings.bounded limit m)).Prepared p ⟨a.semantics, .standard⟩
      (a.settings.bounded limit m) polls := by
  have hprepare := Plan.prepare_under p ⟨a.semantics, .standard⟩ a.settings
    (a.settings.bounded limit m) polls
  rw [h] at hprepare
  exact Plan.prepared hprepare

/-- A completed analysis is the same under all bounds that it does not hit. -/
theorem exploration_of_unhit (hbuilt : p.flow.Built)
    (hr : ((a.bounded limit m).analyse p sink polls).exploration = r)
    (hcompleted : r.status = .completed) (hsteps : r.statistics.steps ≤ m')
    (hlimit : limit = limit' ∨ limit ≤ limit' ∧ r.statistics.widenings = 0) :
    ((a.bounded limit' m').analyse p sink polls).exploration = r := by
  rw [exploration_bounded] at hr ⊢
  cases hplan : Plan.prepare p ⟨a.semantics, .standard⟩ a.settings polls with
  | error e =>
    rw [hplan] at hr
    exact hr
  | ok plan =>
    rw [hplan] at hr
    obtain rfl := hr
    have hexplore : (Run.start (a.registry.enabled a.settings sink)).explore
        (plan.under (a.settings.bounded limit m)) = (.completed, _) := Prod.ext hcompleted rfl
    have hclears : Run.Clears (a.settings.bounded limit m) (a.settings.bounded limit' m')
        ((Run.start (a.registry.enabled a.settings sink)).explore
          (plan.under (a.settings.bounded limit m))).2 := ⟨hsteps, hlimit⟩
    have hsame := Run.explore_under (prepared_bounded hplan limit' m') hbuilt hexplore hclears
    exact congrArg (told p) (hsame.trans hexplore.symm)

/-- An analysis is given up for want of steps exactly if it has counted one step more than
allowed, and a completed one has counted no more than allowed. -/
theorem exploration_steps (hbuilt : p.flow.Built)
    (hr : ((a.bounded limit m).analyse p sink polls).exploration = r) :
    (r.status = .incomplete .stepBudgetExceeded ↔ r.statistics.steps = m + 1) ∧
      (r.status = .completed → r.statistics.steps ≤ m) := by
  rw [exploration_bounded] at hr
  cases hplan : Plan.prepare p ⟨a.semantics, .standard⟩ a.settings polls with
  | error e =>
    rw [hplan] at hr
    obtain rfl := hr
    simp [Statistics.zero]
  | ok plan =>
    rw [hplan] at hr
    obtain rfl := hr
    exact Run.explore_steps (prepared_bounded hplan limit m) hbuilt _

end Analysis

/-- Bounds matter only when they are hit. An analysis that is completed is the same with every
larger number of steps, and with every smaller one that is large enough for the steps it took; it
is given up for want of steps exactly if it has counted one more than allowed; and if it is
completed without a widening, it is the same with every larger limit on the visits of headers. -/
theorem bounds_matter_only_when_hit {p : Procedure} (hbuilt : p.flow.Built) (a : Analysis)
    (sink : Sink) (polls : Option Polls) :
    let result := fun limit maxSteps =>
      ((a.bounded limit maxSteps).analyse p sink polls).exploration
    (∀ limit m m', m ≤ m' → (result limit m).status = .completed →
        result limit m' = result limit m) ∧
      (∀ limit m m', (result limit m').status = .completed →
        (result limit m').statistics.steps ≤ m → result limit m = result limit m') ∧
      (∀ limit m, (result limit m).status = .incomplete .stepBudgetExceeded ↔
        (result limit m).statistics.steps = m + 1) ∧
      ∀ limit limit' m, limit ≤ limit' → (result limit m).status = .completed →
        (result limit m).statistics.widenings = 0 → result limit' m = result limit m := by
  intro result
  have hwithin : ∀ {limit m}, (result limit m).status = .completed →
      (result limit m).statistics.steps ≤ m :=
    (Analysis.exploration_steps hbuilt rfl).2
  refine ⟨?_, ?_, ?_, ?_⟩
  · intro limit m m' hle hcompleted
    have hsteps := (hwithin hcompleted).trans hle
    exact Analysis.exploration_of_unhit hbuilt rfl hcompleted hsteps (.inl rfl)
  · intro limit m m' hcompleted hsteps
    exact Analysis.exploration_of_unhit hbuilt rfl hcompleted hsteps (.inl rfl)
  · exact fun limit m => (Analysis.exploration_steps hbuilt rfl).1
  · intro limit limit' m hle hcompleted hzero
    have hsteps := hwithin hcompleted
    exact Analysis.exploration_of_unhit hbuilt rfl hcompleted hsteps (.inr ⟨hle, hzero⟩)

namespace AskedAgain

/-- The parameter. -/
def p : Symbol := ⟨"p", .parameter⟩

/-- The variable. -/
def found : Symbol := ⟨"found", .localVariable⟩

/-- What the nodes mean. -/
def semantics : Semantics where
  symbol n := if n.val ∈ [2, 4, 8] then some found else if n.val = 5 then some p else none
  typeOf _ := none
  method _ := none
  constant _ := none

/-- As long as `p` is null, `found` becomes null; afterwards it is dereferenced. -/
def blocks : List Block := [
  ⟨0, [⟨⟨1⟩, .literal .null, none⟩, ⟨⟨2⟩, .assign, none⟩]⟩,
  ⟨1, [⟨⟨3⟩, .literal .null, none⟩, ⟨⟨4⟩, .assign, none⟩, ⟨⟨5⟩, .identifier, none⟩,
    ⟨⟨6⟩, .literal .null, none⟩, ⟨⟨7⟩, .binary .equals, none⟩]⟩,
  ⟨2, [⟨⟨8⟩, .identifier, none⟩, ⟨⟨9⟩, .memberAccess, none⟩, ⟨⟨10⟩, .pop, none⟩]⟩]

/-- The loop has one block. -/
def edges : List FlowEdge := [⟨0, 1, .jump⟩, ⟨1, 1, .whenTrue⟩, ⟨1, 2, .whenFalse⟩]

/-- The limit of the sample is replaced by others. -/
def sample : Sample := ⟨[p], semantics, blocks, edges, 1⟩

/-- The result with given bounds. -/
def result (limit maxSteps : Nat) : Exploration :=
  ((Analysis.bounded ⟨semantics, .standard, sample.settings⟩ limit maxSteps).analyse
    sample.procedure (.withDisabled []) none).exploration

theorem result_three_hundred :
    (result 3 100).status = .completed ∧ (result 3 100).statistics.steps = 14 ∧
      (result 3 100).statistics.widenings = 0 := by
  decide +kernel

end AskedAgain

open AskedAgain in
/-- The loop is entered three times, and the dereference behind it is reported after 14 steps. With
fewer steps the analysis is given up, with a lower limit it widens, and other bounds change
nothing. -/
theorem bounds_matter_only_when_hit_askedAgain :
    sample.procedure.flow.Built ∧ (result 3 100).status = .completed ∧
      (∀ m', 100 ≤ m' → result 3 m' = result 3 100) ∧ result 3 14 = result 3 100 ∧
      (result 3 13).status = .incomplete .stepBudgetExceeded ∧
      (∀ limit', 3 ≤ limit' → result limit' 100 = result 3 100) ∧
      (result 2 100).statistics.widenings = 2 := by
  have hbuilt := sample.built
  obtain ⟨hcompleted, hsteps, hzero⟩ := result_three_hundred
  obtain ⟨hmore, hless, hexceeded, hlimit⟩ := bounds_matter_only_when_hit hbuilt
    ⟨semantics, .standard, sample.settings⟩ (.withDisabled []) none
  beta_reduce at hmore hless hexceeded hlimit
  refine ⟨hbuilt, hcompleted, ?_, ?_, ?_, ?_, by decide +kernel⟩ <;> unfold result at *
  · exact fun m' hle => hmore 3 100 m' hle hcompleted
  · exact hless 3 14 100 hcompleted (le_of_eq hsteps)
  · exact (hexceeded 3 13).2 (by decide +kernel)
  · exact fun limit' hle => hlimit 3 limit' 100 hle hcompleted hzero

end Pathwise
