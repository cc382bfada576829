import Pathwise.Proofs.Situation

/-!
# Two explorations in step

Two explorations are in step if a relation between their situations is kept move by move: what one
does is answered by the other, and where one is stuck so is the other. Then they take the same
turns, end in the same way, and what they come to is still related. Nothing else is asked of the
two, so that what tells them apart (a check more, a fact more in every state) is a matter of the
relation alone. An exploration that is in step with itself is found to end in what it has reached.
-/

namespace Pathwise

/-! ## Where work on a node ends -/

/-- No more work is done in a situation: the run is about to take a node, or there is no move. -/
def Situation.Rests (plan : Plan) (x : Situation) : Prop := x.stage = .idle ∨ x.next plan = none

namespace Works

variable {plan : Plan} {run run' : Run} {x y z : Situation}

/-- There is one situation at most in which work comes to rest. -/
theorem rests_unique (hy : Works plan x y) (hz : Works plan x z) (hyrest : y.Rests plan)
    (hzrest : z.Rests plan) : y = z := by
  have hdone : ∀ {a b : Situation}, a.Rests plan → Works plan a b → a = b := by
    intro a b ha hab
    rcases hab.cases_head with rfl | ⟨c, ⟨hbusy, hmove⟩, -⟩
    · rfl
    · rcases ha with hidle | hstuck
      · exact absurd hidle hbusy
      · simp [Move.iff_next.1 hmove] at hstuck
  have hunique : Relator.RightUnique fun a b => a.stage ≠ .idle ∧ Move plan a b :=
    fun _ _ _ hb hc => hb.2.unique hc.2
  rcases Relation.ReflTransGen.total_of_right_unique hunique hy hz with h | h
  · exact hdone hyrest h
  · exact (hdone hzrest h).symm

/-- When the steps run out, work stops before the instruction for which there is none. -/
theorem exceeded {point : Point} {rest : List Instruction} {s : State}
    (h : Run.executeAll plan point rest run s = (.exceeded, run')) :
    ∃ z, Works plan ⟨run, .executing point rest s⟩ z ∧ z.stage ≠ .idle ∧ z.next plan = none ∧
      run' = z.run.count .countStep := by
  induction rest generalizing point run s with
  | nil => cases h
  | cons i rest ih =>
    rw [Run.executeAll] at h
    split at h
    · next hbudget =>
      obtain ⟨-, rfl⟩ := Prod.mk.inj h
      exact ⟨_, .refl, by simp, by simp only [Situation.next, if_pos hbudget], rfl⟩
    · next hbudget =>
      have hbudget : run.statistics.steps < plan.settings.maxSteps := by
        simp only [Run.count, Statistics.countStep] at hbudget
        omega
      split at h
      · cases h
      · next hstep =>
        split at h
        · cases h
        · next hraise =>
          obtain ⟨z, hz, hrest⟩ := ih h
          exact ⟨z, head (by simp) (.proceed hbudget hstep hraise) hz, hrest⟩

/-- The exploration of a node that runs out of steps stops before the instruction for which there is
none. -/
theorem process_exceeded {node : Node} (h : run.process plan node = (.ok false, run')) :
    ∃ z, Works plan (.exploring plan run node) z ∧ z.stage ≠ .idle ∧ z.next plan = none ∧
      run' = z.run.count .countStep := by
  rcases hall : Run.executeAll plan node.point
    ((plan.instructions node.point.block).drop node.point.offset) run node.state with ⟨e, last⟩
  rw [Run.process_eq hall] at h
  cases e with
  | exceeded =>
    obtain ⟨-, rfl⟩ := Prod.mk.inj h
    exact exceeded hall
  | pruned => cases h
  | raised | reached =>
    -- that edges have been found or not is no want of steps
    cases hways : plan.procedure.flow.waysOut node.point.block <;>
      simp [Run.conclude, hways, Except.map] at h

end Works

/-! ## Relations that keep two explorations in step -/

/-- What a run has to show in the end is what it had to show in an earlier state. -/
structure Run.Shows (earlier last : Run) : Prop where
  /-- The same checks are still called. -/
  slots : last.slots = earlier.slots
  /-- The outside world has been told the same. -/
  journal : last.journal = earlier.journal
  /-- The same values have been made. -/
  supply : last.supply = earlier.supply

/-- What two runs have in common while they are in step. -/
structure Run.Abreast (plan plan' : Plan) (run run' : Run) : Prop where
  /-- They have counted the same. -/
  statistics : run.statistics = run'.statistics
  /-- As many nodes can be reached through blocks without instructions. -/
  reach : run.reach plan = run'.reach plan'
  /-- Both have been asked to end, or neither. -/
  cancelled : run.isCancelled plan = run'.isCancelled plan'
  /-- A node waits in both, or in neither. -/
  waiting : run.worklist.pop?.isSome = run'.worklist.pop?.isSome
  /-- The next node is at a block without instructions in both, or in neither. -/
  free : run.nextIsFree plan = run'.nextIsFree plan'

/-- Two runs are about to do the same, in states that may differ. -/
inductive Stage.Alike : Stage → Stage → Prop where
  /-- Both are about to take a node. -/
  | idle : Alike .idle .idle
  /-- Both are about to execute the same instructions. -/
  | executing {point : Point} {rest : List Instruction} {s s' : State} :
    Alike (.executing point rest s) (.executing point rest s')
  /-- Both are about to let control depart. -/
  | leaving {departures departures' : List Departure} :
    Alike (.leaving departures) (.leaving departures')

namespace Stage.Alike

/-- A stage is alike to itself. -/
theorem refl (stage : Stage) : stage.Alike stage := by
  cases stage with
  | idle => exact .idle
  | executing => exact .executing
  | leaving => exact .leaving

/-- Of stages that are alike both take a node, or neither does. -/
theorem idle_iff {a b : Stage} (h : a.Alike b) : a = .idle ↔ b = .idle := by
  cases h <;> simp

/-- Stages that are alike are at the same point. -/
theorem point_eq {point point' : Point} {rest rest' : List Instruction} {s s' : State}
    (h : Alike (.executing point rest s) (.executing point' rest' s')) : point = point' := by
  cases h
  rfl

end Stage.Alike

/-- A relation between the situations of two explorations that is kept move by move. -/
structure InStep (plan plan' : Plan) (R : Situation → Situation → Prop) : Prop where
  /-- The same procedure is explored. -/
  procedure : plan.procedure = plan'.procedure
  /-- As many steps are allowed. -/
  maxSteps : plan.settings.maxSteps = plan'.settings.maxSteps
  /-- The two runs are abreast. -/
  abreast : ∀ {x y}, R x y → x.run.Abreast plan plan' y.run
  /-- They are about to do the same. -/
  stage : ∀ {x y}, R x y → x.stage.Alike y.stage
  /-- A move is answered by a move, and where the one is stuck, so is the other. -/
  next : ∀ {x y}, R x y → Option.Rel R (x.next plan) (y.next plan')

/-- Two runs have come to what related situations have to show, and have counted the same. -/
def Parted (R : Situation → Situation → Prop) (run run' : Run) : Prop :=
  ∃ x y, R x y ∧ x.run.Shows run ∧ y.run.Shows run' ∧ run.statistics = run'.statistics

/-- Two runs agree on whether they have ended: they are still in step, or they have come to what
related situations have to show. -/
inductive Agree (R : Situation → Situation → Prop) :
    Option Status × Run → Option Status × Run → Prop where
  /-- Both go on. -/
  | goOn {run run' : Run} (h : R ⟨run, .idle⟩ ⟨run', .idle⟩) : Agree R (none, run) (none, run')
  /-- Both have ended in the same way. -/
  | ended {status : Status} {run run' : Run} (h : Parted R run run') :
    Agree R (some status, run) (some status, run')

/-- Two nodes have been explored with the same result: too many instructions were executed, or the
two runs are still in step. -/
inductive Explored (R : Situation → Situation → Prop) :
    Except GraphError Bool × Run → Except GraphError Bool × Run → Prop where
  /-- Both runs have executed too many instructions. -/
  | exceeded {run run' : Run} (h : Parted R run run') :
    Explored R (.ok false, run) (.ok false, run')
  /-- Both are done with the node. -/
  | concluded {r : Except GraphError Bool} {run run' : Run} (h : R ⟨run, .idle⟩ ⟨run', .idle⟩) :
    Explored R (r, run) (r, run')

namespace InStep

variable {plan plan' : Plan} {R : Situation → Situation → Prop} {x y : Situation} {run run' : Run}

theorem move (h : InStep plan plan' R) (hR : R x y) {x' : Situation} (hmove : Move plan x x') :
    ∃ y', Move plan' y y' ∧ R x' y' := by
  have hnext := h.next hR
  rw [Move.iff_next.1 hmove] at hnext
  cases hy : y.next plan' with
  | none => simp [hy] at hnext
  | some y' => exact ⟨y', Move.iff_next.2 hy, by simpa [hy] using hnext⟩

theorem stuck (h : InStep plan plan' R) (hR : R x y) (hstuck : x.next plan = none) :
    y.next plan' = none := by
  have hnext := h.next hR
  rw [hstuck] at hnext
  cases hy : y.next plan' with
  | none => rfl
  | some y' => simp [hy] at hnext

/-- Runs in step have come to what they themselves have to show. -/
theorem parted (h : InStep plan plan' R) (hR : R x y) : Parted R x.run y.run :=
  ⟨x, y, hR, ⟨rfl, rfl, rfl⟩, ⟨rfl, rfl, rfl⟩, (h.abreast hR).statistics⟩

/-- Work is answered by work. -/
theorem works (h : InStep plan plan' R) (hR : R x y) {x' : Situation} (hworks : Works plan x x') :
    ∃ y', Works plan' y y' ∧ R x' y' := by
  induction hworks with
  | refl => exact ⟨y, .refl, hR⟩
  | tail _ hstep ih =>
    obtain ⟨z, hz, hRz⟩ := ih
    obtain ⟨y', hmove, hRy⟩ := h.move hRz hstep.2
    exact ⟨y', hz.tail ⟨fun hidle => hstep.1 ((h.stage hRz).idle_iff.2 hidle), hmove⟩, hRy⟩

/-- Runs that let control depart in step are in step when they have done so. -/
theorem leaving (h : InStep plan plan' R) {departures departures' : List Departure}
    (hR : R ⟨run, .leaving departures⟩ ⟨run', .leaving departures'⟩) :
    R ⟨departures.foldl (Run.depart plan) run, .idle⟩
      ⟨departures'.foldl (Run.depart plan') run', .idle⟩ := by
  obtain ⟨y, hy, hRy⟩ := h.works hR (Works.leaving plan _ _)
  obtain rfl := Works.rests_unique hy (Works.leaving plan' _ _)
    (.inl ((h.stage hRy).idle_iff.1 rfl)) (.inl rfl)
  exact hRy

/-- An instruction for which there is a step left, executed in step, ends both paths or neither. -/
theorem step (h : InStep plan plan' R) {point : Point} {i : Instruction} {rest : List Instruction}
    {s s' : State}
    (hR : R ⟨run, .executing point (i :: rest) s⟩ ⟨run', .executing point (i :: rest) s'⟩)
    (hbudget : ¬plan.settings.maxSteps < (run.count .countStep).statistics.steps)
    (hbudget' : ¬plan'.settings.maxSteps < (run'.count .countStep).statistics.steps) :
    (∃ last last', (run.count .countStep).step plan point i s = (none, last) ∧
      (run'.count .countStep).step plan' point i s' = (none, last') ∧
        R ⟨last.count .countInfeasible, .idle⟩ ⟨last'.count .countInfeasible, .idle⟩) ∨
    ∃ t t' last last', (run.count .countStep).step plan point i s = (some t, last) ∧
      (run'.count .countStep).step plan' point i s' = (some t', last') ∧
        if i.operation = .raise then
          R ⟨last, .leaving (plan.handlers point.block t)⟩
            ⟨last', .leaving (plan'.handlers point.block t')⟩
        else
          R ⟨last, .executing { point with offset := point.offset + 1 } rest t⟩
            ⟨last', .executing { point with offset := point.offset + 1 } rest t'⟩ := by
  have hnext := h.next hR
  simp only [Situation.next, if_neg hbudget, if_neg hbudget'] at hnext
  -- that the stages are alike rules out that one path ends where the other goes on
  rcases hstep : (run.count .countStep).step plan point i s with ⟨_ | t, last⟩ <;>
    rcases hstep' : (run'.count .countStep).step plan' point i s' with ⟨_ | t', last'⟩ <;>
    simp only [hstep, hstep'] at hnext
  · exact .inl ⟨last, last', rfl, rfl, by simpa using hnext⟩
  · split at hnext <;> cases h.stage (by simpa using hnext)
  · split at hnext <;> cases h.stage (by simpa using hnext)
  · refine .inr ⟨t, t', last, last', rfl, rfl, ?_⟩
    split at hnext
    · next hraise => simpa [hraise] using hnext
    · next hraise => simpa [hraise] using hnext

/-- The same instructions, executed in step, come to the same end. -/
theorem executeAll (h : InStep plan plan' R) {point : Point} {rest : List Instruction}
    {s s' : State} {e e' : Run.BlockEnd} {last last' : Run}
    (hR : R ⟨run, .executing point rest s⟩ ⟨run', .executing point rest s'⟩)
    (hx : Run.executeAll plan point rest run s = (e, last))
    (hy : Run.executeAll plan' point rest run' s' = (e', last')) :
    Explored R (last.conclude plan point.block e) (last'.conclude plan' point.block e') := by
  have hways : plan.procedure.flow.waysOut point.block =
      plan'.procedure.flow.waysOut point.block := by
    rw [h.procedure]
  induction rest generalizing point run run' s s' with
  | nil =>
    obtain ⟨rfl, rfl⟩ := Prod.mk.inj hx
    obtain ⟨rfl, rfl⟩ := Prod.mk.inj hy
    have hleaving : R ⟨run, .leaving (plan.departures point.block s)⟩
        ⟨run', .leaving (plan'.departures point.block s')⟩ := by
      simpa [Situation.next] using h.next hR
    rw [Run.conclude, Run.conclude, hways]
    exact .concluded (h.leaving hleaving)
  | cons i rest ih =>
    have hstatistics : (run.count .countStep).statistics = (run'.count .countStep).statistics :=
      congrArg Statistics.countStep (h.abreast hR).statistics
    rw [Run.executeAll] at hx hy
    by_cases hbudget : plan.settings.maxSteps < (run.count .countStep).statistics.steps
    · rw [if_pos hbudget] at hx
      rw [h.maxSteps, hstatistics] at hbudget
      rw [if_pos hbudget] at hy
      obtain ⟨rfl, rfl⟩ := Prod.mk.inj hx
      obtain ⟨rfl, rfl⟩ := Prod.mk.inj hy
      exact .exceeded ⟨_, _, hR, ⟨rfl, rfl, rfl⟩, ⟨rfl, rfl, rfl⟩, hstatistics⟩
    · have hbudget' : ¬plan'.settings.maxSteps < (run'.count .countStep).statistics.steps := by
        rwa [← h.maxSteps, ← hstatistics]
      rw [if_neg hbudget] at hx
      rw [if_neg hbudget'] at hy
      rcases h.step hR hbudget hbudget' with
        ⟨mid, mid', hstep, hstep', hidle⟩ | ⟨t, t', mid, mid', hstep, hstep', hgoesOn⟩
      · simp only [hstep, hstep'] at hx hy
        obtain ⟨rfl, rfl⟩ := Prod.mk.inj hx
        obtain ⟨rfl, rfl⟩ := Prod.mk.inj hy
        exact .concluded hidle
      · simp only [hstep, hstep'] at hx hy
        by_cases hraise : i.operation = .raise
        · rw [if_pos hraise] at hx hy hgoesOn
          obtain ⟨rfl, rfl⟩ := Prod.mk.inj hx
          obtain ⟨rfl, rfl⟩ := Prod.mk.inj hy
          rw [Run.conclude, Run.conclude, hways]
          exact .concluded (h.leaving hgoesOn)
        · rw [if_neg hraise] at hx hy hgoesOn
          have hexplored := ih hgoesOn hx hy hways
          exact hexplored

/-- Nodes whose exploration starts in step are explored in step. -/
theorem process (h : InStep plan plan' R) {node node' : Node}
    (hR : R (.exploring plan run node) (.exploring plan' run' node')) :
    Explored R (run.process plan node) (run'.process plan' node') := by
  obtain ⟨point, s⟩ := node
  obtain ⟨point', s'⟩ := node'
  obtain rfl : point = point' := (h.stage hR).point_eq
  have hinstructions : plan.instructions point.block = plan'.instructions point.block := by
    unfold Plan.instructions
    rw [h.procedure]
  unfold Situation.exploring at hR
  rw [← hinstructions] at hR
  rcases hx : Run.executeAll plan point ((plan.instructions point.block).drop point.offset) run s
    with ⟨e, last⟩
  rcases hy : Run.executeAll plan' point ((plan.instructions point.block).drop point.offset) run' s'
    with ⟨e', last'⟩
  rw [Run.process_eq hx, Run.process_eq (hinstructions ▸ hy)]
  exact h.executeAll hR hx hy

/-- Two runs in step take the same turn. -/
theorem turn (h : InStep plan plan' R) (hR : R ⟨run, .idle⟩ ⟨run', .idle⟩) :
    Agree R (run.turn plan) (run'.turn plan') := by
  obtain ⟨hstatistics, -, hcancelled, hwaiting, -⟩ := h.abreast hR
  have hparted : ∀ {last last' : Run}, run.Shows last → run'.Shows last' →
      last.statistics = last'.statistics → Parted R last last' :=
    fun hlast hlast' heq => ⟨_, _, hR, hlast, hlast', heq⟩
  unfold Run.turn
  cases hpop : run.worklist.pop? with
  | none =>
    have hpop' : run'.worklist.pop? = none := by simpa [hpop] using hwaiting.symm
    rw [hpop']
    exact .ended (hparted ⟨rfl, rfl, rfl⟩ ⟨rfl, rfl, rfl⟩ hstatistics)
  | some next =>
    obtain ⟨node, rest⟩ := next
    obtain ⟨⟨node', rest'⟩, hpop'⟩ : ∃ next', run'.worklist.pop? = some next' := by
      simpa [hpop, Option.isSome_iff_exists] using hwaiting.symm
    rw [hpop']
    dsimp only at hcancelled ⊢
    cases hc : run.isCancelled plan with
    | true =>
      rw [if_pos rfl, if_pos (hcancelled ▸ hc)]
      exact .ended (hparted ⟨rfl, rfl, rfl⟩ ⟨rfl, rfl, rfl⟩ hstatistics)
    | false =>
      have hc' : run'.isCancelled plan' = false := hcancelled ▸ hc
      rw [if_neg Bool.false_ne_true, if_neg (by simp [hc'])]
      -- the node that the one takes is answered by the node that the other takes
      obtain ⟨y, hmove, hRy⟩ := h.move hR (.take hc hpop)
      obtain rfl := Move.unique hmove (.take hc' hpop')
      have hexplored : Explored R _ _ := h.process hRy
      rw [Run.taking, Run.taking] at hexplored
      generalize Run.process plan _ node = a at hexplored
      generalize Run.process plan' _ node' = b at hexplored
      cases hexplored with
      | exceeded hparted => exact .ended hparted
      | @concluded r last last' hlast =>
        cases r with
        | error e => exact .ended (h.parted hlast)
        | ok b =>
          cases b with
          | true => exact .goOn hlast
          | false => exact .ended (h.parted hlast)

theorem pass (h : InStep plan plan' R) (limit : Nat) (hR : R ⟨run, .idle⟩ ⟨run', .idle⟩) :
    Agree R (run.pass plan limit) (run'.pass plan' limit) := by
  induction limit generalizing run run' with
  | zero => exact .goOn hR
  | succ limit ih =>
    have hturn := h.turn hR
    rw [Run.pass, Run.pass, (h.abreast hR).free]
    dsimp only
    split
    · generalize run.turn plan = a at hturn
      generalize run'.turn plan' = b at hturn
      cases hturn with
      | goOn hnext => exact ih hnext
      | ended hparted => exact .ended hparted
    · exact .goOn hR

theorem lap (h : InStep plan plan' R) (hR : R ⟨run, .idle⟩ ⟨run', .idle⟩) :
    Agree R (run.lap plan) (run'.lap plan') := by
  have hpass := h.pass (run.reach plan + 1) hR
  unfold Run.lap
  rw [← (h.abreast hR).reach]
  generalize run.pass plan (run.reach plan + 1) = a at hpass
  generalize run'.pass plan' (run.reach plan + 1) = b at hpass
  cases hpass with
  | goOn hnext => exact h.turn hnext
  | ended hparted => exact .ended hparted

theorem laps (h : InStep plan plan' R) (budget : Nat) (hR : R ⟨run, .idle⟩ ⟨run', .idle⟩) :
    (run.laps plan budget).1 = (run'.laps plan' budget).1 ∧
      Parted R (run.laps plan budget).2 (run'.laps plan' budget).2 := by
  induction budget generalizing run run' with
  | zero =>
    have hlap := h.lap hR
    generalize ha : run.lap plan = a at hlap
    generalize hb : run'.lap plan' = b at hlap
    cases hlap with
    | goOn hnext =>
      rw [Run.laps_zero ha, Run.laps_zero hb]
      exact ⟨rfl, h.parted hnext⟩
    | ended hparted =>
      rw [Run.laps_of_lap_some _ ha, Run.laps_of_lap_some _ hb]
      exact ⟨rfl, hparted⟩
  | succ budget ih =>
    have hlap := h.lap hR
    generalize ha : run.lap plan = a at hlap
    generalize hb : run'.lap plan' = b at hlap
    cases hlap with
    | goOn hnext =>
      rw [Run.laps_succ budget ha, Run.laps_succ budget hb]
      exact ih hnext
    | ended hparted =>
      rw [Run.laps_of_lap_some _ ha, Run.laps_of_lap_some _ hb]
      exact ⟨rfl, hparted⟩

/-- Explorations that start in step end in the same way, and what they come to is related. -/
theorem explore (h : InStep plan plan' R) (hR : R (.entering plan run) (.entering plan' run')) :
    (run.explore plan).1 = (run'.explore plan').1 ∧
      Parted R (run.explore plan).2 (run'.explore plan').2 := by
  have hRy : R ⟨run.begin plan, .idle⟩ ⟨run'.begin plan', .idle⟩ := h.leaving hR
  have hbudget : plan.settings.maxSteps - (run.begin plan).statistics.steps =
      plan'.settings.maxSteps - (run'.begin plan').statistics.steps := by
    have hsteps : (run.begin plan).statistics = (run'.begin plan').statistics :=
      (h.abreast hRy).statistics
    rw [h.maxSteps, hsteps]
  unfold Run.explore
  dsimp only
  rw [hbudget]
  exact h.laps _ hRy

/-- What two explorations in step reach is reached in step. -/
theorem reached (h : InStep plan plan' R) (checks checks' : List Check) :
    InStep plan plan' fun x y => R x y ∧ Reached plan checks x ∧ Reached plan' checks' y := by
  refine ⟨h.procedure, h.maxSteps, fun hR => h.abreast hR.1, fun hR => h.stage hR.1, ?_⟩
  rintro x y ⟨hR, hx, hy⟩
  cases hxnext : x.next plan with
  | none =>
    rw [h.stuck hR hxnext]
    exact .none
  | some x' =>
    obtain ⟨y', hmove, hR'⟩ := h.move hR (Move.iff_next.2 hxnext)
    rw [Move.iff_next.1 hmove]
    exact .some ⟨hR', hx.move (Move.iff_next.2 hxnext), hy.move hmove⟩

end InStep

/-- However an exploration ends, what it comes to is what it had to show in a situation that it has
reached. -/
theorem Reached.of_explore (plan : Plan) (checks : List Check) :
    ∃ x, Reached plan checks x ∧ x.run.Shows ((Run.start checks).explore plan).2 := by
  have hself : InStep plan plan Eq := by
    refine ⟨rfl, rfl, ?_, ?_, ?_⟩
    · rintro x _ rfl
      exact ⟨rfl, rfl, rfl, rfl, rfl⟩
    · rintro x _ rfl
      exact .refl _
    · rintro x _ rfl
      cases x.next plan with
      | none => exact .none
      | some x' => exact .some rfl
  obtain ⟨-, x, -, ⟨-, hx, -⟩, hshows, -⟩ :=
    (hself.reached checks checks).explore ⟨rfl, .refl, .refl⟩
  exact ⟨x, hx, hshows⟩

end Pathwise
