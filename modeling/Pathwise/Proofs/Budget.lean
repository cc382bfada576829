import Pathwise.Proofs.Whereabouts

/-!
# Enough steps

The bound on the number of steps only ever ends a run: once it is large enough for a turn, the turn
is the same for every larger bound. So if the turns come to an end at all, some bound is large
enough for all of them, and with it the exploration is completed.
-/

namespace Pathwise

/-- The same plan with another bound on the number of steps. -/
def Plan.within (plan : Plan) (maxSteps : Nat) : Plan :=
  { plan with settings := { plan.settings with maxSteps } }

/-- The variables of a loop are found if its blocks are. -/
theorem Plan.exists_assignedIn {flow : FlowGraph} {l : Loop}
    (h : ∀ index ∈ l.nodes, flow.graph.hasVertex index = true) (semantics : Semantics) :
    ∃ symbols, assignedIn flow semantics l = .ok symbols := by
  have hblock : ∀ index ∈ l.nodes, ∃ b, flow.block index = .ok b := by
    intro index hindex
    obtain ⟨b, hb⟩ := SortedMap.contains_iff.1 (h index hindex)
    exact ⟨b, by rw [FlowGraph.block, Graph.vertex, hb]⟩
  obtain ⟨blocks, hblocks⟩ := exists_mapM_ok hblock
  exact ⟨_, by rw [assignedIn, hblocks]; rfl⟩

/-- A procedure that is admitted can be planned, and the bound on the steps plays no part in it. -/
theorem Plan.exists_prepare {p : Procedure} (hbuilt : p.flow.Built) (hvalid : p.validate = .ok ())
    (x : Setting) (settings : Settings) (polls : Option Polls) :
    ∃ plan : Plan, Plan.prepare p x settings polls = .ok plan ∧ ∀ maxSteps,
      Plan.prepare p x { settings with maxSteps } polls = .ok (plan.within maxSteps) := by
  cases hentry : p.flow.entry with
  | none => simp [Procedure.validate, FlowGraph.validate, hentry] at hvalid
  | some entry =>
    obtain ⟨loops, hloops⟩ := Graph.exists_loops (hbuilt.sound.entry hentry)
    have hflow : p.flow.loops = .ok loops := by
      simp [FlowGraph.loops, hentry, hloops, Except.mapError]
    have heach : ∀ l ∈ loops, ∃ symbols, assignedIn p.flow x.semantics l = .ok symbols :=
      fun l hl => exists_assignedIn
        (fun index hindex => Graph.hasVertex_of_mem_loop hloops hl (.inr hindex)) x.semantics
    obtain ⟨assigned, hassigned⟩ := exists_mapM_ok heach
    refine ⟨⟨p, entry, x, settings, .ofList ((loops.map (·.header)).zip assigned), polls⟩, ?_,
      fun m => ?_⟩
    · simp only [prepare, hvalid, hentry, hflow, hassigned, Except.mapError, bind, Except.bind,
        pure, Except.pure]
    · simp only [prepare, hvalid, hentry, hflow, hassigned, Except.mapError, bind, Except.bind,
        pure, Except.pure]
      rfl

namespace Run

variable {plan : Plan} {run run' : Run}

/-! ## Turns without a bound -/

theorem step_within (plan : Plan) (m : Nat) (run : Run) (point : Point) (i : Instruction)
    (s : State) : run.step (plan.within m) point i s = run.step plan point i s :=
  step_congr point i (by rfl) run s

/-- Instructions end in the same way for every bound that is large enough for all of them. -/
theorem executeAll_within (plan : Plan) (point : Point) (rest : List Instruction) (run : Run)
    (s : State) :
    ∃ e run', e ≠ .exceeded ∧ ∀ m, run.statistics.steps + rest.length ≤ m →
      executeAll (plan.within m) point rest run s = (e, run') := by
  induction rest generalizing point run s with
  | nil => exact ⟨.reached s, run, by simp, fun _ _ => rfl⟩
  | cons i rest ih =>
    have hbudget : ∀ m, run.statistics.steps + (i :: rest).length ≤ m →
        ¬(plan.within m).settings.maxSteps < (run.count .countStep).statistics.steps := by
      intro m hm
      simp only [List.length_cons] at hm
      simp only [Plan.within, count, Statistics.countStep]
      omega
    cases hstep : (run.count .countStep).step plan point i s with
    | mk o run₁ =>
      cases o with
      | none =>
        refine ⟨.pruned, run₁, by simp, fun m hm => ?_⟩
        simp only [executeAll, if_neg (hbudget m hm), step_within, hstep]
      | some s₁ =>
        by_cases hraise : i.operation = .raise
        · refine ⟨.raised s₁, run₁, by simp, fun m hm => ?_⟩
          simp only [executeAll, if_neg (hbudget m hm), step_within, hstep, if_pos hraise]
        · obtain ⟨e, run', he, hrest⟩ := ih { point with offset := point.offset + 1 } run₁ s₁
          obtain ⟨-, -, -, hsteps⟩ := step_fields hstep
          refine ⟨e, run', he, fun m hm => ?_⟩
          simp only [executeAll, if_neg (hbudget m hm), step_within, hstep, if_neg hraise]
          refine hrest m ?_
          simp only [List.length_cons] at hm
          simp only [hsteps, count, Statistics.countStep]
          omega

/-- A turn leads from one run to another whenever the bound is large enough. -/
def Turns (plan : Plan) (run run' : Run) : Prop :=
  ∃ enough, ∀ m, enough ≤ m → run.turn (plan.within m) = (none, run')

/-- A node is explored in the same way for every bound that is large enough for its block. -/
theorem process_within (plan : Plan) (run : Run) {node : Node} {out : List FlowEdge}
    (hways : plan.procedure.flow.waysOut node.point.block = .ok out) :
    ∃ run', ∀ m, run.statistics.steps +
        ((plan.instructions node.point.block).drop node.point.offset).length ≤ m →
      run.process (plan.within m) node = (.ok true, run') := by
  obtain ⟨e, run₁, he, hall⟩ := executeAll_within plan node.point
    ((plan.instructions node.point.block).drop node.point.offset) run node.state
  have hconclude : ∀ m, run₁.conclude (plan.within m) node.point.block e =
      run₁.conclude plan node.point.block e := by
    intro m
    cases e <;> rfl
  have hdone : (run₁.conclude plan node.point.block e).1 = .ok true := by
    cases e with
    | exceeded => exact absurd rfl he
    | pruned => rfl
    | raised | reached => simp [conclude, hways, Except.map]
  refine ⟨(run₁.conclude plan node.point.block e).2, fun m hm => ?_⟩
  rw [process_eq (hall m hm), hconclude, ← hdone]

/-- The checks of a run are those of this library, and none has asked to end it. -/
structure Quiet (run : Run) : Prop where
  /-- The checks are those of this library. -/
  standard : run.Standard
  /-- None has asked to end the run. -/
  uncancelled : run.journal.cancelled = false

/-- No move makes a check ask to end the run. -/
theorem Quiet.move {x y : Situation} (h : x.run.Quiet) (hmove : Move plan x y) : y.run.Quiet := by
  have hexecuted : ∀ {run run' : Run} {point i s o}, run.Quiet →
      (run.count .countStep).step plan point i s = (o, run') → run'.Quiet := by
    intro run run' point i s o hquiet hstep
    have hstandard : (run.count .countStep).Standard := hquiet.standard
    refine ⟨?_, (step_cancelled plan point i hstandard hstep).trans hquiet.uncancelled⟩
    rcases step_cases plan point i hstandard s with ⟨σ, j, heq, -⟩ | ⟨_, _, j, heq, -, -⟩
    · obtain ⟨-, rfl⟩ := Prod.mk.inj (hstep.symm.trans heq)
      exact hstandard
    · obtain ⟨-, rfl⟩ := Prod.mk.inj (hstep.symm.trans heq)
      exact hstandard
  cases hmove with
  | take | finish | settle => exact ⟨h.standard, h.uncancelled⟩
  | prune _ hstep =>
    have hquiet := hexecuted h hstep
    exact ⟨hquiet.standard, hquiet.uncancelled⟩
  | raise _ hstep _ | proceed _ hstep _ => exact hexecuted h hstep
  | @depart run d rest =>
    cases d with
    | blocked => exact ⟨h.standard, h.uncancelled⟩
    | into block s =>
      obtain ⟨hslots, -⟩ := enter_fields plan run block s
      refine ⟨fun slot hslot => h.standard slot (hslots ▸ hslot), ?_⟩
      exact (congrArg Journal.cancelled (journal_enter plan run block s)).trans h.uncancelled

theorem Quiet.leads {x y : Situation} (h : x.run.Quiet) (hleads : Leads plan x y) :
    y.run.Quiet := by
  induction hleads with
  | refl => exact h
  | tail _ hmove ih => exact ih.move hmove

theorem Quiet.turns (h : run.Quiet) (hturns : run.Turns plan run') : run'.Quiet := by
  obtain ⟨enough, hturn⟩ := hturns
  exact Quiet.leads (x := ⟨run, .idle⟩) h (Leads.turn (hturn enough (Nat.le_refl enough)))

/-- The nodes that wait after a turn are where control can be. -/
theorem Turns.placed (h : run.Turns plan run') (hplaced : Situation.Placed plan ⟨run, .idle⟩) :
    Situation.Placed plan ⟨run', .idle⟩ := by
  obtain ⟨enough, hturn⟩ := h
  have hwithin : Situation.Placed (plan.within enough) ⟨run, .idle⟩ := ⟨hplaced.worklist, trivial⟩
  exact ⟨(hwithin.leads (.turn (hturn enough (Nat.le_refl enough)))).worklist, trivial⟩

/-- As long as nodes are left and nobody asks the run to end, there is a turn. -/
theorem exists_turns (hplan : plan.Charted) (hpolls : ∀ ask ∈ plan.polls, ∀ k, ask k = false)
    (hrun : run.Quiet) (hplaced : Situation.Placed plan ⟨run, .idle⟩) {node : Node}
    {rest : Queue Node} (hpop : run.worklist.pop? = some (node, rest)) :
    ∃ run', run.Turns plan run' := by
  obtain ⟨out, hout⟩ :=
    hplan (hplaced.worklist node (Queue.toList_of_pop? hpop ▸ List.mem_cons_self))
  obtain ⟨run', hprocess⟩ := process_within plan (run.taking rest) hout
  refine ⟨run', (run.taking rest).statistics.steps +
    ((plan.instructions node.point.block).drop node.point.offset).length, fun m hm => ?_⟩
  have hcancelled : run.isCancelled (plan.within m) = false := by
    unfold isCancelled
    split
    · next ask hask => simp [hpolls ask hask, hrun.uncancelled]
    · rfl
  have hprocess := hprocess m hm
  unfold taking at hprocess
  simp only [turn, hpop, hcancelled, Bool.false_eq_true, if_false, hprocess]

/-! ## Runs that come to an end -/

/-- A number of turns leave no node. -/
inductive Finishes (plan : Plan) : Nat → Run → Prop where
  /-- No node is left. -/
  | done {run : Run} (hpop : run.worklist.pop? = none) : Finishes plan 0 run
  /-- One more turn. -/
  | turn {run run' : Run} {n : Nat} (hturn : run.turn plan = (none, run'))
    (h : Finishes plan n run') : Finishes plan (n + 1) run

/-- If no sequence of turns is endless, they finish. -/
theorem finishes_of_acc (hplan : plan.Charted)
    (hpolls : ∀ ask ∈ plan.polls, ∀ k, ask k = false) (hrun : run.Quiet)
    (hplaced : Situation.Placed plan ⟨run, .idle⟩)
    (h : Acc (fun run' run => Turns plan run run') run) :
    ∃ n enough, ∀ m, enough ≤ m → Finishes (plan.within m) n run := by
  induction h with
  | intro run _ ih =>
    cases hpop : run.worklist.pop? with
    | none => exact ⟨0, 0, fun _ _ => .done hpop⟩
    | some taken =>
      obtain ⟨run', hturns⟩ := exists_turns hplan hpolls hrun hplaced hpop
      obtain ⟨n, enough', hfinishes⟩ := ih run' hturns (hrun.turns hturns) (hturns.placed hplaced)
      obtain ⟨enough, hturn⟩ := hturns
      refine ⟨n + 1, max enough enough', fun m hm => ?_⟩
      exact .turn (hturn m (by omega)) (hfinishes m (by omega))

theorem turn_of_done (hpop : run.worklist.pop? = none) :
    run.turn plan = (some .completed, run) := by
  simp only [turn, hpop]

/-- Passing over blocks without instructions takes some of the turns. -/
theorem Finishes.pass {n : Nat} (h : Finishes plan n run) (limit : Nat) :
    (∃ run', run.pass plan limit = (some .completed, run')) ∨
      ∃ run' k, k ≤ n ∧ run.pass plan limit = (none, run') ∧ Finishes plan k run' := by
  induction limit generalizing run n with
  | zero => exact .inr ⟨run, n, Nat.le_refl n, rfl, h⟩
  | succ limit ih =>
    rw [Run.pass]
    split
    · cases h with
      | done hpop => exact .inl ⟨run, by rw [turn_of_done hpop]⟩
      | turn hturn h =>
        rw [hturn]
        rcases ih h with hcompleted | ⟨run', k, hk, hpass, hfinishes⟩
        · exact .inl hcompleted
        · exact .inr ⟨run', k, by omega, hpass, hfinishes⟩
    · exact .inr ⟨run, n, Nat.le_refl n, rfl, h⟩

/-- A lap takes one turn at least. -/
theorem Finishes.lap {n : Nat} (h : Finishes plan n run) :
    (∃ run', run.lap plan = (some .completed, run')) ∨
      ∃ run' k, k < n ∧ run.lap plan = (none, run') ∧ Finishes plan k run' := by
  unfold Run.lap
  rcases h.pass (run.reach plan + 1) with ⟨run', hpass⟩ | ⟨run', k, hk, hpass, hfinishes⟩
  · exact .inl ⟨run', by rw [hpass]⟩
  · rw [hpass]
    cases hfinishes with
    | done hpop => exact .inl ⟨run', turn_of_done hpop⟩
    | turn hturn hfinishes => exact .inr ⟨_, _, by omega, hturn, hfinishes⟩

/-- Laps that are as many as the turns complete the run. -/
theorem Finishes.laps {n budget : Nat} (h : Finishes plan n run) (hn : n ≤ budget) :
    (run.laps plan budget).1 = .completed := by
  induction budget generalizing run n with
  | zero =>
    rcases h.lap with ⟨run', hlap⟩ | ⟨run', k, hk, hlap, hfinishes⟩
    · rw [laps_of_lap_some 0 hlap]
    · omega
  | succ budget ih =>
    rcases h.lap with ⟨run', hlap⟩ | ⟨run', k, hk, hlap, hfinishes⟩
    · rw [laps_of_lap_some _ hlap]
    · rw [laps_succ budget hlap]
      exact ih hfinishes (by omega)

/-- If no sequence of turns from the start is endless, the exploration is completed with every
bound that is large enough. -/
theorem explore_completed (hplan : plan.Charted)
    (hpolls : ∀ ask ∈ plan.polls, ∀ k, ask k = false) {checks : List Check}
    (hchecks : ∀ c ∈ checks, c.Standard)
    (h : Acc (fun run' run => Turns plan run run') ((start checks).begin plan)) :
    ∃ enough, ∀ m, enough ≤ m → ((start checks).explore (plan.within m)).1 = .completed := by
  have hquiet : (Situation.entering plan (start checks)).run.Quiet := by
    refine ⟨fun slot hslot => ?_, rfl⟩
    obtain ⟨c, hc, rfl⟩ := List.mem_map.1 hslot
    exact hchecks c hc
  obtain ⟨n, enough, hfinishes⟩ := finishes_of_acc hplan hpolls
    (hquiet.leads (Works.leaving plan _ _).leads) (begin_placed plan checks) h
  have hsteps : ((start checks).begin plan).statistics.steps = 0 := by
    obtain ⟨-, -, -, hsteps⟩ := enter_fields plan (Situation.entering plan (start checks)).run
      plan.entry (bindParameters plan.procedure.parameters .start).1
    exact hsteps
  refine ⟨max enough n, fun m hm => ?_⟩
  show (laps (plan.within m) (m - ((start checks).begin plan).statistics.steps) _).1 = _
  rw [hsteps]
  exact (hfinishes m (by omega)).laps (by omega)

end Run

end Pathwise
