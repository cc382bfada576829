import Mathlib.Logic.Relation
import Pathwise.Explore.Loop
import Pathwise.Proofs.FlowGraph

/-!
# A run in small steps

Between two nodes a run executes instructions and then lets control go where the edges lead. A
situation is a run together with what it is about to do; one move takes a node, executes one
instruction, or follows one edge. Moves are determined, and a completed exploration is a chain of
moves that ends with nothing left to do, so that whatever is met on the way is also dealt with.
Where the flow graph has no answer about a block, the moves go on as if the block were empty; that
the run ends there is told by its turns.
-/

namespace Pathwise

/-- What becomes of an edge at the end of a block. -/
inductive Departure where
  /-- No execution takes it. -/
  | blocked
  /-- Control goes to a block in a state. -/
  | into (block : Nat) (s : State)

namespace Departure

/-- One side of a branch on a condition. -/
def ofBranch (tail : Nat) (t : Truth) (condition : Value) (s : State) : Departure :=
  match State.assume condition (.truth t) s with
  | some s => .into tail s
  | none => .blocked

/-- What becomes of an edge when the block ends in a state; nothing if the other side of a branch
to the same block stands for it. -/
def ofEdge (merged : Bool) (s : State) (e : FlowEdge) : Option Departure :=
  match e.label with
  | .jump => some (.into e.tail s)
  | .exceptional => some (.into e.tail s.clearStack)
  | .whenTrue =>
    some (if merged then .into e.tail s.pop.2 else ofBranch e.tail .holds s.pop.1 s.pop.2)
  | .whenFalse => if merged then none else some (ofBranch e.tail .fails s.pop.1 s.pop.2)

/-- What becomes of an edge when the block is left by an exception. -/
def ofHandler (s : State) (e : FlowEdge) : Option Departure :=
  if e.label = .exceptional then some (.into e.tail s.clearStack) else none

/-- The states in which control departs. -/
def states : Departure → List State
  | .blocked => []
  | .into _ s => [s]

end Departure

namespace Plan

/-- The departures at the end of a block. -/
def departures (plan : Plan) (index : Nat) (s : State) : List Departure :=
  (plan.edgesOut index).filterMap (Departure.ofEdge (Run.sameTarget (plan.edgesOut index)) s)

/-- The departures by an exception. -/
def handlers (plan : Plan) (index : Nat) (s : State) : List Departure :=
  (plan.edgesOut index).filterMap (Departure.ofHandler s)

end Plan

namespace Run

variable {plan : Plan}

/-- Lets control depart. -/
def depart (plan : Plan) (run : Run) : Departure → Run
  | .blocked => run.count .countInfeasible
  | .into block s => run.enter plan block s

/-- To follow an edge is to let control depart, if the edge departs at all. The condition has been
taken from the stack if the block ends in a branch. -/
theorem follow_eq (plan : Plan) (merged : Bool) (s : State) (run : Run) {branches : Bool}
    {e : FlowEdge} (h : e.label.isBranch = true → branches = true) :
    follow plan (if branches then some s.pop else none) merged s run e =
      (Departure.ofEdge merged s e).elim run (run.depart plan) := by
  obtain ⟨head, tail, label⟩ := e
  have hbranch : ∀ t, takeBranch plan run tail t s.pop.1 s.pop.2 =
      run.depart plan (Departure.ofBranch tail t s.pop.1 s.pop.2) := by
    intro t
    unfold takeBranch Departure.ofBranch
    cases State.assume s.pop.1 (.truth t) s.pop.2 <;> rfl
  cases label with
  | jump | exceptional => rfl
  | whenTrue =>
    rw [if_pos (h rfl)]
    cases merged with
    | true => rfl
    | false => exact hbranch .holds
  | whenFalse =>
    rw [if_pos (h rfl)]
    cases merged with
    | true => rfl
    | false => exact hbranch .fails

/-- To follow edges one after the other is to let control depart. -/
theorem foldl_follow (plan : Plan) (merged : Bool) (s : State) (run : Run) {branches : Bool}
    {edges : List FlowEdge} (h : ∀ e ∈ edges, e.label.isBranch = true → branches = true) :
    edges.foldl (follow plan (if branches then some s.pop else none) merged s) run =
      (edges.filterMap (Departure.ofEdge merged s)).foldl (depart plan) run := by
  induction edges generalizing run with
  | nil => rfl
  | cons e rest ih =>
    obtain ⟨hfirst, hrest⟩ := List.forall_mem_cons.1 h
    rw [List.foldl_cons, follow_eq plan merged s run hfirst, ih _ hrest, List.filterMap_cons]
    cases Departure.ofEdge merged s e <;> rfl

/-- To follow the exceptional edges is to let control depart to the handlers. -/
theorem foldl_enter_handler (plan : Plan) (s : State) (run : Run) (edges : List FlowEdge) :
    edges.foldl (fun run e =>
        if e.label = .exceptional then run.enter plan e.tail s.clearStack else run) run =
      (edges.filterMap (Departure.ofHandler s)).foldl (depart plan) run := by
  induction edges generalizing run with
  | nil => rfl
  | cons e rest ih =>
    rw [List.foldl_cons, ih, List.filterMap_cons]
    by_cases h : e.label = .exceptional <;> simp [Departure.ofHandler, h, depart]

/-- A block is left through its departures; an error says that its edges have not been found. -/
theorem behind_leave (run : Run) {index : Nat} {block : Block}
    (hblock : plan.procedure.flow.block index = .ok block) (s : State) :
    run.behind (run.leave plan block.index s) =
      ((plan.procedure.flow.waysOut index).map fun _ => true,
        (plan.departures index s).foldl (depart plan) run) := by
  rw [Plan.departures, Plan.edgesOut, FlowGraph.waysOut_of_block hblock, leave, FlowGraph.isBranch]
  cases plan.procedure.flow.graph.edgesOut block.index with
  | error e => rfl
  | ok edges =>
    have hbranches : ∀ e ∈ edges, e.label.isBranch = true →
        (edges.any fun e => e.label.isBranch) = true :=
      fun e he hbranch => List.any_eq_true.2 ⟨e, he, hbranch⟩
    exact congrArg (Prod.mk _) (foldl_follow plan _ s run hbranches)

/-- An exception leaves a block through its handlers; an error says that its edges have not been
found. -/
theorem behind_raise (run : Run) {index : Nat} {block : Block}
    (hblock : plan.procedure.flow.block index = .ok block) (s : State) :
    run.behind (run.raise plan block.index s) =
      ((plan.procedure.flow.waysOut index).map fun _ => true,
        (plan.handlers index s).foldl (depart plan) run) := by
  rw [Plan.handlers, Plan.edgesOut, FlowGraph.waysOut_of_block hblock, raise]
  cases plan.procedure.flow.graph.edgesOut block.index with
  | error e => rfl
  | ok edges => exact congrArg (Prod.mk _) (foldl_enter_handler plan s run edges)

/-- What the exploration of a node comes to, once the instructions of its block have ended. -/
def conclude (plan : Plan) (index : Nat) (run : Run) : BlockEnd → Except GraphError Bool × Run
  | .exceeded => (.ok false, run)
  | .pruned => (.ok true, run.count .countInfeasible)
  | .raised s =>
    ((plan.procedure.flow.waysOut index).map fun _ => true,
      (plan.handlers index s).foldl (depart plan) run)
  | .reached s =>
    ((plan.procedure.flow.waysOut index).map fun _ => true,
      (plan.departures index s).foldl (depart plan) run)

/-- A node is explored by executing the instructions of its block and letting control depart. A
block that is not found has neither instructions nor departures, and the error is told behind it. -/
theorem process_eq {run run' : Run} {node : Node} {e : BlockEnd}
    (h : executeAll plan node.point ((plan.instructions node.point.block).drop node.point.offset)
      run node.state = (e, run')) :
    run.process plan node = run'.conclude plan node.point.block e := by
  unfold process
  unfold Plan.instructions Plan.instructionsOf at h
  cases hblock : plan.procedure.flow.block node.point.block with
  | error error =>
    rw [hblock] at h
    obtain ⟨rfl, rfl⟩ := Prod.mk.inj (h.symm.trans (by rw [List.drop_nil, executeAll]))
    have hways : plan.procedure.flow.waysOut node.point.block = .error error := by
      rw [FlowGraph.waysOut, hblock]
      rfl
    simp [conclude, Plan.departures, Plan.edgesOut, hways, Except.map]
  | ok block =>
    rw [hblock] at h
    dsimp only at h ⊢
    rw [h]
    cases e with
    | exceeded | pruned => rfl
    | raised s => exact behind_raise _ hblock s
    | reached s => exact behind_leave _ hblock s

/-- The run once it has taken a node from the worklist. -/
def taking (run : Run) (rest : Queue Node) : Run :=
  { run with worklist := rest, asked := run.asked + 1 }

/-- What a turn comes to. -/
inductive Turned (plan : Plan) (run : Run) : Option Status → Run → Prop where
  /-- No node is left. -/
  | done (hpop : run.worklist.pop? = none) : Turned plan run (some .completed) run
  /-- A node is taken, but the run has been asked to end. -/
  | cancelled {node : Node} {rest : Queue Node} (hpop : run.worklist.pop? = some (node, rest))
    (hcancelled : run.isCancelled plan = true) :
    Turned plan run (some (.incomplete .cancelled)) (run.taking rest)
  /-- A node is taken, but there are too few steps to explore it. -/
  | exceeded {node : Node} {rest : Queue Node} {run' : Run}
    (hpop : run.worklist.pop? = some (node, rest)) (hcancelled : run.isCancelled plan = false)
    (hprocess : (run.taking rest).process plan node = (.ok false, run')) :
    Turned plan run (some (.incomplete .stepBudgetExceeded)) run'
  /-- A node is taken, but the flow graph has no answer about its block. -/
  | failed {node : Node} {rest : Queue Node} {run' : Run} {e : GraphError}
    (hpop : run.worklist.pop? = some (node, rest)) (hcancelled : run.isCancelled plan = false)
    (hprocess : (run.taking rest).process plan node = (.error e, run')) :
    Turned plan run (some (.skipped e.message)) run'
  /-- A node is taken and explored. -/
  | explored {node : Node} {rest : Queue Node} {run' : Run}
    (hpop : run.worklist.pop? = some (node, rest)) (hcancelled : run.isCancelled plan = false)
    (hprocess : (run.taking rest).process plan node = (.ok true, run')) : Turned plan run none run'

/-- A turn is one of these. -/
theorem turned {run run' : Run} {o : Option Status}
    (h : run.turn plan = (o, run')) : Turned plan run o run' := by
  unfold turn at h
  split at h
  · next hpop =>
    obtain ⟨rfl, rfl⟩ := Prod.mk.inj h
    exact .done hpop
  · next hpop =>
    dsimp only at h
    split at h
    · next hcancelled =>
      obtain ⟨rfl, rfl⟩ := Prod.mk.inj h
      exact .cancelled hpop hcancelled
    · next hcancelled =>
      have hgoesOn : run.isCancelled plan = false := by simpa using hcancelled
      split at h
      · next hprocess =>
        obtain ⟨rfl, rfl⟩ := Prod.mk.inj h
        exact .failed hpop hgoesOn hprocess
      · next hprocess =>
        obtain ⟨rfl, rfl⟩ := Prod.mk.inj h
        exact .exceeded hpop hgoesOn hprocess
      · next hprocess =>
        obtain ⟨rfl, rfl⟩ := Prod.mk.inj h
        exact .explored hpop hgoesOn hprocess

end Run

/-- What a run is about to do. -/
inductive Stage where
  /-- To take the next node. -/
  | idle
  /-- To execute instructions of a block in a state. -/
  | executing (point : Point) (rest : List Instruction) (s : State)
  /-- To let control depart. -/
  | leaving (departures : List Departure)

/-- The states of a stage. -/
def Stage.states : Stage → List State
  | .idle => []
  | .executing _ _ s => [s]
  | .leaving departures => departures.flatMap Departure.states

/-- A run and what it is about to do. -/
structure Situation where
  /-- The run. -/
  run : Run
  /-- What it is about to do. -/
  stage : Stage

namespace Situation

/-- A node that is about to be explored. -/
def exploring (plan : Plan) (run : Run) (node : Node) : Situation :=
  ⟨run, .executing node.point ((plan.instructions node.point.block).drop node.point.offset)
    node.state⟩

/-- The situation after the next move, if there is one. -/
def next (plan : Plan) (x : Situation) : Option Situation :=
  match x.stage with
  | .idle =>
    if x.run.isCancelled plan then none
    else x.run.worklist.pop?.map fun (node, rest) => exploring plan (x.run.taking rest) node
  | .executing point [] s => some ⟨x.run, .leaving (plan.departures point.block s)⟩
  | .executing point (i :: rest) s =>
    let run := x.run.count .countStep
    if plan.settings.maxSteps < run.statistics.steps then none
    else
      match run.step plan point i s with
      | (none, run) => some ⟨run.count .countInfeasible, .idle⟩
      | (some s, run) =>
        if i.operation = .raise then some ⟨run, .leaving (plan.handlers point.block s)⟩
        else some ⟨run, .executing { point with offset := point.offset + 1 } rest s⟩
  | .leaving [] => some ⟨x.run, .idle⟩
  | .leaving (d :: rest) => some ⟨x.run.depart plan d, .leaving rest⟩

/-- The situation after a number of moves, if there are that many. -/
def after (plan : Plan) : Nat → Situation → Option Situation
  | 0, x => some x
  | n + 1, x => (x.next plan).bind (after plan n)

/-- Whether a test holds now and after every move, if there are less moves than a bound. -/
def always (plan : Plan) (p : Situation → Bool) : Nat → Situation → Bool
  | 0, _ => false
  | n + 1, x => p x && ((x.next plan).map (always plan p n)).getD true

end Situation

/-- The moves of a run. -/
inductive Move (plan : Plan) : Situation → Situation → Prop where
  /-- The next node is taken. -/
  | take {run : Run} {node : Node} {rest : Queue Node} (hcancelled : run.isCancelled plan = false)
    (hpop : run.worklist.pop? = some (node, rest)) :
    Move plan ⟨run, .idle⟩ (.exploring plan (run.taking rest) node)
  /-- The last instruction of the block has been executed. -/
  | finish {run : Run} {point : Point} {s : State} :
    Move plan ⟨run, .executing point [] s⟩ ⟨run, .leaving (plan.departures point.block s)⟩
  /-- The path ends at an instruction. -/
  | prune {run run' : Run} {point : Point} {i : Instruction} {rest : List Instruction} {s : State}
    (hbudget : run.statistics.steps < plan.settings.maxSteps)
    (hstep : (run.count .countStep).step plan point i s = (none, run')) :
    Move plan ⟨run, .executing point (i :: rest) s⟩ ⟨run'.count .countInfeasible, .idle⟩
  /-- An instruction raises an exception. -/
  | raise {run run' : Run} {point : Point} {i : Instruction} {rest : List Instruction}
    {s s' : State} (hbudget : run.statistics.steps < plan.settings.maxSteps)
    (hstep : (run.count .countStep).step plan point i s = (some s', run'))
    (hraise : i.operation = .raise) :
    Move plan ⟨run, .executing point (i :: rest) s⟩ ⟨run', .leaving (plan.handlers point.block s')⟩
  /-- An instruction is executed. -/
  | proceed {run run' : Run} {point : Point} {i : Instruction} {rest : List Instruction}
    {s s' : State} (hbudget : run.statistics.steps < plan.settings.maxSteps)
    (hstep : (run.count .countStep).step plan point i s = (some s', run'))
    (hraise : i.operation ≠ .raise) :
    Move plan ⟨run, .executing point (i :: rest) s⟩
      ⟨run', .executing { point with offset := point.offset + 1 } rest s'⟩
  /-- Control departs. -/
  | depart {run : Run} {d : Departure} {rest : List Departure} :
    Move plan ⟨run, .leaving (d :: rest)⟩ ⟨run.depart plan d, .leaving rest⟩
  /-- Every departure has been dealt with. -/
  | settle {run : Run} : Move plan ⟨run, .leaving []⟩ ⟨run, .idle⟩

namespace Move

variable {plan : Plan} {x y z : Situation}

/-- The function and the relation agree on the next move. -/
theorem iff_next : Move plan x y ↔ x.next plan = some y := by
  constructor
  · intro h
    cases h with
    | take hcancelled hpop => simp [Situation.next, hcancelled, hpop]
    | finish => rfl
    | prune hbudget hstep =>
      simp [Situation.next, Run.count, Statistics.countStep, Nat.not_lt.2 hbudget] at hstep ⊢
      simp [hstep]
    | raise hbudget hstep hraise =>
      simp [Situation.next, Run.count, Statistics.countStep, Nat.not_lt.2 hbudget] at hstep ⊢
      simp [hstep, hraise]
    | proceed hbudget hstep hraise =>
      simp [Situation.next, Run.count, Statistics.countStep, Nat.not_lt.2 hbudget] at hstep ⊢
      simp [hstep, hraise]
    | depart => rfl
    | settle => rfl
  · intro h
    obtain ⟨run, stage⟩ := x
    cases stage with
    | idle =>
      simp only [Situation.next] at h
      split at h
      · cases h
      · next hcancelled =>
        obtain ⟨⟨node, rest⟩, hpop, rfl⟩ := Option.map_eq_some_iff.1 h
        exact .take (by simpa using hcancelled) hpop
    | executing point instructions s =>
      cases instructions with
      | nil =>
        obtain rfl := Option.some.inj h
        exact .finish
      | cons i rest =>
        simp only [Situation.next] at h
        split at h
        · cases h
        · next hbudget =>
          have hbudget : run.statistics.steps < plan.settings.maxSteps := by
            simp only [Run.count, Statistics.countStep] at hbudget
            omega
          split at h
          · next hstep =>
            obtain rfl := Option.some.inj h
            exact .prune hbudget hstep
          · next hstep =>
            split at h
            · next hraise =>
              obtain rfl := Option.some.inj h
              exact .raise hbudget hstep hraise
            · next hraise =>
              obtain rfl := Option.some.inj h
              exact .proceed hbudget hstep hraise
    | leaving departures =>
      cases departures with
      | nil =>
        obtain rfl := Option.some.inj h
        exact .settle
      | cons d rest =>
        obtain rfl := Option.some.inj h
        exact .depart

/-- From a situation there is at most one move. -/
theorem unique (hy : Move plan x y) (hz : Move plan x z) : y = z := by
  rw [iff_next] at hy hz
  exact Option.some.inj (hy.symm.trans hz)

end Move

/-! ## Chains of moves -/

/-- Some moves lead from one situation to another. -/
def Leads (plan : Plan) : Situation → Situation → Prop := Relation.ReflTransGen (Move plan)

/-- Some moves lead from one situation to another, none of which takes a node. -/
def Works (plan : Plan) : Situation → Situation → Prop :=
  Relation.ReflTransGen fun x y => x.stage ≠ .idle ∧ Move plan x y

namespace Works

variable {plan : Plan} {run run' : Run} {x y : Situation}

theorem leads (h : Works plan x y) : Leads plan x y :=
  Relation.ReflTransGen.mono (fun _ _ h => h.2) _ _ h

theorem head {z : Situation} (hx : x.stage ≠ .idle) (hmove : Move plan x y) (h : Works plan y z) :
    Works plan x z :=
  Relation.ReflTransGen.head ⟨hx, hmove⟩ h

/-- Control departs everywhere it can. -/
theorem leaving (plan : Plan) (run : Run) (departures : List Departure) :
    Works plan ⟨run, .leaving departures⟩ ⟨departures.foldl (Run.depart plan) run, .idle⟩ := by
  induction departures generalizing run with
  | nil => exact head (by simp) .settle .refl
  | cons d rest ih => exact head (by simp) .depart (ih _)

/-- Instructions are executed one after the other, and then control departs. -/
theorem executing {point : Point} {rest : List Instruction} {s : State} {e : Run.BlockEnd}
    (h : Run.executeAll plan point rest run s = (e, run')) :
    match e with
    | .exceeded => ∃ z, Works plan ⟨run, .executing point rest s⟩ z ∧ z.next plan = none
    | .pruned =>
      Works plan ⟨run, .executing point rest s⟩ ⟨run'.count .countInfeasible, .idle⟩
    | .raised s' =>
      Works plan ⟨run, .executing point rest s⟩ ⟨run', .leaving (plan.handlers point.block s')⟩
    | .reached s' =>
      Works plan ⟨run, .executing point rest s⟩
        ⟨run', .leaving (plan.departures point.block s')⟩ := by
  induction rest generalizing point run s with
  | nil =>
    obtain ⟨rfl, rfl⟩ := Prod.mk.inj h
    exact head (by simp) .finish .refl
  | cons i rest ih =>
    rw [Run.executeAll] at h
    split at h
    · next hbudget =>
      obtain ⟨rfl, rfl⟩ := Prod.mk.inj h
      exact ⟨_, .refl, by simp only [Situation.next, if_pos hbudget]⟩
    · next hbudget =>
      have hbudget : run.statistics.steps < plan.settings.maxSteps := by
        simp only [Run.count, Statistics.countStep] at hbudget
        omega
      split at h
      · next hstep =>
        obtain ⟨rfl, rfl⟩ := Prod.mk.inj h
        exact head (by simp) (.prune hbudget hstep) .refl
      · next hstep =>
        split at h
        · next hraise =>
          obtain ⟨rfl, rfl⟩ := Prod.mk.inj h
          exact head (by simp) (.raise hbudget hstep hraise) .refl
        · next hraise =>
          have hmove : Move plan ⟨run, .executing point (i :: rest) s⟩ _ :=
            .proceed hbudget hstep hraise
          have hrest := ih h
          cases e with
          | exceeded =>
            obtain ⟨z, hz, hstuck⟩ := hrest
            exact ⟨z, head (by simp) hmove hz, hstuck⟩
          | pruned | raised | reached => exact head (by simp) hmove hrest

/-- To explore a node is to work until there is no more work, unless the steps run out. -/
theorem process {node : Node} {r : Except GraphError Bool}
    (h : run.process plan node = (r, run')) (hr : r ≠ .ok false) :
    Works plan (.exploring plan run node) ⟨run', .idle⟩ := by
  rcases hall : Run.executeAll plan node.point
    ((plan.instructions node.point.block).drop node.point.offset) run node.state with ⟨e, last⟩
  rw [Run.process_eq hall] at h
  have hworks := executing hall
  cases e with
  | exceeded => exact absurd (congrArg Prod.fst h).symm hr
  | pruned =>
    obtain ⟨-, rfl⟩ := Prod.mk.inj h
    exact hworks
  | raised | reached =>
    obtain ⟨-, rfl⟩ := Prod.mk.inj h
    exact hworks.trans (leaving plan _ _)

/-- A turn that does not end the run takes a node and works until it is done with it. -/
theorem turn (h : run.turn plan = (none, run')) :
    ∃ node rest, run.worklist.pop? = some (node, rest) ∧ run.isCancelled plan = false ∧
      Works plan (.exploring plan (run.taking rest) node) ⟨run', .idle⟩ := by
  cases Run.turned h with
  | explored hpop hcancelled hprocess => exact ⟨_, _, hpop, hcancelled, process hprocess (by simp)⟩

end Works

/-! ## Laps -/

namespace Run

variable {plan : Plan} {run run' : Run} {status : Status}

/-- A lap that ends the run is the last. -/
theorem laps_of_lap_some (budget : Nat) (h : run.lap plan = (some status, run')) :
    run.laps plan budget = (status, run') := by
  rw [laps.eq_def, h]

/-- A lap that goes on uses up the budget. -/
theorem laps_zero (h : run.lap plan = (none, run')) :
    run.laps plan 0 = (.incomplete .stepBudgetExceeded, run') := by
  rw [laps.eq_def, h]

/-- A lap that goes on uses up one of the laps allowed. -/
theorem laps_succ (budget : Nat) (h : run.lap plan = (none, run')) :
    run.laps plan (budget + 1) = run'.laps plan budget := by
  rw [laps.eq_def, h]

end Run

namespace Leads

variable {plan : Plan} {run run' : Run}

/-- A turn that does not end the run leads from one idle situation to another. -/
theorem turn (h : run.turn plan = (none, run')) : Leads plan ⟨run, .idle⟩ ⟨run', .idle⟩ := by
  obtain ⟨node, rest, hpop, hcancelled, hworks⟩ := Works.turn h
  exact Relation.ReflTransGen.head (.take hcancelled hpop) hworks.leads

/-- A turn completes the run if the worklist is empty. -/
theorem turn_completed (h : run.turn plan = (some .completed, run')) :
    run' = run ∧ run.worklist.pop? = none := by
  cases Run.turned h with
  | done hpop => exact ⟨rfl, hpop⟩

/-- A pass leads on, and completes the run only with an empty worklist. -/
theorem pass {limit : Nat} {o : Option Status} (h : run.pass plan limit = (o, run')) :
    (o = none → Leads plan ⟨run, .idle⟩ ⟨run', .idle⟩) ∧
      (o = some .completed →
        Leads plan ⟨run, .idle⟩ ⟨run', .idle⟩ ∧ run'.worklist.pop? = none) := by
  induction limit generalizing run with
  | zero =>
    obtain ⟨rfl, rfl⟩ := Prod.mk.inj h
    exact ⟨fun _ => .refl, by simp⟩
  | succ limit ih =>
    rw [Run.pass] at h
    split at h
    · split at h
      · next hturn =>
        obtain ⟨rfl, rfl⟩ := Prod.mk.inj h
        refine ⟨by simp, fun hcompleted => ?_⟩
        obtain rfl := Option.some.inj hcompleted
        obtain ⟨rfl, hpop⟩ := turn_completed hturn
        exact ⟨.refl, hpop⟩
      · next hturn =>
        obtain ⟨hnone, hcompleted⟩ := ih h
        exact ⟨fun ho => (turn hturn).trans (hnone ho),
          fun ho => (hcompleted ho).imp_left (turn hturn).trans⟩
    · obtain ⟨rfl, rfl⟩ := Prod.mk.inj h
      exact ⟨fun _ => .refl, by simp⟩

/-- So does a lap. -/
theorem lap {o : Option Status} (h : run.lap plan = (o, run')) :
    (o = none → Leads plan ⟨run, .idle⟩ ⟨run', .idle⟩) ∧
      (o = some .completed →
        Leads plan ⟨run, .idle⟩ ⟨run', .idle⟩ ∧ run'.worklist.pop? = none) := by
  unfold Run.lap at h
  split at h
  · next hpass =>
    obtain ⟨rfl, rfl⟩ := Prod.mk.inj h
    exact pass hpass
  · next hpass =>
    have hpassed := (pass hpass).1 rfl
    refine ⟨fun hnone => hpassed.trans (turn (hnone ▸ h)), fun hcompleted => ?_⟩
    obtain ⟨rfl, hpop⟩ := turn_completed (hcompleted ▸ h)
    exact ⟨hpassed, hpop⟩

/-- A completed run has led to a situation in which nothing is left to do. -/
theorem laps {budget : Nat} (h : run.laps plan budget = (.completed, run')) :
    Leads plan ⟨run, .idle⟩ ⟨run', .idle⟩ ∧ run'.worklist.pop? = none := by
  induction budget generalizing run with
  | zero =>
    rcases hlap : run.lap plan with ⟨_ | status, next⟩
    · rw [Run.laps_zero hlap] at h
      cases h
    · obtain ⟨rfl, rfl⟩ := Prod.mk.inj ((Run.laps_of_lap_some 0 hlap).symm.trans h)
      exact (lap hlap).2 rfl
  | succ budget ih =>
    rcases hlap : run.lap plan with ⟨_ | status, next⟩
    · rw [Run.laps_succ budget hlap] at h
      exact (ih h).imp_left ((lap hlap).1 rfl).trans
    · obtain ⟨rfl, rfl⟩ := Prod.mk.inj ((Run.laps_of_lap_some _ hlap).symm.trans h)
      exact (lap hlap).2 rfl

end Leads

/-! ## What a run reaches -/

/-- The procedure is about to be entered. -/
def Situation.entering (plan : Plan) (run : Run) : Situation :=
  let entered := Run.bindParameters plan.procedure.parameters run.supply
  ⟨{ run with supply := entered.2 }, .leaving [.into plan.entry entered.1]⟩

/-- A situation is reached if moves lead to it from the start of an exploration. -/
def Reached (plan : Plan) (checks : List Check) : Situation → Prop :=
  Leads plan (.entering plan (.start checks))

/-- A node is met if it stands on the worklist at some time. -/
def Met (plan : Plan) (checks : List Check) (node : Node) : Prop :=
  ∃ x, Reached plan checks x ∧ node ∈ x.run.worklist.toList

namespace Reached

variable {plan : Plan} {checks : List Check} {x y : Situation} {run : Run}

theorem move (hx : Reached plan checks x) (h : Move plan x y) : Reached plan checks y :=
  Relation.ReflTransGen.tail hx h

/-- What the machine comes to after some moves is reached. -/
theorem of_after {n : Nat} (h : (Situation.entering plan (.start checks)).after plan n = some x) :
    Reached plan checks x := by
  have hleads : ∀ n (y : Situation), y.after plan n = some x → Leads plan y x := by
    intro n
    induction n with
    | zero =>
      intro y hy
      obtain rfl := Option.some.inj hy
      exact .refl
    | succ n ih =>
      intro y hy
      obtain ⟨z, hz, hx⟩ := Option.bind_eq_some_iff.1 hy
      exact .head (Move.iff_next.2 hz) (ih z hx)
  exact hleads n _ h

/-- What is tested after every move holds of all that is reached. -/
theorem of_always {p : Situation → Bool} {n : Nat}
    (h : (Situation.entering plan (.start checks)).always plan p n = true)
    (hx : Reached plan checks x) : p x = true := by
  have hleads : ∀ (n : Nat) (y : Situation), y.always plan p n = true → Leads plan y x →
      p x = true := by
    intro n
    induction n with
    | zero =>
      intro y hy
      cases hy
    | succ n ih =>
      intro y hy hleads
      obtain ⟨hy, hnext⟩ := Bool.and_eq_true_iff.1 hy
      rcases hleads.cases_head with rfl | ⟨z, hz, hzx⟩
      · exact hy
      · rw [Move.iff_next.1 hz] at hnext
        exact ih z hnext hzx
  exact hleads n _ h hx

/-- A completed exploration has reached a situation in which nothing is left to do. -/
theorem of_completed (h : (Run.start checks).explore plan = (.completed, run)) :
    Reached plan checks ⟨run, .idle⟩ ∧ run.worklist.pop? = none := by
  unfold Run.explore at h
  obtain ⟨hleads, hpop⟩ := Leads.laps h
  exact ⟨(Works.leaving plan _ _).leads.trans hleads, hpop⟩

/-- From whatever a completed exploration has reached, moves lead to its end. -/
theorem leads_end (h : (Run.start checks).explore plan = (.completed, run))
    (hx : Reached plan checks x) : Leads plan x ⟨run, .idle⟩ := by
  obtain ⟨hend, hpop⟩ := of_completed h
  have hunique : Relator.RightUnique (Move plan) := fun _ _ _ => Move.unique
  rcases Relation.ReflTransGen.total_of_right_unique hunique hx hend with h | h
  · exact h
  · rcases h.cases_head with rfl | ⟨y, hy, _⟩
    · exact .refl
    · cases hy with
      | take _ hsome => simp [hpop] at hsome

/-- A busy situation of a completed exploration has a next move. -/
theorem exists_move (h : (Run.start checks).explore plan = (.completed, run))
    (hx : Reached plan checks x) (hbusy : x.stage ≠ .idle) : ∃ y, Move plan x y := by
  rcases (leads_end h hx).cases_head with rfl | ⟨y, hy, _⟩
  · exact absurd rfl hbusy
  · exact ⟨y, hy⟩

end Reached

end Pathwise
