import Pathwise.Explore.Run

/-!
# Exploring to the end

A run explores nodes in the order in which they were met, until none is left, it is asked to end,
it has executed too many instructions, or a question about a block is not answered. A node at a
block with instructions uses up at least one of the allowed steps. Nodes at blocks without
instructions use up none, but only a bounded number of them can be reached from the nodes that
wait, and that number limits how many are explored in a row. Neither limit is ever noticed.
-/

namespace Pathwise

/-- How many nodes can be reached from a node with this state through blocks without instructions.
On the way the stack can be emptied, what is recorded about a value can be dropped, and a variable
can get the value that belongs to it at one of the loop headers. -/
def Plan.reach (plan : Plan) (s : State) : Nat :=
  let headers := plan.assigned.size
  let assigned := plan.assigned.values.foldl (fun n symbols => n + symbols.size) 0
  plan.procedure.flow.graph.size * 2 * Nat.pow (headers + 1) assigned * Nat.pow 2 s.facts.size

namespace Run

/-- Whether the run has been asked to end. -/
def isCancelled (plan : Plan) (run : Run) : Bool :=
  match plan.polls with
  | some polls => polls run.asked || run.journal.cancelled
  | none => false

/-- Explores the next node; a status if that ends the run. -/
def turn (plan : Plan) (run : Run) : Option Status × Run :=
  match run.worklist.pop? with
  | none => (some .completed, run)
  | some (node, rest) =>
    let cancelled := run.isCancelled plan
    let run := { run with worklist := rest, asked := run.asked + 1 }
    if cancelled then
      (some (.incomplete .cancelled), run)
    else
      match run.process plan node with
      | (.error e, run) => (some (.skipped e.message), run)
      | (.ok false, run) => (some (.incomplete .stepBudgetExceeded), run)
      | (.ok true, run) => (none, run)

/-- Whether the next node is at a block without instructions, or there is none. -/
def nextIsFree (plan : Plan) (run : Run) : Bool :=
  match run.worklist.pop? with
  | none => true
  | some (node, _) =>
    match plan.procedure.flow.block node.point.block with
    | .ok block => block.instructions.isEmpty
    | .error _ => true

/-- How many nodes can be reached through blocks without instructions from those that wait. -/
def reach (plan : Plan) (run : Run) : Nat :=
  run.worklist.toList.foldl (fun n node => n + plan.reach node.state) 0

/-- Explores nodes at blocks without instructions, at most a given number in a row. -/
def pass (plan : Plan) : Nat → Run → Option Status × Run
  | 0, run => (none, run)
  | limit + 1, run =>
    if run.nextIsFree plan then
      match run.turn plan with
      | (some status, run) => (some status, run)
      | (none, run) => pass plan limit run
    else
      (none, run)

/-- Explores nodes at blocks without instructions, and then one more node. -/
def lap (plan : Plan) (run : Run) : Option Status × Run :=
  match run.pass plan (run.reach plan + 1) with
  | (some status, run) => (some status, run)
  | (none, run) => run.turn plan

/-- Explores nodes in laps, at most a given number of them after the first. -/
def laps (plan : Plan) (budget : Nat) (run : Run) : Status × Run :=
  match run.lap plan, budget with
  | (some status, run), _ => (status, run)
  | (none, run), 0 => (.incomplete .stepBudgetExceeded, run)
  | (none, run), budget + 1 => laps plan budget run

/-- Enters the procedure with a value of its own for each parameter. -/
def bindParameters (parameters : List Symbol) (supply : Supply) : State × Supply :=
  parameters.foldl (fun (s, supply) symbol =>
    let (v, supply) := supply.fresh
    (s.bind symbol v, supply)) (State.empty, supply)

/-- Puts the entry of the procedure on the worklist. -/
def begin (plan : Plan) (run : Run) : Run :=
  let (s, supply) := bindParameters plan.procedure.parameters run.supply
  { run with supply := supply }.enter plan plan.entry s

/-- Explores every feasible path of the procedure, as far as the bounds allow. -/
def explore (plan : Plan) (run : Run) : Status × Run :=
  let run := run.begin plan
  run.laps plan (plan.settings.maxSteps - run.statistics.steps)

/-- The counters of a run at its end. -/
def finalStatistics (run : Run) : Statistics :=
  { run.statistics with values := run.supply.created }

/-- The diagnostics of a run in the order in which they came. -/
def diagnostics (run : Run) : List Diagnostic := run.journal.report.diagnostics

end Run

end Pathwise
