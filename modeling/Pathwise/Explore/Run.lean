import Pathwise.Check.Basic
import Pathwise.Explore.Outcome
import Pathwise.Explore.Plan
import Pathwise.Explore.Queue
import Pathwise.State.Basic
import Pathwise.State.Fingerprint

/-!
# The state of a run

A run keeps the nodes that still have to be explored and remembers every node it has met. A node
is the start of a block together with the state in which control gets there. A loop header that has
been entered often enough is entered with a widened state, in which the variables of the loop have
values that belong to the header.
-/

namespace Pathwise

/-- The start of a block and the state that reaches it. -/
structure Node where
  /-- The start of the block. -/
  point : Point
  /-- The state. -/
  state : State

/-- A check and whether it is still called. -/
structure Slot where
  /-- The check. -/
  check : Check
  /-- Whether it has not failed yet. -/
  enabled : Bool

/-- The state of a run. -/
structure Run where
  /-- The checks. -/
  slots : List Slot
  /-- The source of values. -/
  supply : Supply
  /-- What the checks have told the outside world. -/
  journal : Journal
  /-- The nodes that still have to be explored. -/
  worklist : Queue Node
  /-- The states in which each block has been reached. -/
  visited : SortedMap Nat (List Fingerprint)
  /-- How often each loop header has been entered. -/
  headerVisits : SortedMap Nat Nat
  /-- What the run counts. -/
  statistics : Statistics
  /-- How often the run has asked whether to end. -/
  asked : Nat

namespace Run

/-- A run before its first node. -/
def start (checks : List Check) : Run where
  slots := checks.map (⟨·, true⟩)
  supply := .start
  journal := .start
  worklist := .empty
  visited := .empty
  headerVisits := .empty
  statistics := .zero
  asked := 0

/-- The rules of the checks that are still called. -/
def enabledRules (run : Run) : List String :=
  (run.slots.filter (·.enabled)).map (·.check.rule)

/-- Changes the counters. -/
def count (run : Run) (f : Statistics → Statistics) : Run :=
  { run with statistics := f run.statistics }

/-- Binds one variable to its value at a loop header, of which nothing is recorded. -/
def widenVariable (header : Nat) (acc : State × Supply) (symbol : Symbol) : State × Supply :=
  let (s, supply) := acc
  let (v, supply) := supply.widened header symbol
  ((s.bind symbol v).forget v, supply)

/-- Widens the state at a loop header. -/
def widen (plan : Plan) (header : Nat) (s : State) (supply : Supply) : State × Supply :=
  let symbols := ((plan.assigned.get? header).getD .empty).toList
  let (s, supply) := symbols.foldl (widenVariable header) (s, supply)
  (s.clean, supply)

/-- Whether a block has been reached in this state. -/
def hasVisited (run : Run) (block : Nat) (f : Fingerprint) : Bool :=
  match run.visited.get? block with
  | some states => states.contains f
  | none => false

/-- Puts a node on the worklist unless it has been met before. -/
def meet (run : Run) (node : Node) : Run :=
  let block := node.point.block
  let f := node.state.fingerprint
  if run.hasVisited block f then
    run.count .countDuplicate
  else
    { run with
      visited := run.visited.insert block (f :: (run.visited.get? block).getD [])
      statistics := run.statistics.countNode block
      worklist := run.worklist.push node }

/-- Lets control enter a block: the state is cleaned, and widened at a loop header that has been
entered often enough. -/
def enter (plan : Plan) (run : Run) (block : Nat) (s : State) : Run :=
  let s := s.clean
  if plan.assigned.contains block then
    let visits := (run.headerVisits.get? block).getD 0 + 1
    let run := { run with headerVisits := run.headerVisits.insert block visits }
    if plan.settings.loopVisitLimit < visits then
      let (s, supply) := widen plan block s run.supply
      meet ({ run with supply := supply }.count .countWidening) ⟨⟨block, 0, visits⟩, s⟩
    else
      meet run ⟨⟨block, 0, visits⟩, s⟩
  else
    meet run ⟨⟨block, 0, 0⟩, s⟩

/-- Calls the checks that are interested in an instruction, one after the other. A check that fails
is not called again, and the next one gets the state that it was given. -/
def callChecks (plan : Plan) (moment : Moment) (point : Point) (i : Instruction) :
    List Slot → Journal → State → List Slot × Journal × Option State
  | [], journal, s => ([], journal, some s)
  | slot :: rest, journal, s =>
    if slot.enabled && slot.check.isInterested i then
      let site : Site := ⟨slot.check.rule, point, i, plan.setting.semantics⟩
      match slot.check.hook moment site s journal with
      | (.goOn s, journal) =>
        let (rest, journal, result) := callChecks plan moment point i rest journal s
        (slot :: rest, journal, result)
      | (.stop, journal) => (slot :: rest, journal, none)
      | (.failed _, journal) =>
        let (rest, journal, result) := callChecks plan moment point i rest journal s
        ({ slot with enabled := false } :: rest, journal, result)
    else
      let (rest, journal, result) := callChecks plan moment point i rest journal s
      (slot :: rest, journal, result)

/-- Calls the checks at a moment of an instruction. -/
def checked (plan : Plan) (run : Run) (moment : Moment) (point : Point) (i : Instruction)
    (s : State) : Option State × Run :=
  let (slots, journal, result) := callChecks plan moment point i run.slots run.journal s
  (result, { run with slots := slots, journal := journal })

/-- Executes an instruction between the calls of the checks; none if the path ends. -/
def step (plan : Plan) (run : Run) (point : Point) (i : Instruction) (s : State) :
    Option State × Run :=
  match run.checked plan .before point i s with
  | (none, run) => (none, run)
  | (some s, run) =>
    let (s, supply) := plan.setting.execute i run.supply s
    { run with supply := supply }.checked plan .after point i s

/-- How the instructions of a block ended. -/
inductive BlockEnd where
  /-- The run has executed too many instructions. -/
  | exceeded
  /-- The path ended on the way. -/
  | pruned
  /-- An exception was raised. -/
  | raised (s : State)
  /-- All instructions were executed. -/
  | reached (s : State)

/-- Executes instructions one after the other. -/
def executeAll (plan : Plan) (point : Point) : List Instruction → Run → State → BlockEnd × Run
  | [], run, s => (.reached s, run)
  | i :: rest, run, s =>
    let run := run.count .countStep
    if plan.settings.maxSteps < run.statistics.steps then
      (.exceeded, run)
    else
      match run.step plan point i s with
      | (none, run) => (.pruned, run)
      | (some s, run) =>
        if i.operation = .raise then
          (.raised s, run)
        else
          executeAll plan { point with offset := point.offset + 1 } rest run s

/-- Follows the exceptional edges of a block with an empty stack. -/
def raise (plan : Plan) (run : Run) (index : Nat) (s : State) : Except GraphError Run := do
  let s := s.clearStack
  let edges ← plan.procedure.flow.graph.edgesOut index
  return edges.foldl (fun run e =>
    if e.label = .exceptional then run.enter plan e.tail s else run) run

/-- Takes one side of a branch on a condition, if an execution can take it. -/
def takeBranch (plan : Plan) (run : Run) (tail : Nat) (t : Truth) (condition : Value) (s : State) :
    Run :=
  match State.assume condition (.truth t) s with
  | some s => run.enter plan tail s
  | none => run.count .countInfeasible

/-- Whether both sides of a branch lead to the same block. -/
def sameTarget (edges : List FlowEdge) : Bool :=
  match (edges.filter (·.label.isBranch)).map (·.tail) with
  | [a, b] => a == b
  | _ => false

/-- Follows one edge from the end of a block. A branch is followed with the condition taken from the
stack; if both sides lead to the same block it is followed once and says nothing about the
condition. -/
def follow (plan : Plan) (condition : Option (Value × State)) (merged : Bool) (s : State)
    (run : Run) (e : FlowEdge) : Run :=
  match e.label, condition with
  | .jump, _ => run.enter plan e.tail s
  | .exceptional, _ => run.enter plan e.tail s.clearStack
  | .whenTrue, some (value, popped) =>
    if merged then run.enter plan e.tail popped
    else run.takeBranch plan e.tail .holds value popped
  | .whenFalse, some (value, popped) =>
    if merged then run else run.takeBranch plan e.tail .fails value popped
  | _, none => run

/-- Leaves a block through its edges. At a branch the condition is on top of the stack. -/
def leave (plan : Plan) (run : Run) (index : Nat) (s : State) : Except GraphError Run := do
  let edges ← plan.procedure.flow.graph.edgesOut index
  let branches ← plan.procedure.flow.isBranch index
  let condition := if branches then some s.pop else none
  return edges.foldl (follow plan condition (sameTarget edges) s) run

/-- The run behind a block, or as it is if there is no way on. -/
def behind (run : Run) : Except GraphError Run → Except GraphError Bool × Run
  | .ok run => (.ok true, run)
  | .error e => (.error e, run)

/-- Explores a node; false if the run has executed too many instructions, and an error if the flow
graph does not answer a question about the block. -/
def process (plan : Plan) (run : Run) (node : Node) : Except GraphError Bool × Run :=
  match plan.procedure.flow.block node.point.block with
  | .error e => (.error e, run)
  | .ok block =>
    let instructions := block.instructions.drop node.point.offset
    match executeAll plan node.point instructions run node.state with
    | (.exceeded, run) => (.ok false, run)
    | (.pruned, run) => (.ok true, run.count .countInfeasible)
    | (.raised s, run) => run.behind (run.raise plan block.index s)
    | (.reached s, run) => run.behind (run.leave plan block.index s)

end Run

end Pathwise
