import Pathwise.Diagnostic
import Pathwise.Program.Annotations
import Pathwise.Program.Block
import Pathwise.State.Basic

/-!
# Checks

A check looks at the instructions that it is interested in, before and after they are executed. It
may report, change the state, end the path, or fail. What it learns about a path it keeps in the
constraints of the state; what it tells the outside world goes into the journal of the run.
-/

namespace Pathwise

/-- A place in a procedure: a block, an offset in it, and how often the block had been entered. -/
structure Point where
  /-- The block. -/
  block : Nat
  /-- The offset of an instruction in the block. -/
  offset : Nat
  /-- How often the block had been entered, for a loop header; zero for any other block. -/
  visits : Nat
  deriving DecidableEq, Repr

namespace Point

/-- Whether two points are the same place, however often it had been entered. -/
def samePlace (p q : Point) : Bool := p.block == q.block && p.offset == q.offset

/-- A point as text: the block and the offset. -/
def render (p : Point) : String := Text.hex p.block ++ ":" ++ Text.twoDigits p.offset

end Point

/-- When a check is called. -/
inductive Moment where
  /-- Before the instruction, with its operands still on the stack. -/
  | before
  /-- After the instruction, with its result on top of the stack. -/
  | after
  deriving DecidableEq, Repr

/-- A moment as text. -/
def Moment.render : Moment → String
  | .before => "pre"
  | .after => "post"

/-- What a check observed. -/
structure Note where
  /-- The rule of the check. -/
  rule : String
  /-- When it was called. -/
  moment : Moment
  /-- Where it was called. -/
  point : Point
  /-- The state that it was given. -/
  state : State

/-- What the checks of a run have told the outside world. -/
structure Journal where
  /-- The diagnostics. -/
  report : Report
  /-- What was observed, the last observation first. -/
  notes : List Note
  /-- Whether a check has asked to end the run. -/
  cancelled : Bool

/-- The journal before the first instruction. -/
def Journal.start : Journal := ⟨.empty, [], false⟩

/-- What a check knows about the instruction at hand. -/
structure Site where
  /-- The rule of the check. -/
  rule : String
  /-- Where the instruction is. -/
  point : Point
  /-- The instruction. -/
  instruction : Instruction
  /-- What is known about syntax nodes. -/
  semantics : Semantics

namespace Site

/-- The node of the instruction. -/
def node (x : Site) : NodeId := x.instruction.node

/-- The method that the instruction calls. -/
def method (x : Site) : Option MethodRef := x.semantics.method x.node

/-- The nodes of the arguments or of the lengths that the instruction takes. -/
def argumentNodes (x : Site) : List NodeId :=
  match x.instruction.operation with
  | .objectCreation arguments => arguments
  | .invocation arguments _ => arguments
  | .arrayCreation dimensions => dimensions
  | _ => []

/-- The node of an argument. -/
def argumentNode (x : Site) (index : Nat) : Option NodeId := x.argumentNodes[index]?

/-- The value of an argument, in a state before the instruction. -/
def argument (x : Site) (s : State) (index : Nat) : Option Value :=
  let count := x.argumentNodes.length
  if index < count then some (s.peek (count - 1 - index)) else none

/-- The object of an instance invocation or a member access, in a state before the instruction. -/
def receiver (x : Site) (s : State) : Option Value :=
  match x.instruction.operation with
  | .invocation arguments true => some (s.peek arguments.length)
  | .memberAccess => some (s.peek 0)
  | _ => none

/-- A diagnostic about the instruction with a key of its own. -/
def diagnosticWithKey (x : Site) (key message : String) : Diagnostic :=
  ⟨x.rule, x.node, x.instruction.span, message, key⟩

/-- A diagnostic about the instruction, once for its node. -/
def diagnostic (x : Site) (message : String) : Diagnostic :=
  x.diagnosticWithKey x.node.val.toNat.repr message

end Site

/-- Adds a diagnostic to the report of a journal. -/
def Journal.add (j : Journal) (d : Diagnostic) : Journal := { j with report := j.report.add d }

/-- How a check answers. -/
inductive Verdict where
  /-- The path goes on with this state. -/
  | goOn (s : State)
  /-- The path ends here. -/
  | stop
  /-- The check failed. -/
  | failed (message : String)

/-- What a check does when it is called. -/
abbrev Hook := Site → State → Journal → Verdict × Journal

/-- The hook that does nothing. -/
def Hook.pass : Hook := fun _ s j => (.goOn s, j)

/-- A check. -/
structure Check where
  /-- The rule whose diagnostics it reports. -/
  rule : String
  /-- The operations for which it is called. -/
  interests : Kinds
  /-- What it does before an instruction. -/
  before : Hook
  /-- What it does after an instruction. -/
  after : Hook

namespace Check

/-- What the check does at a moment. -/
def hook (c : Check) : Moment → Hook
  | .before => c.before
  | .after => c.after

/-- Whether the check is called for an instruction. -/
def isInterested (c : Check) (i : Instruction) : Bool := c.interests.intersects i.operation.kind

end Check

/-- Goes on with a state, or ends the path without one. -/
def Verdict.ofOption : Option State → Verdict
  | some s => .goOn s
  | none => .stop

end Pathwise
