import Pathwise.Check.Registry
import Pathwise.Explore.Execute
import Pathwise.Program.Procedure

/-!
# What a run is to explore

A plan is made from a procedure of admitted shape. It knows for each loop header which variables
the loop assigns.
-/

namespace Pathwise

/-- The answers of whoever may ask a run to end, one for each time the run asks. -/
abbrev Polls := Nat → Bool

/-- What stays the same throughout a run. -/
structure Plan where
  /-- The procedure. -/
  procedure : Procedure
  /-- Its entry block. -/
  entry : Nat
  /-- What the meaning of instructions depends on. -/
  setting : Setting
  /-- The bounds of the run. -/
  settings : Settings
  /-- The variables assigned in each loop, by header. -/
  assigned : SortedMap Nat (SortedSet Symbol)
  /-- Whom the run asks whether to end, if anyone. -/
  polls : Option Polls

namespace Plan

/-- The variables that instructions assign. -/
def assignedBy (semantics : Semantics) (instructions : List Instruction) : List Symbol :=
  instructions.filterMap fun i =>
    if i.operation = .assign then semantics.symbol i.node else none

/-- The variables that the blocks of a loop assign. -/
def assignedIn (flow : FlowGraph) (semantics : Semantics) (l : Loop) :
    Except GraphError (SortedSet Symbol) := do
  let blocks ← l.nodes.mapM flow.block
  return .ofMembers (blocks.flatMap fun b => assignedBy semantics b.instructions)

/-- Plans the exploration of a procedure of admitted shape. -/
def prepare (procedure : Procedure) (setting : Setting) (settings : Settings)
    (polls : Option Polls) : Except ProgramError Plan := do
  procedure.validate
  let flow := procedure.flow
  let entry ← match flow.entry with
    | some index => .ok index
    | none => .error .noEntry
  let loops ← flow.loops
  let assigned ← (loops.mapM (assignedIn flow setting.semantics)).mapError .graph
  return ⟨procedure, entry, setting, settings, .ofList ((loops.map (·.header)).zip assigned), polls⟩

end Plan

end Pathwise
