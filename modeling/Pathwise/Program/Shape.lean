import Pathwise.Program.Flow

/-!
# The shapes that can be explored

Apart from exceptional edges, a block leaves through nothing, through one jump, or through one edge
for each outcome of a condition that its last instruction pushes. The check names the first block,
by index, that does otherwise.
-/

namespace Pathwise

/-- What keeps a flow graph from being explored. -/
inductive Malformation where
  /-- There is no entry block. -/
  | noEntry
  /-- A block has several jumps. -/
  | severalJumps (block count : Nat)
  /-- A block has branch edges other than one for each outcome, or a jump beside them. -/
  | unevenBranch (block : Nat)
  /-- The last instruction of a branch block pushes no value. -/
  | noCondition (block : Nat)
  deriving DecidableEq, Repr

/-- The wording of a malformation. -/
def Malformation.reason : Malformation → String
  | .noEntry => "no entry block"
  | .severalJumps block count =>
    "block " ++ Text.hex block ++ " has " ++ count.repr ++ " unconditional successors"
  | .unevenBranch block =>
    "block " ++ Text.hex block ++ " must branch through exactly one true and one false edge"
  | .noCondition block => "branch block " ++ Text.hex block ++ " does not end with a condition"

/-- Why a question about a program has no answer. -/
inductive ProgramError where
  /-- The graph refuses. -/
  | graph (e : GraphError)
  /-- There is no entry block to ask about. -/
  | noEntry
  /-- A block has no instruction at this offset. -/
  | instructionNotFound (block offset : Nat)
  /-- The flow graph, of a procedure if a name is given, cannot be explored. -/
  | unsupported (procedure : Option String) (m : Malformation)
  deriving DecidableEq, Repr

/-- The wording of an error. -/
def ProgramError.message : ProgramError → String
  | .graph e => e.message
  | .noEntry => "The control flow graph has no entry block"
  | .instructionNotFound block offset =>
    "Instruction " ++ offset.repr ++ " not found in block " ++ block.repr
  | .unsupported none m => "Unsupported procedure: " ++ m.reason
  | .unsupported (some name) m => "Unsupported procedure: " ++ name ++ ": " ++ m.reason

namespace FlowGraph

/-- The entry block. -/
def entryBlock (g : FlowGraph) : Except ProgramError Block :=
  match g.entry with
  | none => .error .noEntry
  | some index => (g.block index).mapError .graph

/-- The loops reachable from the entry, by header. -/
def loops (g : FlowGraph) : Except ProgramError (List Loop) :=
  match g.entry with
  | none => .error .noEntry
  | some index => (g.graph.loops index).mapError .graph

/-- The instruction at an offset of a block. -/
def instruction (g : FlowGraph) (index offset : Nat) : Except ProgramError Instruction :=
  match g.block index with
  | .error e => .error (.graph e)
  | .ok block =>
    match block.instruction? offset with
    | some i => .ok i
    | none => .error (.instructionNotFound index offset)

/-- Changes the place of the instruction at an offset of a block. -/
def setSpan (g : FlowGraph) (index offset : Nat) (span : Option Span) :
    Except ProgramError FlowGraph := do
  let _ ← g.instruction index offset
  (g.modifyBlock index (·.setSpan offset span)).mapError .graph

/-- What is wrong with the edges that leave a block. -/
def malformation? (b : Block) (out : List FlowEdge) : Option Malformation :=
  let count (t : Transfer) := out.countP fun e => e.label == t
  let jumps := count .jump
  let trues := count .whenTrue
  let falses := count .whenFalse
  if 1 < jumps then
    some (.severalJumps b.index jumps)
  else if trues + falses = 0 then
    none
  else if 0 < jumps ∨ trues ≠ 1 ∨ falses ≠ 1 then
    some (.unevenBranch b.index)
  else
    match b.last? with
    | some i => if i.operation.pushesValue then none else some (.noCondition b.index)
    | none => some (.noCondition b.index)

/-- Checks blocks in order. -/
def checkBlocks (g : FlowGraph) : List Block → Except ProgramError Unit
  | [] => .ok ()
  | b :: rest =>
    match g.graph.edgesOut b.index with
    | .error e => .error (.graph e)
    | .ok out =>
      match malformation? b out with
      | some m => .error (.unsupported none m)
      | none => checkBlocks g rest

/-- Checks that the flow graph has an entry and that every block has an admitted shape. -/
def validate (g : FlowGraph) : Except ProgramError Unit :=
  match g.entry with
  | none => .error (.unsupported none .noEntry)
  | some _ => g.checkBlocks g.blocks

end FlowGraph

end Pathwise
