import Pathwise.Graph.Basic
import Pathwise.Program.Operation

/-!
# Instructions and blocks

An instruction evaluates one syntax node. A block is a run of instructions that are executed one
after the other.
-/

namespace Pathwise

/-- An operation at a syntax node. -/
structure Instruction where
  /-- The node that the instruction evaluates. -/
  node : NodeId
  /-- What it does. -/
  operation : Operation
  /-- Where the node stands in the source. -/
  span : Option Span
  deriving DecidableEq, Repr, Ord

/-- An instruction as text: node, operation, and the place if it is known. -/
def Instruction.render (i : Instruction) : String :=
  let place := match i.span with
    | some span => " @ " ++ span.render
    | none => ""
  i.node.render ++ " " ++ i.operation.render ++ place

/-- A run of instructions. -/
structure Block where
  /-- The index of the block. -/
  index : Nat
  /-- Its instructions in the order of execution. -/
  instructions : List Instruction
  deriving DecidableEq, Repr, Ord

namespace Block

/-- The instruction at an offset. -/
def instruction? (b : Block) (offset : Nat) : Option Instruction := b.instructions[offset]?

/-- The last instruction. -/
def last? (b : Block) : Option Instruction := b.instructions.getLast?

/-- Adds an instruction at the end. -/
def push (b : Block) (i : Instruction) : Block :=
  { b with instructions := b.instructions ++ [i] }

/-- Keeps the first instructions. -/
def truncate (b : Block) (length : Nat) : Block :=
  { b with instructions := b.instructions.take length }

/-- Changes the place of the instruction at an offset. -/
def setSpan (b : Block) (offset : Nat) (span : Option Span) : Block :=
  { b with instructions := b.instructions.modify offset fun i => { i with span := span } }

/-- A block as text: a heading, and one line per instruction. -/
def render (b : Block) : String :=
  "[ Block: " ++ Text.hex b.index ++ " ]\n" ++
    String.join (b.instructions.map fun i => i.render ++ "\n")

end Block

end Pathwise
