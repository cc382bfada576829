import Pathwise.Graph.Dot
import Pathwise.Graph.Walk
import Pathwise.Program.Block

/-!
# Control flow between blocks

A flow graph is a graph of blocks with an entry. Its edges say when control goes from one block to
another: always, when the condition at the end of the block holds or fails, or when an exception
is raised. Blocks made one after the other get increasing indices.
-/

namespace Pathwise

/-- When control takes an edge. -/
inductive Transfer where
  /-- Always, at the end of the block. -/
  | jump
  /-- When the condition holds. -/
  | whenTrue
  /-- When the condition fails. -/
  | whenFalse
  /-- When the block is left by an exception. -/
  | exceptional
  deriving DecidableEq, Repr, Ord

namespace Transfer

/-- Whether the edge is one side of a branch. -/
def isBranch : Transfer → Bool
  | .whenTrue => true
  | .whenFalse => true
  | _ => false

/-- A transfer as text, empty for a plain jump. -/
def render : Transfer → String
  | .jump => ""
  | .whenTrue => "true"
  | .whenFalse => "false"
  | .exceptional => "exception"

/-- The line style of an edge in a drawing. -/
def style : Transfer → String
  | .exceptional => "dashed"
  | _ => "solid"

end Transfer

/-- An edge between blocks. -/
abbrev FlowEdge := Edge Transfer

/-- An edge as text: its ends in parentheses, and when it is taken unless always. -/
def FlowEdge.render (e : FlowEdge) : String :=
  let ends := "(" ++ Text.hex e.head ++ "->" ++ Text.hex e.tail ++ ")"
  match e.label with
  | .jump => ends
  | transfer => ends ++ " ? " ++ transfer.render

/-- A graph of blocks with an entry. -/
structure FlowGraph where
  /-- The blocks and the edges between them. -/
  graph : Graph Block Transfer
  /-- The index of the next block to be made. -/
  nextIndex : Nat
  /-- The block in which execution starts. -/
  entry : Option Nat
  deriving DecidableEq

namespace FlowGraph

/-- The graph without blocks. -/
def empty : FlowGraph := ⟨.empty, 0, none⟩

/-- The blocks by index. -/
def blocks (g : FlowGraph) : List Block := g.graph.vertices.values

/-- The edges by head and tail. -/
def edges (g : FlowGraph) : List FlowEdge := g.graph.edges

/-- The block with an index. -/
def block (g : FlowGraph) (index : Nat) : Except GraphError Block := g.graph.vertex index

/-- Makes an empty block with the next index. -/
def newBlock (g : FlowGraph) : Except GraphError Nat × FlowGraph :=
  let index := g.nextIndex
  match g.graph.insertVertex index ⟨index, []⟩ with
  | .ok graph => (.ok index, { g with graph := graph, nextIndex := index + 1 })
  | .error e => (.error e, { g with nextIndex := index + 1 })

/-- Changes a block. -/
def modifyBlock (g : FlowGraph) (index : Nat) (f : Block → Block) : Except GraphError FlowGraph :=
  (g.graph.modifyVertex index f).map fun graph => { g with graph := graph }

/-- Adds an edge. -/
def connect (g : FlowGraph) (head tail : Nat) (transfer : Transfer) : Except GraphError FlowGraph :=
  (g.graph.insertEdge ⟨head, tail, transfer⟩).map fun graph => { g with graph := graph }

/-- Adds the edge for a condition that holds and then the one for a condition that fails. The
first stays if the second is refused. -/
def branch (g : FlowGraph) (head whenTrue whenFalse : Nat) : Except GraphError Unit × FlowGraph :=
  match g.connect head whenTrue .whenTrue with
  | .error e => (.error e, g)
  | .ok half =>
    match half.connect head whenFalse .whenFalse with
    | .error e => (.error e, half)
    | .ok whole => (.ok (), whole)

/-- Makes a block the entry. -/
def setEntry (g : FlowGraph) (index : Nat) : Except GraphError FlowGraph :=
  if g.graph.hasVertex index then
    .ok { g with entry := some index }
  else
    .error (.vertexNotFound index)

/-- Whether a block ends in a branch. -/
def isBranch (g : FlowGraph) (index : Nat) : Except GraphError Bool :=
  (g.graph.edgesOut index).map fun edges => edges.any fun e => e.label.isBranch

/-- The instruction that decides the branch at the end of a block, none if there is no branch. -/
def condition (g : FlowGraph) (index : Nat) : Except GraphError (Option Instruction) := do
  if ← g.isBranch index then
    return (← g.block index).last?
  else
    return none

/-- A flow graph as text: its blocks with a blank line behind each, then its edges. -/
def render (g : FlowGraph) : String :=
  String.join (g.blocks.map fun b => b.render ++ "\n") ++
    String.join (g.edges.map fun e => "edge " ++ FlowEdge.render e ++ "\n")

/-- How blocks and edges are drawn. -/
def drawing : Graph.Drawing Block Transfer := ⟨Block.render, Transfer.render, Transfer.style⟩

/-- The drawing of a flow graph. -/
def dot (g : FlowGraph) : String := g.graph.dot drawing

/-- Adds blocks at their own indices, in order. -/
def insertBlocks (g : FlowGraph) : List Block → Except GraphError FlowGraph
  | [] => .ok g
  | b :: rest =>
    match g.graph.insertVertex b.index b with
    | .ok graph =>
      insertBlocks { g with graph := graph, nextIndex := max g.nextIndex (b.index + 1) } rest
    | .error e => .error e

/-- Adds edges in order. -/
def insertEdges (g : FlowGraph) : List FlowEdge → Except GraphError FlowGraph
  | [] => .ok g
  | e :: rest =>
    match g.graph.insertEdge e with
    | .ok graph => insertEdges { g with graph := graph } rest
    | .error e => .error e

/-- The flow graph with the given blocks, edges and entry: first the blocks are put in, then the
edges, each in order, and last the entry. -/
def ofParts (entry : Option Nat) (blocks : List Block) (edges : List FlowEdge) :
    Except GraphError FlowGraph := do
  let withBlocks ← empty.insertBlocks blocks
  let withEdges ← withBlocks.insertEdges edges
  match entry with
  | some index => withEdges.setEntry index
  | none => return withEdges

end FlowGraph

end Pathwise
