import Pathwise.Graph.Basic

/-!
# Graphs as drawing instructions

A graph is written as a `digraph` with one line per vertex, by index, and one line per edge, by
head and tail. A line break in a label is written as the two characters that end a left-justified
line; every other character of a label is written as it is.
-/

namespace Pathwise.Graph

variable {V L : Type}

/-- A label with each line break as a backslash and the letter `l`. -/
def dotLabel (s : String) : String :=
  String.ofList (s.toList.flatMap fun c => if c = '\n' then ['\\', 'l'] else [c])

/-- How the vertices and edges of a graph are drawn. -/
structure Drawing (V L : Type) where
  /-- The text in the box of a vertex. -/
  vertexLabel : V → String
  /-- The text beside an edge. -/
  edgeLabel : L → String
  /-- The line style of an edge. -/
  edgeStyle : L → String

/-- The line that draws a vertex. -/
def dotVertex (d : Drawing V L) (index : Nat) (v : V) : String :=
  index.repr ++ " [shape=\"box\", label=\"" ++ dotLabel (d.vertexLabel v) ++ "\"];"

/-- The line that draws an edge. -/
def dotEdge (d : Drawing V L) (e : Edge L) : String :=
  e.head.repr ++ " -> " ++ e.tail.repr ++ " [label=\"" ++ dotLabel (d.edgeLabel e.label) ++
    "\", style=\"" ++ d.edgeStyle e.label ++ "\"];"

/-- The whole drawing. -/
def dot (d : Drawing V L) (g : Graph V L) : String :=
  let vertices := g.vertices.entries.map fun (index, v) => dotVertex d index v
  let edges := g.edges.map (dotEdge d)
  "digraph G \x7b\nnode [fontname = \"Courier New\"]\n\n" ++ "\n".intercalate vertices ++ "\n" ++
    "\n".intercalate edges ++ "\n\x7d"

end Pathwise.Graph
