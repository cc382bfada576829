import Pathwise.SortedMap

/-!
# Directed graphs with numbered vertices

A graph has one vertex per index and any number of edges between two vertices as long as their
labels differ. Edges are kept by the pair of their ends, parallel edges in the order in which
they were inserted, and each vertex keeps the sets of its neighbours, so that a query never
searches all edges. Every change is refused as a whole or made as a whole.

In rendered text an index is shown in upper-case hexadecimal, and an offset behind it in decimal
with at least two digits. Plain decimal numbers are `Nat.repr`.
-/

namespace Pathwise

namespace Text

/-- Hexadecimal digits in upper case behind `0x`, without padding. -/
def hex (n : Nat) : String :=
  "0x" ++ String.ofList ((Nat.toDigits 16 n).map Char.toUpper)

/-- Decimal digits, with a zero in front of a single one. -/
def twoDigits (n : Nat) : String :=
  if n < 10 then "0" ++ n.repr else n.repr

/-- The texts with a comma and a blank between neighbours. -/
def commaSeparated (parts : List String) : String :=
  ", ".intercalate parts

end Text

/-- Why a graph refuses a change or a question. -/
inductive GraphError where
  /-- A vertex with this index is already there. -/
  | duplicateVertex (index : Nat)
  /-- An edge with these ends and the same label is already there. -/
  | duplicateEdge (head tail : Nat)
  /-- No vertex has this index. -/
  | vertexNotFound (index : Nat)
  /-- No edge leads from the head to the tail. -/
  | edgeNotFound (head tail : Nat)
  deriving DecidableEq, Repr

/-- The wording of a graph error. -/
def GraphError.message : GraphError → String
  | .duplicateVertex _ => "duplicate vertex index"
  | .duplicateEdge head tail => "duplicate edge " ++ Text.hex head ++ " -> " ++ Text.hex tail
  | .vertexNotFound index => "Graph vertex not found: " ++ index.repr
  | .edgeNotFound head tail => "Graph edge not found: " ++ head.repr ++ " -> " ++ tail.repr

/-- The two ends of an edge. -/
structure Ends where
  /-- The vertex the edge leaves. -/
  head : Nat
  /-- The vertex the edge enters. -/
  tail : Nat
  deriving DecidableEq, Repr

/-- Ends are ordered by head, then by tail. -/
instance : Ord Ends := ⟨compareLex (compareOn Ends.head) (compareOn Ends.tail)⟩

instance : Std.TransOrd Ends :=
  inferInstanceAs (Std.TransCmp (compareLex (compareOn Ends.head) (compareOn Ends.tail)))

instance : Std.LawfulEqOrd Ends where
  eq_of_compare {a b} h := by
    obtain ⟨hh, ht⟩ := Ordering.then_eq_eq.1 (h : (compare a.head b.head).then _ = .eq)
    cases a
    cases b
    simp_all [compareOn]

/-- An edge with its label. -/
structure Edge (L : Type) where
  /-- The vertex the edge leaves. -/
  head : Nat
  /-- The vertex the edge enters. -/
  tail : Nat
  /-- What tells parallel edges apart. -/
  label : L
  deriving DecidableEq, Repr, Ord

/-- A directed graph with vertices `V` and edge labels `L`. -/
structure Graph (V L : Type) where
  /-- The vertices by index. -/
  vertices : SortedMap Nat V
  /-- The labels of the edges between two vertices, in insertion order. -/
  parallel : SortedMap Ends (List L)
  /-- The tails of the edges that leave a vertex. -/
  outgoing : SortedMap Nat (SortedSet Nat)
  /-- The heads of the edges that enter a vertex. -/
  incoming : SortedMap Nat (SortedSet Nat)
  deriving DecidableEq

namespace Graph

variable {V L : Type}

/-- The graph without vertices. -/
def empty : Graph V L := ⟨.empty, .empty, .empty, .empty⟩

/-- The number of vertices. -/
def size (g : Graph V L) : Nat := g.vertices.size

/-- The indices of the vertices in increasing order. -/
def indices (g : Graph V L) : List Nat := g.vertices.keys

/-- Whether a vertex has this index. -/
def hasVertex (g : Graph V L) (index : Nat) : Bool := g.vertices.contains index

/-- Whether some edge leads from the head to the tail. -/
def hasEdge (g : Graph V L) (head tail : Nat) : Bool := g.parallel.contains ⟨head, tail⟩

/-- Adds a vertex at a free index. -/
def insertVertex (g : Graph V L) (index : Nat) (v : V) : Except GraphError (Graph V L) :=
  if g.hasVertex index then
    .error (.duplicateVertex index)
  else
    .ok { g with
      vertices := g.vertices.insert index v
      outgoing := g.outgoing.insert index .empty
      incoming := g.incoming.insert index .empty }

/-- Adds a member to the set stored for a key, if one is stored. -/
def link (sets : SortedMap Nat (SortedSet Nat)) (key member : Nat) :
    SortedMap Nat (SortedSet Nat) :=
  match sets.get? key with
  | some set => sets.insert key (set.add member)
  | none => sets

/-- Adds an edge between two vertices that differs from the edges already there. -/
def insertEdge [DecidableEq L] (g : Graph V L) (e : Edge L) : Except GraphError (Graph V L) :=
  let labels := (g.parallel.get? ⟨e.head, e.tail⟩).getD []
  if !g.hasVertex e.head then
    .error (.vertexNotFound e.head)
  else if !g.hasVertex e.tail then
    .error (.vertexNotFound e.tail)
  else if e.label ∈ labels then
    .error (.duplicateEdge e.head e.tail)
  else
    .ok { g with
      parallel := g.parallel.insert ⟨e.head, e.tail⟩ (labels ++ [e.label])
      outgoing := link g.outgoing e.head e.tail
      incoming := link g.incoming e.tail e.head }

/-- The vertex with this index. -/
def vertex (g : Graph V L) (index : Nat) : Except GraphError V :=
  match g.vertices.get? index with
  | some v => .ok v
  | none => .error (.vertexNotFound index)

/-- Changes the vertex with this index in place. -/
def modifyVertex (g : Graph V L) (index : Nat) (f : V → V) : Except GraphError (Graph V L) :=
  match g.vertices.get? index with
  | some v => .ok { g with vertices := g.vertices.insert index (f v) }
  | none => .error (.vertexNotFound index)

/-- The tails of the edges that leave a vertex, in increasing order. -/
def successors (g : Graph V L) (index : Nat) : Except GraphError (List Nat) :=
  match g.outgoing.get? index with
  | some set => .ok set.toList
  | none => .error (.vertexNotFound index)

/-- The heads of the edges that enter a vertex, in increasing order. -/
def predecessors (g : Graph V L) (index : Nat) : Except GraphError (List Nat) :=
  match g.incoming.get? index with
  | some set => .ok set.toList
  | none => .error (.vertexNotFound index)

/-- The edges between two vertices, none if the pair has none. -/
def between (g : Graph V L) (ends : Ends) : List (Edge L) :=
  ((g.parallel.get? ends).getD []).map (⟨ends.head, ends.tail, ·⟩)

/-- All edges by head and tail, parallel edges in insertion order. -/
def edges (g : Graph V L) : List (Edge L) :=
  g.parallel.entries.flatMap fun (ends, labels) => labels.map (⟨ends.head, ends.tail, ·⟩)

/-- The edges from the head to the tail, in insertion order; there has to be one. -/
def edgesBetween (g : Graph V L) (head tail : Nat) : Except GraphError (List (Edge L)) :=
  if g.hasEdge head tail then
    .ok (g.between ⟨head, tail⟩)
  else
    .error (.edgeNotFound head tail)

/-- The edges that leave a vertex, by tail. -/
def edgesOut (g : Graph V L) (index : Nat) : Except GraphError (List (Edge L)) :=
  (g.successors index).map fun tails => tails.flatMap fun tail => g.between ⟨index, tail⟩

/-- The edges that enter a vertex, by head. -/
def edgesIn (g : Graph V L) (index : Nat) : Except GraphError (List (Edge L)) :=
  (g.predecessors index).map fun heads => heads.flatMap fun head => g.between ⟨head, index⟩

end Graph

end Pathwise
