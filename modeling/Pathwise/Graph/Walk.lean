import Pathwise.Graph.Basic

/-!
# Walks through a graph

A depth-first walk keeps what is still to be done on a stack. It takes neighbours in increasing
order, and the order in which it leaves the vertices, turned round, is reverse post order. Where
only the vertices matter and not their order, a search keeps those that it has found but not yet
gone on from. An edge is retreating if its tail comes no later than its head in reverse post order;
each retreating edge closes a cycle, and the cycles that share such a tail form a loop.
-/

namespace Pathwise

/-- How far a depth-first walk has come. -/
structure Walk where
  /-- The vertices entered so far. -/
  seen : List Nat
  /-- The vertices left so far, the last one first. -/
  left : List Nat
  deriving DecidableEq, Repr

/-- What a depth-first walk has still to do. -/
inductive Errand where
  /-- A vertex is to be entered, unless it was entered meanwhile. -/
  | enter (v : Nat)
  /-- A vertex is to be left, after all that lies above it on the stack. -/
  | leave (v : Nat)
  deriving DecidableEq, Repr

namespace Walk

/-- The walk before its first vertex. -/
def start : Walk := ⟨[], []⟩

/-- Puts a neighbour on the stack unless it was entered before. Further down it may be on the stack
already: it is entered when it is met first, and passed over when it is met again. -/
def push (seen : List Nat) (t : Nat) (stack : List Errand) : List Errand :=
  if t ∈ seen then stack else .enter t :: stack

/-- Does what was on top of the stack. A vertex that is entered is to be left after its neighbours,
of which the first comes to lie on top. -/
def step (next : Nat → List Nat) (w : Walk) : Errand → List Errand → Walk × List Errand
  | .leave v, stack => ({ w with left := v :: w.left }, stack)
  | .enter v, stack =>
    if v ∈ w.seen then
      (w, stack)
    else
      let seen := v :: w.seen
      ({ w with seen := seen }, (next v).foldr (push seen) (.leave v :: stack))

/-- Takes errands off the stack until it is empty, but no more of them than the first argument
says. -/
def run (next : Nat → List Nat) : Nat → Walk → List Errand → Walk
  | 0, w, _ => w
  | _ + 1, w, [] => w
  | steps + 1, w, errand :: stack =>
    run next steps (w.step next errand stack).1 (w.step next errand stack).2

end Walk

/-- How far a search has come. -/
structure Search where
  /-- The vertices found so far. -/
  found : List Nat
  /-- Those of them from which the search has yet to go on, the last one first. -/
  queue : List Nat
  deriving DecidableEq, Repr

namespace Search

/-- Meets a vertex: one that was not found before is found and joins the queue. -/
def meet (s : Search) (v : Nat) : Search :=
  if v ∈ s.found then s else ⟨v :: s.found, v :: s.queue⟩

/-- Goes on from the last vertex in the queue until the queue is empty, but from no more of them
than the first argument says. -/
def run (next : Nat → List Nat) : Nat → Search → Search
  | 0, s => s
  | _ + 1, ⟨found, []⟩ => ⟨found, []⟩
  | steps + 1, ⟨found, v :: queue⟩ => run next steps ((next v).foldl meet ⟨found, queue⟩)

end Search

/-- A loop: a header and the vertices on the ways from the header back to it. -/
structure Loop where
  /-- The vertex through which the loop closes. -/
  header : Nat
  /-- The vertices of the loop, the header included, in increasing order. -/
  nodes : List Nat
  deriving DecidableEq, Repr

namespace Loop

/-- Whether a vertex belongs to the loop. -/
def contains (l : Loop) (v : Nat) : Bool := l.nodes.contains v

/-- The loop as text: its header and its vertices in braces. -/
def render (l : Loop) : String :=
  "Loop " ++ Text.hex l.header ++ ": \x7b" ++ Text.commaSeparated (l.nodes.map Text.hex) ++ "\x7d"

end Loop

namespace Graph

variable {V L : Type}

/-- The successors of a vertex, none for an index without a vertex. -/
def nextOf (g : Graph V L) (v : Nat) : List Nat :=
  match g.outgoing.get? v with
  | some set => set.toList
  | none => []

/-- The predecessors of a vertex, none for an index without a vertex. -/
def previousOf (g : Graph V L) (v : Nat) : List Nat :=
  match g.incoming.get? v with
  | some set => set.toList
  | none => []

/-- How many errands a walk can have: each vertex is left once, and to be entered once for each edge
that leads to it and once more for the root. -/
def errands (g : Graph V L) : Nat :=
  g.indices.foldl (fun n v => n + ((g.nextOf v).length + 1)) 1

/-- The vertices reachable from the root in reverse post order. -/
def reversePostOrder (g : Graph V L) (root : Nat) : Except GraphError (List Nat) :=
  if g.hasVertex root then
    .ok (Walk.start.run g.nextOf g.errands [.enter root]).left
  else
    .error (.vertexNotFound root)

/-- The vertices reachable from the root, the root included, in increasing order. -/
def reachable (g : Graph V L) (root : Nat) : Except GraphError (List Nat) :=
  if g.hasVertex root then
    let search := Search.run g.nextOf g.size ⟨[root], [root]⟩
    .ok (g.indices.filter (· ∈ search.found))
  else
    .error (.vertexNotFound root)

/-- The edges between reachable vertices whose tail comes no later than their head in reverse
post order, by head and tail. -/
def retreatingEdges (g : Graph V L) (root : Nat) : Except GraphError (List Ends) := do
  let order ← g.reversePostOrder root
  let heads := g.indices.filter (· ∈ order)
  return heads.flatMap fun head =>
    ((g.nextOf head).filter fun tail => order.idxOf tail ≤ order.idxOf head).map (⟨head, ·⟩)

/-- The header, and the vertices from which a latch is reached without passing through it: a search
backwards from the latch that does not go on from the header. -/
def towards (g : Graph V L) (header latch : Nat) : List Nat :=
  let back := fun v => if v = header then [] else g.previousOf v
  (Search.run back g.size ⟨[latch, header], [latch]⟩).found

/-- The loop of a header: all that lies on a way from the header to one of its latches. -/
def loopOf (g : Graph V L) (header : Nat) (latches : List Nat) : Except GraphError Loop := do
  let fromHeader ← g.reachable header
  let toLatch := latches.flatMap (g.towards header)
  return ⟨header, fromHeader.filter (· ∈ toLatch)⟩

/-- The loops reachable from the root, one for each tail of a retreating edge, by header. -/
def loops (g : Graph V L) (root : Nat) : Except GraphError (List Loop) := do
  let retreating ← g.retreatingEdges root
  let headers := g.indices.filter fun v => retreating.any (·.tail == v)
  headers.mapM fun header =>
    g.loopOf header ((retreating.filter (·.tail == header)).map (·.head))

end Graph

end Pathwise
