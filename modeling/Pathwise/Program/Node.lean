/-!
# Syntax nodes and source positions

Every instruction carries the identity of the syntax node that it evaluates, and may carry the
place of that node in the source text.
-/

namespace Pathwise

/-- The identity of a syntax node. -/
structure NodeId where
  /-- The number of the node. -/
  val : UInt32
  deriving DecidableEq, Repr, Inhabited

/-- Nodes are ordered by number. -/
instance : Ord NodeId := ⟨compareOn NodeId.val⟩

instance : Std.TransOrd NodeId := inferInstanceAs (Std.TransCmp (compareOn NodeId.val))

instance : Std.LawfulEqOrd NodeId where
  eq_of_compare {a b} h := by
    have hval : compare a.val b.val = .eq := h
    cases a
    cases b
    simp_all

/-- A node as text: its number behind `#`. -/
def NodeId.render (n : NodeId) : String := "#" ++ n.val.toNat.repr

/-- A place in the source text. -/
structure Span where
  /-- The line. -/
  line : UInt32
  /-- The column. -/
  column : UInt32
  deriving DecidableEq, Repr

/-- Places are ordered by line, then by column. -/
instance : Ord Span := ⟨compareLex (compareOn Span.line) (compareOn Span.column)⟩

instance : Std.TransOrd Span :=
  inferInstanceAs (Std.TransCmp (compareLex (compareOn Span.line) (compareOn Span.column)))

instance : Std.LawfulEqOrd Span where
  eq_of_compare {a b} h := by
    obtain ⟨hl, hc⟩ := Ordering.then_eq_eq.1 (h : (compare a.line b.line).then _ = .eq)
    cases a
    cases b
    simp_all [compareOn]

/-- A place as text: line and column with a colon between them. -/
def Span.render (s : Span) : String := s.line.toNat.repr ++ ":" ++ s.column.toNat.repr

end Pathwise
