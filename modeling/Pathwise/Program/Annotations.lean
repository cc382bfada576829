import Pathwise.Program.Operation
import Pathwise.SortedMap

/-!
# What is known about syntax nodes

The engine resolves no names. It asks what a node refers to, and a node about which nothing is
known has an unknown value. Annotations answer from four tables.
-/

namespace Pathwise

/-- The questions that can be asked about a syntax node. -/
structure Semantics where
  /-- The variable that the node names. -/
  symbol : NodeId → Option Symbol
  /-- The type of the node. -/
  typeOf : NodeId → Option String
  /-- The method that the node calls. -/
  method : NodeId → Option MethodRef
  /-- The value of the node, if it is a constant. -/
  constant : NodeId → Option Constant

/-- Tables of what is known about nodes. -/
structure Annotations where
  /-- The variables that nodes name. -/
  symbols : SortedMap NodeId Symbol
  /-- The types of nodes. -/
  types : SortedMap NodeId String
  /-- The methods that nodes call. -/
  methods : SortedMap NodeId MethodRef
  /-- The values of constant nodes. -/
  constants : SortedMap NodeId Constant
  deriving DecidableEq

namespace Annotations

/-- Nothing is known. -/
def empty : Annotations := ⟨.empty, .empty, .empty, .empty⟩

/-- The answers that the tables give. -/
def semantics (a : Annotations) : Semantics :=
  ⟨a.symbols.get?, a.types.get?, a.methods.get?, a.constants.get?⟩

end Annotations

end Pathwise
