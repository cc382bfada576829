import Pathwise.Program.Node
import Pathwise.SortedMap

/-!
# Diagnostics

A diagnostic is what a rule has to say about an instruction. A report keeps the first diagnostic
of each rule and key; a sink keeps all diagnostics that completed analyses deliver.
-/

namespace Pathwise

/-- A defect found by a rule. -/
structure Diagnostic where
  /-- The rule. -/
  rule : String
  /-- The node of the instruction. -/
  node : NodeId
  /-- The place of the instruction. -/
  span : Option Span
  /-- What the rule says. -/
  message : String
  /-- What makes two diagnostics of a rule the same defect. -/
  key : String
  deriving DecidableEq, Repr

namespace Diagnostic

/-- Compares rule, node, place, message and key, in this order. -/
def order : Diagnostic → Diagnostic → Ordering :=
  compareLex (compareOn Diagnostic.rule) <| compareLex (compareOn Diagnostic.node) <|
    compareLex (compareOn Diagnostic.span) <| compareLex (compareOn Diagnostic.message) <|
      compareOn Diagnostic.key

instance : Ord Diagnostic := ⟨order⟩

instance : Std.TransOrd Diagnostic :=
  inferInstanceAs <| Std.TransCmp <|
    compareLex (compareOn Diagnostic.rule) <| compareLex (compareOn Diagnostic.node) <|
      compareLex (compareOn Diagnostic.span) <| compareLex (compareOn Diagnostic.message) <|
        compareOn Diagnostic.key

/-- A diagnostic as text: the rule, the place or else the node, and the message. -/
def render (d : Diagnostic) : String :=
  let place := match d.span with
    | some span => span.render
    | none => d.node.render
  d.rule ++ " " ++ place ++ ": " ++ d.message

/-- The diagnostics in order. -/
def sorted (ds : List Diagnostic) : List Diagnostic :=
  ds.mergeSort fun a b => (compare a b).isLE

end Diagnostic

/-- The diagnostics of a run, the first of each rule and key, in the order in which they came. -/
structure Report where
  /-- The diagnostics, the first one first. -/
  diagnostics : List Diagnostic
  deriving DecidableEq, Repr

namespace Report

/-- The report without diagnostics. -/
def empty : Report := ⟨[]⟩

/-- Whether the rule has already reported the key. -/
def has (r : Report) (rule key : String) : Bool :=
  r.diagnostics.any fun d => d.rule == rule && d.key == key

/-- Adds a diagnostic unless its rule has already reported its key. -/
def add (r : Report) (d : Diagnostic) : Report :=
  if r.has d.rule d.key then r else ⟨r.diagnostics ++ [d]⟩

end Report

/-- Where diagnostics are delivered. -/
structure Sink where
  /-- The diagnostics in the order in which they were delivered. -/
  delivered : List Diagnostic
  /-- The rules that the sink does not want. -/
  disabled : SortedSet String

namespace Sink

/-- An empty sink that does not want some rules. -/
def withDisabled (rules : List String) : Sink := ⟨[], .ofMembers rules⟩

/-- Whether the sink wants a rule. -/
def isEnabled (s : Sink) (rule : String) : Bool := !s.disabled.contains rule

/-- Delivers a diagnostic. -/
def emit (s : Sink) (d : Diagnostic) : Sink := { s with delivered := s.delivered ++ [d] }

/-- Delivers diagnostics in order. -/
def emitAll (s : Sink) (ds : List Diagnostic) : Sink := ds.foldl emit s

/-- What has been delivered, in the order of diagnostics. -/
def diagnostics (s : Sink) : List Diagnostic := Diagnostic.sorted s.delivered

end Sink

end Pathwise
