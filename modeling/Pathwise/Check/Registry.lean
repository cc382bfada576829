import Pathwise.Rule.NullDereference
import Pathwise.Rule.RepeatedDispose
import Pathwise.Rule.WeakSalt

/-!
# The checks that can be applied

A registry has one check for each rule. Checks are applied in the order of their rules, those of
them whose rule is wanted. Which rules these are is one of the settings of an exploration; the
others are its bounds.
-/

namespace Pathwise

/-- How far to explore and which rules to apply. -/
structure Settings where
  /-- How often a loop header is entered before its state is widened. -/
  loopVisitLimit : Nat
  /-- How many instructions are executed before a run is given up. -/
  maxSteps : Nat
  /-- The rules that are wanted; all of them without a list. -/
  enabledChecks : Option (SortedSet String)

namespace Settings

/-- Two visits, ten thousand steps, all rules. -/
def standard : Settings := ⟨2, 10000, none⟩

/-- Whether a rule is wanted. -/
def isEnabled (s : Settings) (rule : String) : Bool :=
  match s.enabledChecks with
  | some rules => rules.contains rule
  | none => true

end Settings

/-- The checks by rule. -/
structure Registry where
  /-- The check of each rule. -/
  checks : SortedMap String Check

namespace Registry

/-- The registry without checks. -/
def empty : Registry := ⟨.empty⟩

/-- Adds a check in place of an earlier one for the same rule. -/
def register (r : Registry) (c : Check) : Registry := ⟨r.checks.insert c.rule c⟩

/-- The registry of the three rules of this library. -/
def standard : Registry :=
  ((empty.register Rule.nullDereference).register Rule.repeatedDispose).register Rule.weakSalt

/-- The rules that have a check. -/
def rules (r : Registry) : List String := r.checks.keys

/-- The checks that both the settings and the sink want. -/
def enabled (r : Registry) (settings : Settings) (sink : Sink) : List Check :=
  (r.checks.entries.filter fun e => settings.isEnabled e.1 && sink.isEnabled e.1).map (·.2)

end Registry

end Pathwise
