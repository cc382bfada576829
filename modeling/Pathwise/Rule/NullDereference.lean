import Pathwise.Check.Basic
import Pathwise.State.Basic

/-!
# Dereferences of null

A member access or instance invocation on a value that is known to be null is reported and ends
the path. After any other one the object is known not to be null.
-/

namespace Pathwise.Rule

/-- The identifier of the rule on null dereferences. -/
def nullDereferenceId : String := "S2259"

/-- The name of the first variable bound to a value. -/
def nameOf (s : State) (v : Value) (otherwise : String) : String :=
  match s.boundTo v with
  | symbol :: _ => symbol.name
  | [] => otherwise

/-- Looks at the object before it is dereferenced. -/
def beforeDereference : Hook := fun site s journal =>
  match site.receiver s with
  | none => (.goOn s, journal)
  | some object =>
    if s.holds object (.nullability .null) then
      let message :=
        "'" ++ nameOf s object "expression" ++ "' is null on at least one execution path."
      (.stop, journal.add (site.diagnostic message))
    else
      (.ofOption (State.assume object (.nullability .notNull) s), journal)

/-- The check for null dereferences. -/
def nullDereference : Check :=
  ⟨nullDereferenceId, Kinds.invocation.union Kinds.memberAccess, beforeDereference, Hook.pass⟩

end Pathwise.Rule
