import Pathwise.Check.Basic
import Pathwise.Rule.NullDereference

/-!
# Objects disposed more than once

`Dispose()` on an object that has already been disposed on the path is reported.
-/

namespace Pathwise.Rule

/-- The identifier of the rule on repeated disposal. -/
def repeatedDisposeId : String := "S3966"

/-- Whether the instruction calls a method `Dispose` without arguments. -/
def callsDispose (site : Site) : Bool :=
  match site.method with
  | some m => m.name == "Dispose" && (site.argumentNode 0).isNone
  | none => false

/-- Looks at the object before it is disposed. -/
def beforeDispose : Hook := fun site s journal =>
  if !callsDispose site then
    (.goOn s, journal)
  else
    match site.receiver s with
    | none => (.goOn s, journal)
    | some object =>
      if object.isUnknown then
        (.goOn s, journal)
      else if s.holds object (.disposal .disposed) then
        let message :=
          "Refactor this code to make sure '" ++ nameOf s object "object" ++
            "' is disposed only once."
        (.goOn s, journal.add (site.diagnostic message))
      else
        (.goOn (s.overwrite object (.disposal .disposed)), journal)

/-- The check for repeated disposal. -/
def repeatedDispose : Check := ⟨repeatedDisposeId, Kinds.invocation, beforeDispose, Hook.pass⟩

end Pathwise.Rule
