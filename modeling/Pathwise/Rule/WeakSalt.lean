import Pathwise.Check.Basic
import Pathwise.State.Basic

/-!
# Salts that are short or predictable

A salt for the derivation of a key has to be long and random. A new byte array is predictable, and
too short if its length is a small constant; filling it with random bytes, an effect of the known
methods, undoes both.
-/

namespace Pathwise.Rule

/-- The identifier of the rule on salts. -/
def weakSaltId : String := "S2053"

/-- The least length of a salt. -/
def minimumSaltSize : Int64 := 32

/-- The types that derive keys. -/
def keyDerivationTypes : List String := ["PasswordDeriveBytes", "Rfc2898DeriveBytes"]

/-- The index of the argument that is the salt. -/
def saltArgument : Nat := 1

/-- Whether the instruction creates an array of bytes. An array of unknown type counts as one. -/
def createsBytes (site : Site) : Bool :=
  match site.semantics.typeOf site.node with
  | some type => type == "byte[]"
  | none => true

/-- Whether the instruction derives a key: through a constructor or a static method. -/
def takesSalt (site : Site) : Bool :=
  match site.method with
  | none => false
  | some m =>
    keyDerivationTypes.contains m.containingType &&
      match site.instruction.operation with
      | .objectCreation _ => true
      | .invocation _ hasReceiver => !hasReceiver
      | _ => false

/-- The length of a new array with one dimension, if it is a constant. -/
def constantLength (semantics : Semantics) : List NodeId → Option Int64
  | [node] => (semantics.constant node).bind (·.integer?)
  | _ => none

/-- Looks at the salt before a key is derived. -/
def beforeDerivation : Hook := fun site s journal =>
  if !takesSalt site then
    (.goOn s, journal)
  else
    match site.argument s saltArgument with
    | none => (.goOn s, journal)
    | some salt =>
      if s.holds salt (.saltSize .short) then
        (.goOn s, journal.add (site.diagnostic "Make this salt longer."))
      else if s.holds salt (.byteArray .constant) then
        (.goOn s, journal.add (site.diagnostic "Make this salt unpredictable."))
      else
        (.goOn s, journal)

/-- Marks a new array. -/
def markArray (semantics : Semantics) (dimensions : List NodeId) (s : State) : Option State := do
  let array := s.peek 0
  let s ← State.assume array (.byteArray .constant) s
  match constantLength semantics dimensions with
  | some length =>
    if length < minimumSaltSize then State.assume array (.saltSize .short) s else some s
  | none => some s

/-- Marks an array of bytes after it has been created. -/
def afterCreation : Hook := fun site s journal =>
  match site.instruction.operation with
  | .arrayCreation dimensions =>
    if createsBytes site then
      (.ofOption (markArray site.semantics dimensions s), journal)
    else
      (.goOn s, journal)
  | _ => (.goOn s, journal)

/-- The check for weak salts. -/
def weakSalt : Check :=
  ⟨weakSaltId, (Kinds.arrayCreation.union Kinds.objectCreation).union Kinds.invocation,
    beforeDerivation, afterCreation⟩

end Pathwise.Rule
