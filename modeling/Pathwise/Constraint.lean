/-!
# Constraints on values

A constraint is a member of one of five domains. The two members of a domain exclude each other,
so a set of constraints holds at most one member of each.
-/

namespace Pathwise

/-- The domains of constraints. -/
inductive Domain where
  /-- Whether a reference is null. -/
  | nullability
  /-- Whether a condition holds. -/
  | truth
  /-- Whether an object has been disposed. -/
  | disposal
  /-- Whether the content of a byte array is predictable. -/
  | byteArray
  /-- Whether a salt is long enough. -/
  | saltSize
  deriving DecidableEq, Repr, Ord

/-- Whether a reference is null. -/
inductive Nullability where
  /-- It is null. -/
  | null
  /-- It is not null. -/
  | notNull
  deriving DecidableEq, Repr, Ord

/-- The other member. -/
def Nullability.opposite : Nullability → Nullability
  | .null => .notNull
  | .notNull => .null

/-- Whether a condition holds. -/
inductive Truth where
  /-- It holds. -/
  | holds
  /-- It fails. -/
  | fails
  deriving DecidableEq, Repr, Ord

/-- The other member. -/
def Truth.opposite : Truth → Truth
  | .holds => .fails
  | .fails => .holds

/-- The constraint that a truth value satisfies. -/
def Truth.ofBool : Bool → Truth
  | true => .holds
  | false => .fails

/-- Whether an object has been disposed. -/
inductive Disposal where
  /-- It has. -/
  | disposed
  /-- It has not. -/
  | notDisposed
  deriving DecidableEq, Repr, Ord

/-- The other member. -/
def Disposal.opposite : Disposal → Disposal
  | .disposed => .notDisposed
  | .notDisposed => .disposed

/-- Whether the content of a byte array is predictable. -/
inductive ByteArrayContent where
  /-- It is what the program wrote. -/
  | constant
  /-- It has been overwritten with random bytes. -/
  | modified
  deriving DecidableEq, Repr, Ord

/-- The other member. -/
def ByteArrayContent.opposite : ByteArrayContent → ByteArrayContent
  | .constant => .modified
  | .modified => .constant

/-- Whether a salt is long enough. -/
inductive SaltSize where
  /-- It is too short. -/
  | short
  /-- It is long enough. -/
  | safe
  deriving DecidableEq, Repr, Ord

/-- The other member. -/
def SaltSize.opposite : SaltSize → SaltSize
  | .short => .safe
  | .safe => .short

/-- A member of some domain. -/
inductive Constraint where
  /-- A member of the nullability domain. -/
  | nullability (n : Nullability)
  /-- A member of the truth domain. -/
  | truth (t : Truth)
  /-- A member of the disposal domain. -/
  | disposal (d : Disposal)
  /-- A member of the byte array domain. -/
  | byteArray (b : ByteArrayContent)
  /-- A member of the salt size domain. -/
  | saltSize (s : SaltSize)
  deriving DecidableEq, Repr, Ord

namespace Constraint

/-- The domain of a constraint. -/
def domain : Constraint → Domain
  | .nullability _ => .nullability
  | .truth _ => .truth
  | .disposal _ => .disposal
  | .byteArray _ => .byteArray
  | .saltSize _ => .saltSize

/-- The other member of the domain. -/
def opposite : Constraint → Constraint
  | .nullability n => .nullability n.opposite
  | .truth t => .truth t.opposite
  | .disposal d => .disposal d.opposite
  | .byteArray b => .byteArray b.opposite
  | .saltSize s => .saltSize s.opposite

/-- The nullability that a constraint asserts. -/
def nullability? : Constraint → Option Nullability
  | .nullability n => some n
  | _ => none

/-- The truth that a constraint asserts. -/
def truth? : Constraint → Option Truth
  | .truth t => some t
  | _ => none

end Constraint

namespace Domain

/-- All domains in order. -/
def all : List Domain := [.nullability, .truth, .disposal, .byteArray, .saltSize]

/-- A domain as text. -/
def render : Domain → String
  | .nullability => "Nullability"
  | .truth => "Bool"
  | .disposal => "Disposal"
  | .byteArray => "ByteArray"
  | .saltSize => "SaltSize"

end Domain

/-- A constraint as text: the name of the member. -/
def Constraint.render : Constraint → String
  | .nullability .null => "Null"
  | .nullability .notNull => "NotNull"
  | .truth .holds => "True"
  | .truth .fails => "False"
  | .disposal .disposed => "Disposed"
  | .disposal .notDisposed => "NotDisposed"
  | .byteArray .constant => "Constant"
  | .byteArray .modified => "Modified"
  | .saltSize .short => "Short"
  | .saltSize .safe => "Safe"

/-- A set of constraints with at most one member of each domain. -/
structure ConstraintSet where
  /-- The member of the nullability domain. -/
  nullability : Option Nullability
  /-- The member of the truth domain. -/
  truth : Option Truth
  /-- The member of the disposal domain. -/
  disposal : Option Disposal
  /-- The member of the byte array domain. -/
  byteArray : Option ByteArrayContent
  /-- The member of the salt size domain. -/
  saltSize : Option SaltSize
  deriving DecidableEq, Repr, Ord

namespace ConstraintSet

/-- The set without members. -/
def empty : ConstraintSet := ⟨none, none, none, none, none⟩

/-- The member of a domain. -/
def get? (s : ConstraintSet) : Domain → Option Constraint
  | .nullability => s.nullability.map .nullability
  | .truth => s.truth.map .truth
  | .disposal => s.disposal.map .disposal
  | .byteArray => s.byteArray.map .byteArray
  | .saltSize => s.saltSize.map .saltSize

/-- Adds a constraint in place of another member of its domain. -/
def insert (s : ConstraintSet) : Constraint → ConstraintSet
  | .nullability n => { s with nullability := some n }
  | .truth t => { s with truth := some t }
  | .disposal d => { s with disposal := some d }
  | .byteArray b => { s with byteArray := some b }
  | .saltSize z => { s with saltSize := some z }

/-- Removes the member of a domain. -/
def erase (s : ConstraintSet) : Domain → ConstraintSet
  | .nullability => { s with nullability := none }
  | .truth => { s with truth := none }
  | .disposal => { s with disposal := none }
  | .byteArray => { s with byteArray := none }
  | .saltSize => { s with saltSize := none }

/-- The members in the order of their domains. -/
def toList (s : ConstraintSet) : List Constraint := Domain.all.filterMap s.get?

/-- Whether there is no member. -/
def isEmpty (s : ConstraintSet) : Bool := s.toList.isEmpty

/-- A set as text: its members in braces. -/
def render (s : ConstraintSet) : String :=
  "\x7b" ++ ", ".intercalate (s.toList.map Constraint.render) ++ "\x7d"

end ConstraintSet

end Pathwise
