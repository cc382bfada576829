import Pathwise.Constraint
import Pathwise.Graph.Basic
import Pathwise.Program.Symbol
import Pathwise.Value.Marks

/-!
# Symbolic values

A symbolic value is an identity. The five shared values have fixed identities; every other value
gets the next free one when it is made, and is the same as another value exactly when the two
identities agree. What a value was made from is kept with it, so that an assumption about a
condition can be carried to its operands.
-/

namespace Pathwise

/-- A symbolic value. -/
inductive Value where
  /-- A value about which nothing is ever recorded. -/
  | unknown
  /-- The null reference. -/
  | null
  /-- The object whose code runs. -/
  | self
  /-- A truth value. -/
  | bool (b : Bool)
  /-- A value of its own. -/
  | fresh (id : Nat)
  /-- What a variable may hold at the header of a loop. -/
  | widened (id : Nat) (header : Nat) (symbol : Symbol)
  /-- Whether two values are equal. -/
  | equal (id : Nat) (left right : Value)
  /-- Whether two values differ. -/
  | notEqual (id : Nat) (left right : Value)
  /-- Whether a condition fails. -/
  | not (id : Nat) (operand : Value)
  deriving Repr, Inhabited

namespace Value

/-- The identity of a value. -/
def id : Value → Nat
  | .unknown => 0
  | .null => 1
  | .self => 2
  | .bool true => 3
  | .bool false => 4
  | .fresh id => id
  | .widened id _ _ => id
  | .equal id _ _ => id
  | .notEqual id _ _ => id
  | .not id _ => id

/-- The first identity that is not the one of a shared value. -/
def firstFree : Nat := 5

/-- Whether two values are the same. -/
def same (v w : Value) : Bool := v.id == w.id

/-- Whether nothing is recorded about the value. -/
def isUnknown (v : Value) : Bool := v.id == unknown.id

/-- Whether the value is the null reference. -/
def isNull (v : Value) : Bool := v.id == null.id

/-- Whether the value is the object whose code runs. -/
def isSelf (v : Value) : Bool := v.id == self.id

/-- The values that a condition was made from. -/
def operands : Value → List Value
  | .equal _ left right => [left, right]
  | .notEqual _ left right => [left, right]
  | .not _ operand => [operand]
  | _ => []

/-- What holds of a value by what it is. -/
def intrinsic : Value → ConstraintSet
  | .null => { ConstraintSet.empty with nullability := some .null }
  | .self => { ConstraintSet.empty with nullability := some .notNull }
  | .bool b =>
    { ConstraintSet.empty with nullability := some .notNull, truth := some (Truth.ofBool b) }
  | _ => .empty

/-- A value as text: a shared value by its name, any other by its identity and what it was made
from. -/
def render : Value → String
  | .unknown => "unknown"
  | .null => "null"
  | .self => "this"
  | .bool true => "true"
  | .bool false => "false"
  | .fresh id => "sv_" ++ id.repr
  | .widened id header symbol =>
    "sv_" ++ id.repr ++ "(" ++ symbol.render ++ "@" ++ Text.hex header ++ ")"
  | .equal id left right => "sv_" ++ id.repr ++ "(" ++ left.render ++ " == " ++ right.render ++ ")"
  | .notEqual id left right =>
    "sv_" ++ id.repr ++ "(" ++ left.render ++ " != " ++ right.render ++ ")"
  | .not id operand => "sv_" ++ id.repr ++ "(!" ++ operand.render ++ ")"

/-- The shared value with a name. -/
def shared? (name : String) : Option Value :=
  [unknown, null, self, bool true, bool false].find? (·.render == name)

/-- How many values a value consists of, itself included. -/
def weight : Value → Nat
  | .equal _ left right => left.weight + right.weight + 1
  | .notEqual _ left right => left.weight + right.weight + 1
  | .not _ operand => operand.weight + 1
  | _ => 1

/-- How many values the values of a list consist of. -/
def totalWeight : List Value → Nat
  | [] => 0
  | v :: vs => v.weight + totalWeight vs

theorem totalWeight_append (vs ws : List Value) :
    totalWeight (vs ++ ws) = totalWeight vs + totalWeight ws := by
  induction vs with
  | nil => simp [totalWeight]
  | cons v vs ih => rw [List.cons_append, totalWeight, totalWeight, ih, Nat.add_assoc]

/-- The operands of a value are less than the value. -/
theorem totalWeight_operands_lt (v : Value) : totalWeight v.operands.reverse < v.weight := by
  cases v <;> simp [operands, totalWeight, weight] <;> omega

/-- Marks the identities of the values in a queue and of all they were made from. A value that is
marked already has been gone through; any other is marked, and its operands join the queue, the last
of them in front. -/
def markAll : List Value → Marks → Marks
  | [], m => m
  | v :: queue, m =>
    if m.has v.id then
      markAll queue m
    else
      markAll (v.operands.reverse ++ queue) (m.add v.id)
termination_by queue => totalWeight queue
decreasing_by
  all_goals
    have hless := totalWeight_operands_lt v
    simp only [totalWeight, totalWeight_append]
    omega

end Value

end Pathwise
