import Pathwise.Program.Node
import Pathwise.Program.Symbol

/-!
# Operations on the evaluation stack

Operands are pushed from left to right before the operation that takes them, so that the receiver
of an invocation lies deepest and its last argument on top. Each operation takes a fixed number of
values and pushes at most one.
-/

namespace Pathwise

/-- A binary operator, as far as the analysis tells operators apart. -/
inductive BinaryOperator where
  /-- Equality. -/
  | equals
  /-- Inequality. -/
  | notEquals
  /-- Any other comparison. -/
  | relational
  /-- Any operator on numbers. -/
  | arithmetic
  deriving DecidableEq, Repr, Ord

/-- A binary operator as text. -/
def BinaryOperator.render : BinaryOperator → String
  | .equals => "=="
  | .notEquals => "!="
  | .relational => "<=>"
  | .arithmetic => "+-*/"

/-- What an instruction does. -/
inductive Operation where
  /-- Pushes the value of a variable. -/
  | identifier
  /-- Takes a value and stores it in a variable. -/
  | assign
  /-- Pushes a constant. -/
  | literal (c : Constant)
  /-- Pushes the object whose code runs. -/
  | self
  /-- Takes the arguments and pushes a new object. -/
  | objectCreation (arguments : List NodeId)
  /-- Takes the lengths and pushes a new array. -/
  | arrayCreation (dimensions : List NodeId)
  /-- Takes the arguments and, under them, the receiver if there is one, and pushes the result. -/
  | invocation (arguments : List NodeId) (hasReceiver : Bool)
  /-- Takes an object and pushes one of its members. -/
  | memberAccess
  /-- Takes two values and pushes the result of an operator. -/
  | binary (op : BinaryOperator)
  /-- Takes a condition and pushes its negation. -/
  | logicalNot
  /-- Takes a value and drops it. -/
  | pop
  /-- Ends the procedure, taking the result if it has one. -/
  | ret (hasValue : Bool)
  /-- Takes an exception and raises it. -/
  | raise
  deriving DecidableEq, Repr, Ord

/-- A set of kinds of operations, one bit for each kind. -/
structure Kinds where
  /-- The bits of the kinds in the set. -/
  bits : UInt32
  deriving DecidableEq, Repr

namespace Kinds

/-- The set of the operations with the given place in the list of operations. -/
def single (place : UInt32) : Kinds := ⟨1 <<< place⟩

/-- The set of all kinds. -/
def all : Kinds := ⟨0x1FFF⟩

/-- The kinds in one set or the other. -/
def union (a b : Kinds) : Kinds := ⟨a.bits ||| b.bits⟩

/-- The set of the low bits of a number, those that stand for a kind. -/
def truncate (bits : Nat) : Kinds := ⟨UInt32.ofNat bits &&& all.bits⟩

/-- Whether the two sets have a kind in common. -/
def intersects (a b : Kinds) : Bool := a.bits &&& b.bits != 0

/-- Object creations. -/
def objectCreation : Kinds := single 4

/-- Array creations. -/
def arrayCreation : Kinds := single 5

/-- Invocations. -/
def invocation : Kinds := single 6

/-- Member accesses. -/
def memberAccess : Kinds := single 7

end Kinds

namespace Operation

/-- The kind of an operation. -/
def kind : Operation → Kinds
  | .identifier => .single 0
  | .assign => .single 1
  | .literal _ => .single 2
  | .self => .single 3
  | .objectCreation _ => .objectCreation
  | .arrayCreation _ => .arrayCreation
  | .invocation _ _ => .invocation
  | .memberAccess => .memberAccess
  | .binary _ => .single 8
  | .logicalNot => .single 9
  | .pop => .single 10
  | .ret _ => .single 11
  | .raise => .single 12

/-- How many values the operation takes from the stack. -/
def operandCount : Operation → Nat
  | .identifier => 0
  | .literal _ => 0
  | .self => 0
  | .assign => 1
  | .memberAccess => 1
  | .logicalNot => 1
  | .pop => 1
  | .raise => 1
  | .binary _ => 2
  | .objectCreation arguments => arguments.length
  | .arrayCreation dimensions => dimensions.length
  | .invocation arguments hasReceiver => arguments.length + hasReceiver.toNat
  | .ret hasValue => hasValue.toNat

/-- Whether the operation pushes a value. -/
def pushesValue : Operation → Bool
  | .assign => false
  | .pop => false
  | .ret _ => false
  | .raise => false
  | _ => true

/-- Whether the operation is an invocation. -/
def isInvocation : Operation → Bool
  | .invocation _ _ => true
  | _ => false

/-- Whether the operation is a member access. -/
def isMemberAccess : Operation → Bool
  | .memberAccess => true
  | _ => false

/-- Whether the operation ends the procedure or raises an exception. -/
def isExit : Operation → Bool
  | .ret _ => true
  | .raise => true
  | _ => false

/-- An operation as text. -/
def render : Operation → String
  | .identifier => "identifier"
  | .assign => "assign"
  | .literal c => "literal " ++ c.render
  | .self => "this"
  | .objectCreation arguments => "new(" ++ arguments.length.repr ++ ")"
  | .arrayCreation dimensions => "new[" ++ dimensions.length.repr ++ "]"
  | .invocation arguments true => "call instance(" ++ arguments.length.repr ++ ")"
  | .invocation arguments false => "call static(" ++ arguments.length.repr ++ ")"
  | .memberAccess => "member"
  | .binary op => "binary " ++ op.render
  | .logicalNot => "not"
  | .pop => "pop"
  | .ret true => "return value"
  | .ret false => "return"
  | .raise => "throw"

end Operation

end Pathwise
