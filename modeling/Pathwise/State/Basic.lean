import Pathwise.SortedMap
import Pathwise.Value.Basic

/-!
# The state of a path

A state binds variables to values, holds the evaluation stack, and records constraints on values
by identity. Taking a value from an empty stack gives the unknown value, about which nothing is
ever recorded.

Assuming a constraint on a value records it, unless the value already holds the other member of the
domain: then no execution takes the path. The truth of a condition says something about the values
it was made from, and is carried on to them.

A value is live if a variable or the stack holds it or something made from it. What is recorded
about other values is dropped when a state is cleaned, so that states which differ in nothing that
is still in use become equal.
-/

namespace Pathwise

/-- The constraints recorded for a value. -/
structure Fact where
  /-- The value. -/
  value : Value
  /-- The constraints recorded for it. -/
  held : ConstraintSet

/-- The state of one path through a procedure. -/
structure State where
  /-- The values of the variables. -/
  bindings : SortedMap Symbol Value
  /-- The evaluation stack, its top first. -/
  stack : List Value
  /-- What is recorded about values, by identity. -/
  facts : SortedMap Nat Fact

namespace State

/-- The state without bindings, with an empty stack, in which nothing is recorded. -/
def empty : State := ⟨.empty, [], .empty⟩

instance : Inhabited State := ⟨empty⟩

/-- Binds a variable to a value. -/
def bind (s : State) (symbol : Symbol) (v : Value) : State :=
  { s with bindings := s.bindings.insert symbol v }

/-- The value of a variable. -/
def lookup (s : State) (symbol : Symbol) : Option Value := s.bindings.get? symbol

/-- The variables that are bound to a value, in order. -/
def boundTo (s : State) (v : Value) : List Symbol :=
  (s.bindings.entries.filter fun e => e.2.same v).map (·.1)

/-- Pushes a value. -/
def push (s : State) (v : Value) : State := { s with stack := v :: s.stack }

/-- Takes the top of the stack, or the unknown value if the stack is empty. -/
def pop (s : State) : Value × State :=
  match s.stack with
  | v :: rest => (v, { s with stack := rest })
  | [] => (.unknown, s)

/-- Takes a number of values, given in the order in which they were pushed. -/
def popMany (s : State) : Nat → List Value × State
  | 0 => ([], s)
  | n + 1 =>
    let (v, s) := s.pop
    let (deeper, s) := s.popMany n
    (deeper ++ [v], s)

/-- The value at a depth below the top of the stack, or the unknown value. -/
def peek (s : State) (depth : Nat) : Value := s.stack.getD depth .unknown

/-- Empties the stack. -/
def clearStack (s : State) : State := { s with stack := [] }

/-- The constraints recorded for a value. -/
def recorded (s : State) (v : Value) : ConstraintSet :=
  match s.facts.get? v.id with
  | some fact => fact.held
  | none => .empty

/-- The member of a domain that holds of a value, by what the value is or as recorded. -/
def constraint (s : State) (v : Value) (d : Domain) : Option Constraint :=
  (v.intrinsic.get? d).or ((s.recorded v).get? d)

/-- Whether a constraint holds of a value. -/
def holds (s : State) (v : Value) (c : Constraint) : Bool := s.constraint v c.domain == some c

/-- The nullability of a value. -/
def nullability (s : State) (v : Value) : Option Nullability :=
  (s.constraint v .nullability).bind (·.nullability?)

/-- The truth of a condition. -/
def truth (s : State) (v : Value) : Option Truth :=
  (s.constraint v .truth).bind (·.truth?)

/-- Records a constraint on a value in place of another member of its domain. -/
def record (s : State) (v : Value) (c : Constraint) : State :=
  { s with facts := s.facts.insert v.id ⟨v, (s.recorded v).insert c⟩ }

/-- Records a constraint as `record` does, but nothing about the unknown value. -/
def overwrite (s : State) (v : Value) (c : Constraint) : State :=
  if v.isUnknown then s else s.record v c

/-- Removes the member of a domain recorded for a value. -/
def retract (s : State) (v : Value) (d : Domain) : State :=
  match s.facts.get? v.id with
  | none => s
  | some fact =>
    let held := fact.held.erase d
    if held.isEmpty then
      { s with facts := s.facts.erase v.id }
    else
      { s with facts := s.facts.insert v.id ⟨v, held⟩ }

/-- Removes all that is recorded about a value. -/
def forget (s : State) (v : Value) : State := { s with facts := s.facts.erase v.id }

/-- A state as text: its bindings, its stack from the bottom, and what it records. -/
def render (s : State) : String :=
  let bindings := s.bindings.entries.map fun (symbol, v) => symbol.render ++ "=" ++ v.render
  let facts := s.facts.values.map fun fact => fact.value.render ++ ":" ++ fact.held.render
  "symbols [" ++ Text.commaSeparated bindings ++ "] stack [" ++
    Text.commaSeparated (s.stack.reverse.map Value.render) ++ "] constraints [" ++
    Text.commaSeparated facts ++ "]"

/-! ## Assumptions -/

/-- What the (in)equality of two values says about one of them, given what is known of the other:
first its nullability, then its truth. The function makes an assumption about the first. -/
def carry (equal : Bool) (other : Value) (assume : Constraint → State → Option State) (s : State) :
    Option State := do
  let s ← match s.nullability other, equal with
    | some n, true => assume (.nullability n) s
    | some .null, false => assume (.nullability .notNull) s
    | _, _ => some s
  match s.truth other with
  | some t => assume (.truth (if equal then t else t.opposite)) s
  | none => some s

/-- Assumes a constraint on a value; none if the path cannot be taken. Nothing is recorded about
the unknown value. -/
def assume : Value → Constraint → State → Option State
  | v, c, s =>
    if v.isUnknown then
      some s
    else
      match s.constraint v c.domain with
      | some held => if held = c then some s else none
      | none =>
        let s := s.record v c
        match c with
        | .truth t =>
          match v with
          | .not _ operand => assume operand (.truth t.opposite) s
          | .equal _ left right => do
            let s ← carry (t == .holds) left (assume right) s
            carry (t == .holds) right (assume left) s
          | .notEqual _ left right => do
            let s ← carry (t == .fails) left (assume right) s
            carry (t == .fails) right (assume left) s
          | _ => some s
        | _ => some s

/-! ## Live values -/

/-- The values of the stack and of the variables, the last of each first. -/
def roots (s : State) : List Value := s.stack ++ s.bindings.values.reverse

/-- The identities of the live values. -/
def live (s : State) : Marks := Value.markAll s.roots .empty

/-- Drops what is recorded about values that are not live. -/
def clean (s : State) : State :=
  let live := s.live
  { s with facts := s.facts.filter fun id _ => live.has id }

end State

end Pathwise
