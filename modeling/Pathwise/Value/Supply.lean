import Pathwise.SortedMap
import Pathwise.Value.Basic

/-!
# Making values

A supply hands out identities one after the other. A comparison of a value with itself and the
negation of a truth value are decided at once and need no new identity, and the value of a variable
at a loop header is made once and handed out again.
-/

namespace Pathwise

/-- The source of new values in a run. -/
structure Supply where
  /-- The next free identity. -/
  next : Nat
  /-- The values made for variables at loop headers, by header and variable. -/
  canonical : SortedMap Nat (SortedMap Symbol Value)

namespace Supply

/-- The supply at the start of a run. -/
def start : Supply := ⟨Value.firstFree, .empty⟩

/-- Makes a value with the next identity. -/
def issue (s : Supply) (make : Nat → Value) : Value × Supply :=
  (make s.next, { s with next := s.next + 1 })

/-- Makes a value of its own. -/
def fresh (s : Supply) : Value × Supply := s.issue .fresh

/-- Whether two values are equal. -/
def equal (s : Supply) (left right : Value) : Value × Supply :=
  if left.same right then (.bool true, s) else s.issue (.equal · left right)

/-- Whether two values differ. -/
def notEqual (s : Supply) (left right : Value) : Value × Supply :=
  if left.same right then (.bool false, s) else s.issue (.notEqual · left right)

/-- Whether a condition fails. -/
def not (s : Supply) : Value → Value × Supply
  | .bool b => (.bool !b, s)
  | operand => s.issue (.not · operand)

/-- The value made for a variable at a loop header. -/
def canonical? (s : Supply) (header : Nat) (symbol : Symbol) : Option Value :=
  (s.canonical.get? header).bind (·.get? symbol)

/-- What a variable may hold at a loop header: the same value each time. -/
def widened (s : Supply) (header : Nat) (symbol : Symbol) : Value × Supply :=
  match s.canonical? header symbol with
  | some v => (v, s)
  | none =>
    let (v, s) := s.issue (.widened · header symbol)
    let symbols := ((s.canonical.get? header).getD .empty).insert symbol v
    (v, { s with canonical := s.canonical.insert header symbols })

/-- How many values have been made. -/
def created (s : Supply) : Nat := s.next - Value.firstFree

end Supply

end Pathwise
