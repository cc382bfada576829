import Pathwise.Constraint
import Pathwise.Json.Record

/-!
# Constraints as JSON

A domain is its name; a constraint is the name of its member under the name of its domain.
-/

namespace Pathwise

namespace Domain

/-- Reads a domain. -/
def ofJson? (j : Json) : Option Domain := j.named? (all.map fun d => (d.render, d))

/-- Writes a domain. -/
def toJson (d : Domain) : Json := .text d.render

end Domain

namespace Constraint

/-- All constraints, by domain. -/
def members : Domain → List Constraint
  | .nullability => [.nullability .null, .nullability .notNull]
  | .truth => [.truth .holds, .truth .fails]
  | .disposal => [.disposal .disposed, .disposal .notDisposed]
  | .byteArray => [.byteArray .constant, .byteArray .modified]
  | .saltSize => [.saltSize .short, .saltSize .safe]

/-- Reads a constraint. -/
def ofJson? (j : Json) : Option Constraint := do
  let (name, content) ← j.variant?
  let domain ← Domain.all.find? (·.render == name)
  (← content).named? ((members domain).map fun c => (c.render, c))

/-- Writes a constraint. -/
def toJson (c : Constraint) : Json := .ofMembers [(c.domain.render, .text c.render)]

end Constraint

end Pathwise
