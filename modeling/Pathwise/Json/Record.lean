import Pathwise.Json.Basic
import Pathwise.SortedMap

/-!
# Typed reading of JSON

How records, variants, numbers, lists and maps appear in JSON. A record is an object, whose
unknown members are skipped and whose known ones appear at most once, or an array of the fields
in their order. A variant is its name, or an object with the name as its only key.
-/

namespace Pathwise.Json

/-- The text of a string. -/
def text? : Json → Option String
  | .string s => s.text?
  | _ => none

/-- A truth value. -/
def bool? : Json → Option Bool
  | .bool b => some b
  | _ => none

/-- The number of a list of decimal digits. -/
def ofDigits? (cs : List Char) : Option Nat :=
  if cs.isEmpty || !cs.all Char.isDigit then none
  else some (cs.foldl (fun n c => n * 10 + (c.toNat - '0'.toNat)) 0)

/-- The natural number of a literal without sign, fraction and exponent. -/
def literalNat? (cs : List Char) : Option Nat :=
  match cs with
  | ['0'] => some 0
  | '0' :: _ => none
  | _ => ofDigits? cs

/-- A natural number below a bound. -/
def natBelow? (bound : Nat) : Json → Option Nat
  | .number literal => (literalNat? literal.toList).filter (· < bound)
  | _ => none

/-- A 32-bit unsigned integer. -/
def uint32? (j : Json) : Option UInt32 := (j.natBelow? UInt32.size).map UInt32.ofNat

/-- A 64-bit unsigned integer, as a natural number. -/
def count? (j : Json) : Option Nat := j.natBelow? UInt64.size

/-- The number of negative 64-bit signed integers. -/
def negatives : Nat := 0x8000000000000000

/-- A 64-bit signed integer. A minus sign in front of zero is no integer. -/
def int64? : Json → Option Int64
  | .number literal =>
    match literal.toList with
    | '-' :: digits =>
      ((literalNat? digits).filter fun n => 0 < n ∧ n ≤ negatives).map
        fun n => Int64.ofInt (-(n : Int))
    | digits => ((literalNat? digits).filter (· < negatives)).map fun n => Int64.ofInt n
  | _ => none

/-- A value that may be `null`. -/
def option? {α : Type} (f : Json → Option α) : Json → Option (Option α)
  | .null => some none
  | j => (f j).map some

/-- A list. -/
def list? {α : Type} (f : Json → Option α) : Json → Option (List α)
  | .array items => items.mapM f
  | _ => none

/-- A key that is a natural number below a bound, written in decimal without escapes. -/
def numberedKey? (bound : Nat) (key : Quoted) : Option Nat := do
  let literal ← key.text?
  (literalNat? literal.toList).filter fun n => key.verbatim && n < bound

/-- A map whose keys are natural numbers below a bound. The last of several values for a key
counts. -/
def numberedMap? {κ α : Type} [Ord κ] [Std.TransOrd κ] (bound : Nat) (ofNat : Nat → κ)
    (f : Json → Option α) : Json → Option (SortedMap κ α)
  | .object members => do
    let entries ← members.mapM fun member => do
      return (ofNat (← numberedKey? bound member.1), ← f member.2)
    return .ofList entries
  | _ => none

/-- The value of the first member with a name. -/
def member? (j : Json) (name : String) : Option Json :=
  match j with
  | .object members => (members.find? fun m => m.1.text? == some name).map (·.2)
  | _ => none

/-- The value of a member that is there and not `null`. -/
def given? (j : Json) (name : String) : Option Json :=
  match j.member? name with
  | some .null => none
  | value => value

/-- Reads a member that may be left out or be `null`. -/
def maybe? {α : Type} (j : Json) (name : String) (f : Json → Option α) : Option (Option α) :=
  match j.given? name with
  | some value => (f value).map some
  | none => some none

/-- The fields of a record by name. -/
structure Fields where
  /-- Whether the record is an array of its fields. -/
  positional : Bool
  /-- The fields that are there. -/
  present : List (String × Json)

/-- Sorts the members of an object into the known ones, in file order. A member without a name, a
known member that appears twice, and a member that breaks off are refused. -/
def knownMembers (names : List String) : List (Quoted × Json) → List (String × Json) →
    Option (List (String × Json))
  | [], known => some known.reverse
  | (key, value) :: rest, known => do
    let name ← key.text?
    if names.contains name then
      if known.any (·.1 == name) then none else knownMembers names rest ((name, value) :: known)
    else if value.intact then knownMembers names rest known
    else none

/-- The fields of a record with the given field names. -/
def fields? (names : List String) : Json → Option Fields
  | .object members => (knownMembers names members []).map (⟨false, ·⟩)
  | .array items =>
    if items.length ≤ names.length then some ⟨true, names.zip items⟩ else none
  | _ => none

namespace Fields

variable {α : Type}

/-- The value of a field. -/
def find? (fields : Fields) (name : String) : Option Json :=
  (fields.present.find? (·.1 == name)).map (·.2)

/-- A field that has to be there. -/
def required (fields : Fields) (name : String) (f : Json → Option α) : Option α := do
  f (← fields.find? name)

/-- A field that stands for a default when it is left out. -/
def withDefault (fields : Fields) (name : String) (fallback : α) (f : Json → Option α) : Option α :=
  match fields.find? name with
  | some j => f j
  | none => some fallback

/-- A field that may be `null`, and may be left out of an object but not of an array. -/
def optional (fields : Fields) (name : String) (f : Json → Option α) : Option (Option α) :=
  match fields.find? name with
  | some j => option? f j
  | none => if fields.positional then none else some none

end Fields

/-- The name of a variant and what comes with it. -/
def variant? : Json → Option (String × Option Json)
  | .string s => s.text?.map (·, none)
  | .object [(key, content)] => key.text?.map (·, some content)
  | _ => none

/-- A variant without content: nothing comes with it, or `null`. -/
def unit? {α : Type} (a : α) : Option Json → Option α
  | none => some a
  | some .null => some a
  | _ => none

/-- A variant that has nothing but a name in a table. -/
def named? {α : Type} (table : List (String × α)) (j : Json) : Option α := do
  let (name, content) ← j.variant?
  let entry ← table.find? (·.1 == name)
  unit? entry.2 content

end Pathwise.Json
