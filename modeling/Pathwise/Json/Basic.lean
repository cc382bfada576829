/-!
# JSON documents

A document is kept as it was written where that can matter: numbers by their literal, object
members in file order, and string literals together with whether they used escapes. Text that
stops being JSON part way gives the document read so far with `cut` where it stopped, so that a
reader working from left to right meets whatever comes first in the text.
-/

namespace Pathwise

/-- A string literal. -/
structure Quoted where
  /-- The text it stands for; none if an escape names one half of a surrogate pair alone. -/
  text? : Option String
  /-- Whether the literal is its text between quotes, without escapes. -/
  verbatim : Bool
  deriving DecidableEq, Repr

/-- A JSON value, or the place where a text stops being one. -/
inductive Json where
  /-- The literal `null`. -/
  | null
  /-- The literals `true` and `false`. -/
  | bool (b : Bool)
  /-- A number, by its literal. -/
  | number (literal : String)
  /-- A string. -/
  | string (s : Quoted)
  /-- An array. -/
  | array (items : List Json)
  /-- An object, with its members in file order and repeated keys kept. -/
  | object (members : List (Quoted × Json))
  /-- The text stops being JSON here. -/
  | cut
  deriving Repr, Inhabited

/-- Whether a character has to be escaped inside a string literal. -/
def Quoted.needsEscape (c : Char) : Bool := c == '"' || c == '\\' || c.toNat < 0x20

/-- The literal that is written for a text. -/
def Quoted.ofString (s : String) : Quoted := ⟨some s, !s.toList.any needsEscape⟩

namespace Json

/-- A string value. -/
def text (s : String) : Json := .string (.ofString s)

/-- A natural number. -/
def nat (n : Nat) : Json := .number n.repr

/-- An integer. -/
def int (i : Int) : Json := .number i.repr

/-- An object from its members. -/
def ofMembers (members : List (String × Json)) : Json :=
  .object (members.map fun (key, value) => (.ofString key, value))

/-- A value that may be absent, `null` when it is. -/
def option {α : Type} (f : α → Json) : Option α → Json
  | some a => f a
  | none => .null

/-- A list, element by element. -/
def list {α : Type} (f : α → Json) (items : List α) : Json := .array (items.map f)

mutual
/-- Whether a value was read to its end. -/
def intact : Json → Bool
  | .array items => intactItems items
  | .object members => intactMembers members
  | .cut => false
  | _ => true

/-- Whether all items were read to their end. -/
def intactItems : List Json → Bool
  | [] => true
  | item :: rest => item.intact && intactItems rest

/-- Whether all members were read to their end. -/
def intactMembers : List (Quoted × Json) → Bool
  | [] => true
  | (_, value) :: rest => value.intact && intactMembers rest
end

end Json

end Pathwise
