import Pathwise.Json.Basic

/-!
# Writing JSON

Values are written without white space. In a string literal the quote, the backslash and the
control characters are escaped, by one letter where there is an escape for it and by their code
otherwise; everything else stands for itself.
-/

namespace Pathwise.Json

/-- The hexadecimal digit of a number below sixteen. -/
def hexDigit (n : Nat) : Char := Nat.digitChar n

/-- The letter that stands for a character behind a backslash, if there is one. -/
def escapeLetter? (c : Char) : Option Char :=
  match c with
  | '"' => some '"'
  | '\\' => some '\\'
  | '\x08' => some 'b'
  | '\x0c' => some 'f'
  | '\n' => some 'n'
  | '\r' => some 'r'
  | '\t' => some 't'
  | _ => none

/-- A character as it is written inside a string literal. -/
def writtenChar (c : Char) : List Char :=
  match escapeLetter? c with
  | some letter => ['\\', letter]
  | none =>
    if c.toNat < 0x20 then
      ['\\', 'u', '0', '0', hexDigit (c.toNat / 16), hexDigit (c.toNat % 16)]
    else
      [c]

/-- The literal of a text. -/
def writtenText (s : String) : String :=
  "\"" ++ String.ofList (s.toList.flatMap writtenChar) ++ "\""

/-- The literal of a string value; one without a text is written as the empty text. -/
def writtenQuoted (q : Quoted) : String := writtenText (q.text?.getD "")

mutual
/-- A value as JSON text. -/
def render : Json → String
  | .null => "null"
  | .bool true => "true"
  | .bool false => "false"
  | .number literal => literal
  | .string s => writtenQuoted s
  | .array items => "[" ++ ",".intercalate (renderItems items) ++ "]"
  | .object members => "\x7b" ++ ",".intercalate (renderMembers members) ++ "\x7d"
  | .cut => ""

/-- The items of an array, each as JSON text. -/
def renderItems : List Json → List String
  | [] => []
  | item :: rest => item.render :: renderItems rest

/-- The members of an object, each as JSON text. -/
def renderMembers : List (Quoted × Json) → List String
  | [] => []
  | (key, value) :: rest => (writtenQuoted key ++ ":" ++ value.render) :: renderMembers rest
end

end Pathwise.Json
