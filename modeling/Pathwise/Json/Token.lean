import Pathwise.Json.Basic

/-!
# The tokens of a JSON text

The scanner takes one character at a time. Its mode says what it is in the middle of; a character
that no token can have there gets it stuck, and the token list then ends with `bad`. A string
literal whose escapes leave half a surrogate pair alone is still a token, but one without a text.
-/

namespace Pathwise.Json

/-- A token of a JSON text. -/
inductive Token where
  /-- The bracket that opens an array. -/
  | openArray
  /-- The bracket that closes an array. -/
  | closeArray
  /-- The brace that opens an object. -/
  | openObject
  /-- The brace that closes an object. -/
  | closeObject
  /-- The colon behind a key. -/
  | colon
  /-- The comma between neighbours. -/
  | comma
  /-- A literal `null`, `true` or `false`, or a number. -/
  | scalar (value : Json)
  /-- A string literal. -/
  | string (s : Quoted)
  /-- Text that is no token. -/
  | bad
  deriving Repr, Inhabited

/-- A string literal in the middle of being read. -/
structure Literal where
  /-- The characters so far, the last one first. -/
  chars : List Char
  /-- Whether no escape was met. -/
  verbatim : Bool
  /-- Whether every surrogate met so far has found its other half or may still find it. -/
  paired : Bool
  /-- The first half of a surrogate pair whose second half has to follow. -/
  half : Option Nat
  deriving DecidableEq, Repr

namespace Literal

/-- The literal behind its opening quote. -/
def start : Literal := ⟨[], true, true, none⟩

/-- Marks a pending first half as left alone. -/
def settle (l : Literal) : Literal :=
  { l with paired := l.paired && l.half.isNone, half := none }

/-- Adds a character. -/
def push (l : Literal) (c : Char) : Literal :=
  let l := l.settle
  { l with chars := c :: l.chars }

/-- Adds the code unit of a `\u` escape. -/
def pushUnit (l : Literal) (unit : Nat) : Literal :=
  if 0xDC00 ≤ unit && unit < 0xE000 then
    match l.half with
    | some first =>
      let code := (first - 0xD800) * 0x400 + (unit - 0xDC00) + 0x10000
      { l with chars := Char.ofNat code :: l.chars, half := none }
    | none => { l with paired := false }
  else if 0xD800 ≤ unit && unit < 0xDC00 then
    { l.settle with half := some unit }
  else
    l.push (Char.ofNat unit)

/-- The literal in front of its closing quote. -/
def close (l : Literal) : Quoted :=
  let l := l.settle
  ⟨if l.paired then some (String.ofList l.chars.reverse) else none, l.verbatim⟩

end Literal

/-- What the scanner is in the middle of. -/
inductive Mode where
  /-- Between tokens. -/
  | between
  /-- In a word, with its letters in reverse. -/
  | word (letters : List Char)
  /-- In a number, with its characters in reverse. -/
  | numeral (chars : List Char)
  /-- In a string literal. -/
  | inside (l : Literal)
  /-- Behind a backslash in a string literal. -/
  | escape (l : Literal)
  /-- In a `\u` escape, with the number of missing digits and the value of those read. -/
  | unit (l : Literal) (missing value : Nat)
  /-- Behind something that is no token. -/
  | stuck
  deriving DecidableEq, Repr

/-- The token of a word. -/
def wordToken (letters : List Char) : Token :=
  match String.ofList letters with
  | "null" => .scalar .null
  | "true" => .scalar (.bool true)
  | "false" => .scalar (.bool false)
  | _ => .bad

/-- The rest behind at least one digit. -/
def skipDigits (cs : List Char) : Option (List Char) :=
  match cs with
  | c :: rest => if c.isDigit then some (rest.dropWhile Char.isDigit) else none
  | [] => none

/-- The rest behind an integer part: a single zero, or digits that start with another one. -/
def skipInteger (cs : List Char) : Option (List Char) :=
  match cs with
  | '0' :: rest => some rest
  | _ => skipDigits cs

/-- The rest behind a fraction, if there is one. -/
def skipFraction (cs : List Char) : Option (List Char) :=
  match cs with
  | '.' :: rest => skipDigits rest
  | _ => some cs

/-- The rest behind an exponent, if there is one. -/
def skipExponent (cs : List Char) : Option (List Char) :=
  match cs with
  | c :: rest =>
    if c = 'e' ∨ c = 'E' then
      match rest with
      | '+' :: digits => skipDigits digits
      | '-' :: digits => skipDigits digits
      | _ => skipDigits rest
    else
      some cs
  | [] => some cs

/-- Whether the characters are a number: a sign, an integer part, a fraction and an exponent. -/
def isNumber (cs : List Char) : Bool :=
  let unsigned := match cs with
    | '-' :: rest => rest
    | _ => cs
  ((skipInteger unsigned).bind skipFraction).bind skipExponent == some []

/-- The token of a number. -/
def numeralToken (chars : List Char) : Token :=
  if isNumber chars then .scalar (.number (String.ofList chars)) else .bad

/-- Whether a character can continue a number. -/
def isNumeric (c : Char) : Bool :=
  c.isDigit || c == '-' || c == '+' || c == '.' || c == 'e' || c == 'E'

/-- Whether a character may stand between tokens. -/
def isBlank (c : Char) : Bool := c == ' ' || c == '\n' || c == '\r' || c == '\t'

/-- The character that a one-letter escape stands for. -/
def escaped? (c : Char) : Option Char :=
  match c with
  | '"' => some '"'
  | '\\' => some '\\'
  | '/' => some '/'
  | 'b' => some '\x08'
  | 'f' => some '\x0c'
  | 'n' => some '\n'
  | 'r' => some '\r'
  | 't' => some '\t'
  | _ => none

/-- The value of a hexadecimal digit. -/
def hexDigit? (c : Char) : Option Nat :=
  if c.isDigit then
    some (c.toNat - '0'.toNat)
  else if 'a' ≤ c ∧ c ≤ 'f' then
    some (c.toNat - 'a'.toNat + 10)
  else if 'A' ≤ c ∧ c ≤ 'F' then
    some (c.toNat - 'A'.toNat + 10)
  else
    none

/-- The scanner: its mode and the tokens read, the last one first. -/
structure Scanner where
  /-- What it is in the middle of. -/
  mode : Mode
  /-- The tokens read so far, the last one first. -/
  tokens : List Token
  deriving Repr

namespace Scanner

/-- The scanner in front of a text. -/
def start : Scanner := ⟨.between, []⟩

/-- Takes a character between tokens. -/
def begin (tokens : List Token) (c : Char) : Scanner :=
  if isBlank c then ⟨.between, tokens⟩
  else if c == '[' then ⟨.between, .openArray :: tokens⟩
  else if c == ']' then ⟨.between, .closeArray :: tokens⟩
  else if c == '\x7b' then ⟨.between, .openObject :: tokens⟩
  else if c == '\x7d' then ⟨.between, .closeObject :: tokens⟩
  else if c == ':' then ⟨.between, .colon :: tokens⟩
  else if c == ',' then ⟨.between, .comma :: tokens⟩
  else if c == '"' then ⟨.inside .start, tokens⟩
  else if c.isDigit || c == '-' then ⟨.numeral [c], tokens⟩
  else if c.isLower then ⟨.word [c], tokens⟩
  else ⟨.stuck, tokens⟩

/-- Takes one character. -/
def feed (s : Scanner) (c : Char) : Scanner :=
  match s.mode with
  | .between => begin s.tokens c
  | .word letters =>
    if c.isLower then { s with mode := .word (c :: letters) }
    else begin (wordToken letters.reverse :: s.tokens) c
  | .numeral chars =>
    if isNumeric c then { s with mode := .numeral (c :: chars) }
    else begin (numeralToken chars.reverse :: s.tokens) c
  | .inside l =>
    if c == '"' then ⟨.between, .string l.close :: s.tokens⟩
    else if c == '\\' then { s with mode := .escape { l with verbatim := false } }
    else if c.toNat < 0x20 then { s with mode := .stuck }
    else { s with mode := .inside (l.push c) }
  | .escape l =>
    if c == 'u' then { s with mode := .unit l 4 0 }
    else match escaped? c with
      | some plain => { s with mode := .inside (l.push plain) }
      | none => { s with mode := .stuck }
  | .unit l missing value =>
    match hexDigit? c, missing with
    | some digit, 0 => { s with mode := .inside (l.pushUnit (value * 16 + digit)) }
    | some digit, 1 => { s with mode := .inside (l.pushUnit (value * 16 + digit)) }
    | some digit, more + 2 => { s with mode := .unit l (more + 1) (value * 16 + digit) }
    | none, _ => { s with mode := .stuck }
  | .stuck => s

/-- The tokens in the order of the text, once it is at its end. -/
def finish (s : Scanner) : List Token :=
  match s.mode with
  | .between => s.tokens.reverse
  | .word letters => (wordToken letters.reverse :: s.tokens).reverse
  | .numeral chars => (numeralToken chars.reverse :: s.tokens).reverse
  | _ => (.bad :: s.tokens).reverse

end Scanner

/-- The tokens of a text. -/
def tokens (text : List Char) : List Token :=
  (text.foldl Scanner.feed .start).finish

end Pathwise.Json
