import Pathwise.Json.Token

/-!
# From tokens to a document

The reader takes one token at a time and keeps the arrays and objects that are still open. A
token that does not fit closes all of them around a `cut`.
-/

namespace Pathwise.Json

/-- An array or object that is still open. -/
inductive Frame where
  /-- An array with its items so far, the last one first. -/
  | array (items : List Json)
  /-- An object with its members so far, the last one first. -/
  | object (members : List (Quoted × Json))
  /-- An object whose value for a key is being read. -/
  | member (members : List (Quoted × Json)) (key : Quoted)
  deriving Repr

/-- What has to come next. -/
inductive Expected where
  /-- A value. -/
  | value
  /-- A value or the end of the array just opened. -/
  | firstItem
  /-- A key. -/
  | key
  /-- A key or the end of the object just opened. -/
  | firstKey
  /-- The colon behind a key. -/
  | colon (key : Quoted)
  /-- A comma or the end of the innermost array or object. -/
  | separator
  deriving Repr

/-- How far a document has been read. -/
inductive Reading where
  /-- Inside it. -/
  | within (frames : List Frame) (expected : Expected)
  /-- Behind its last token. -/
  | complete (root : Json)
  /-- Behind its last token, with more tokens following it. -/
  | overfull (root : Json)
  /-- Behind a token that does not fit, with what was read before it. -/
  | broken (root : Json)
  deriving Repr

namespace Reading

/-- The reader in front of a text. -/
def start : Reading := .within [] .value

/-- Hands a finished value to the innermost open frame. -/
def deliver (value : Json) : List Frame → Reading
  | [] => .complete value
  | .array items :: frames => .within (.array (value :: items) :: frames) .separator
  | .object members :: frames =>
    .within (.object ((⟨none, false⟩, value) :: members) :: frames) .separator
  | .member members key :: frames =>
    .within (.object ((key, value) :: members) :: frames) .separator

/-- Closes every open frame around the place where the text breaks off. -/
def abandon (value : Json) : List Frame → Json
  | [] => value
  | .array items :: frames => abandon (.array (value :: items).reverse) frames
  | .object members :: frames =>
    abandon (.object ((⟨none, false⟩, value) :: members).reverse) frames
  | .member members key :: frames =>
    abandon (.object ((key, value) :: members).reverse) frames

/-- Takes the first token of a value. -/
def feedValue (frames : List Frame) : Token → Reading
  | .scalar value => deliver value frames
  | .string s => deliver (.string s) frames
  | .openArray => .within (.array [] :: frames) .firstItem
  | .openObject => .within (.object [] :: frames) .firstKey
  | _ => .broken (abandon .cut frames)

/-- Takes one token inside a document. -/
def feedWithin (frames : List Frame) : Expected → Token → Reading
  | .firstItem, .closeArray =>
    match frames with
    | .array items :: outer => deliver (.array items.reverse) outer
    | _ => .broken (abandon .cut frames)
  | .firstKey, .closeObject =>
    match frames with
    | .object members :: outer => deliver (.object members.reverse) outer
    | _ => .broken (abandon .cut frames)
  | .key, .string key => .within frames (.colon key)
  | .firstKey, .string key => .within frames (.colon key)
  | .colon key, .colon =>
    match frames with
    | .object members :: outer => .within (.member members key :: outer) .value
    | _ => .broken (abandon .cut frames)
  | .separator, .comma =>
    match frames with
    | .array _ :: _ => .within frames .value
    | .object _ :: _ => .within frames .key
    | _ => .broken (abandon .cut frames)
  | .separator, .closeArray =>
    match frames with
    | .array items :: outer => deliver (.array items.reverse) outer
    | _ => .broken (abandon .cut frames)
  | .separator, .closeObject =>
    match frames with
    | .object members :: outer => deliver (.object members.reverse) outer
    | _ => .broken (abandon .cut frames)
  | .value, token => feedValue frames token
  | .firstItem, token => feedValue frames token
  | _, _ => .broken (abandon .cut frames)

/-- Takes one token. -/
def feed : Reading → Token → Reading
  | .within frames expected, token => feedWithin frames expected token
  | .complete root, _ => .overfull root
  | reading, _ => reading

end Reading

/-- A document as read from a text. -/
structure Document where
  /-- The value, with `cut` in it if the text breaks off. -/
  root : Json
  /-- Whether nothing but white space follows the value. -/
  ended : Bool
  deriving Repr

/-- The document at the end of a text. -/
def Reading.finish : Reading → Document
  | .within frames _ => ⟨abandon .cut frames, true⟩
  | .complete root => ⟨root, true⟩
  | .overfull root => ⟨root, false⟩
  | .broken root => ⟨root, true⟩

/-- Reads a text as far as it is JSON. -/
def read (text : String) : Document :=
  ((tokens text.toList).foldl Reading.feed .start).finish

/-- Reads a text that is one JSON value and nothing else. -/
def parse? (text : String) : Option Json :=
  let document := read text
  if document.ended && document.root.intact then some document.root else none

end Pathwise.Json
