import Pathwise.Json.Document
import Pathwise.Json.Record
import Pathwise.Json.Render
import Mathlib.Data.List.TakeWhile
import Mathlib.Tactic.Choose

/-!
# JSON text is read as what was written

A value made of texts, integers, truth values, lists and records is written as a text from which
the scanner takes the tokens of the value, and from these tokens the reader makes the value again.
Both halves are shown part by part: what a part of the text adds to the tokens does not depend on
the tokens before it, and what the tokens of a value come to does not depend on where it stands.
-/

namespace Pathwise.Json

/-! ## Numerals -/

/-- A number is written with digits. -/
theorem all_isDigit_toDigits (n : Nat) : (Nat.toDigits 10 n).all Char.isDigit = true :=
  List.all_eq_true.2 fun _ hc => Nat.isDigit_of_mem_toDigits (by decide) (by decide) hc

/-- A number is the single digit zero, or its first digit is another one. -/
theorem toDigits_cases (n : Nat) :
    (n = 0 ∧ Nat.toDigits 10 n = ['0']) ∨ ∃ c rest, Nat.toDigits 10 n = c :: rest ∧ c ≠ '0' := by
  induction n using Nat.strongRecOn with
  | ind n ih =>
    by_cases hzero : n = 0
    · exact .inl ⟨hzero, by subst hzero; rfl⟩
    by_cases hten : n < 10
    · have hdigit : ∀ d < 10, d ≠ 0 → d.digitChar ≠ '0' := by decide
      exact .inr ⟨_, [], Nat.toDigits_of_lt_base hten, hdigit n hten hzero⟩
    · have hlast := Nat.toDigits_of_base_le (b := 10) (by decide) (Nat.le_of_not_lt hten)
      rcases ih (n / 10) (by omega) with ⟨hfront, -⟩ | ⟨c, rest, hfront, hc⟩
      · omega
      · exact .inr ⟨c, rest ++ [(n % 10).digitChar], by rw [hlast, hfront]; rfl, hc⟩

/-- All digits of a number are taken to belong to it. -/
theorem skipInteger_toDigits (n : Nat) : skipInteger (Nat.toDigits 10 n) = some [] := by
  have hall := all_isDigit_toDigits n
  rcases toDigits_cases n with ⟨-, hdigits⟩ | ⟨c, rest, hdigits, hc⟩
  · rw [hdigits]
    rfl
  · rw [hdigits] at hall ⊢
    obtain ⟨hfirst, hrest⟩ : c.isDigit = true ∧ rest.all Char.isDigit = true := by simpa using hall
    have hdrop : rest.dropWhile Char.isDigit = [] := by
      rw [List.dropWhile_eq_nil_iff]
      exact List.all_eq_true.1 hrest
    simp [skipInteger, skipDigits, hc, hfirst, hdrop]

/-- The literal of a natural number is read as this number. -/
theorem literalNat?_toDigits (n : Nat) : literalNat? (Nat.toDigits 10 n) = some n := by
  have hvalue : ofDigits? (Nat.toDigits 10 n) = some n := by
    have hne : (Nat.toDigits 10 n).isEmpty = false := by simp [Nat.toDigits_ne_nil]
    have hsum := Nat.ofDigitChars_ten_toDigits (n := n)
    rw [Nat.ofDigitChars_eq_foldl] at hsum
    simp only [ofDigits?, hne, all_isDigit_toDigits, Nat.mul_comm _ 10, hsum]
    rfl
  rcases toDigits_cases n with ⟨rfl, hdigits⟩ | ⟨c, rest, hdigits, hc⟩
  · rfl
  · rw [hdigits] at hvalue ⊢
    simpa [literalNat?, hc] using hvalue

/-- The literal of an integer has a minus sign if it is negative. -/
theorem toList_int_repr (i : Int) :
    (0 ≤ i ∧ i.repr.toList = Nat.toDigits 10 i.toNat) ∨
      (i < 0 ∧ i.repr.toList = '-' :: Nat.toDigits 10 (-i).toNat) := by
  rw [Int.repr_eq_if]
  by_cases hi : 0 ≤ i
  · exact .inl ⟨hi, by rw [if_pos hi, Nat.toList_repr]⟩
  · exact .inr ⟨by omega, by rw [if_neg hi, String.toList_append, Nat.toList_repr]; rfl⟩

/-- A number is not written with a sign. -/
theorem toDigits_ne_minus (n : Nat) (rest : List Char) : Nat.toDigits 10 n ≠ '-' :: rest := by
  intro hdigits
  have hall := all_isDigit_toDigits n
  simp [hdigits] at hall

/-- An integer is written as a number. -/
theorem isNumber_int_repr (i : Int) : isNumber i.repr.toList = true := by
  have hdigits : ∀ n, (((skipInteger (Nat.toDigits 10 n)).bind skipFraction).bind
      skipExponent == some []) = true := by
    intro n
    rw [skipInteger_toDigits]
    rfl
  unfold isNumber
  rcases toList_int_repr i with ⟨-, hi⟩ | ⟨-, hi⟩
  · rw [hi]
    split
    · next rest hminus => exact absurd hminus (toDigits_ne_minus _ rest)
    · exact hdigits _
  · rw [hi]
    exact hdigits _

/-- The characters of an integer belong to numbers. -/
theorem isNumeric_int_repr (i : Int) : ∀ c ∈ i.repr.toList, isNumeric c = true := by
  have hdigit : ∀ n, ∀ c ∈ Nat.toDigits 10 n, isNumeric c = true := by
    intro n c hc
    simp [isNumeric, List.all_eq_true.1 (all_isDigit_toDigits n) c hc]
  rcases toList_int_repr i with ⟨-, hi⟩ | ⟨-, hi⟩
  · exact hi ▸ hdigit _
  · rw [hi]
    exact List.forall_mem_cons.2 ⟨rfl, hdigit _⟩

/-- An integer starts with a digit or a sign. -/
theorem int_repr_start (i : Int) :
    ∃ c rest, i.repr.toList = c :: rest ∧ (c.isDigit || c == '-') = true := by
  rcases toList_int_repr i with ⟨-, hi⟩ | ⟨-, hi⟩
  · have hne : Nat.toDigits 10 i.toNat ≠ [] := Nat.toDigits_ne_nil
    obtain ⟨c, rest, hdigits⟩ := List.exists_cons_of_ne_nil hne
    have hall := all_isDigit_toDigits i.toNat
    rw [hdigits, List.all_cons, Bool.and_eq_true] at hall
    exact ⟨c, rest, hi.trans hdigits, by simp [hall.1]⟩
  · exact ⟨_, _, hi, rfl⟩

/-! ## From text to tokens -/

namespace Scanner

/-- The tokens of a scanner that is behind a whole token. -/
def settled? (s : Scanner) : Option (List Token) :=
  match s.mode with
  | .between => some s.tokens
  | .word letters => some (wordToken letters.reverse :: s.tokens)
  | .numeral chars => some (numeralToken chars.reverse :: s.tokens)
  | _ => none

/-- Between two tokens a scanner has nothing left to finish. -/
theorem finish_of_settled {s : Scanner} {ts : List Token} (h : s.settled? = some ts) :
    s.finish = ts.reverse := by
  unfold settled? at h
  unfold finish
  split at h <;> simp_all

end Scanner

/-- A character is a token of its own, and no other token goes on with it. -/
structure Punctuates (c : Char) (t : Token) : Prop where
  /-- Between tokens it gives the token. -/
  begin : ∀ ts, Scanner.begin ts c = ⟨.between, t :: ts⟩
  /-- It continues no word. -/
  word : c.isLower = false
  /-- It continues no number. -/
  numeral : isNumeric c = false

/-- The punctuation characters stand for tokens of their own. -/
theorem punctuates_comma : Punctuates ',' .comma := ⟨fun _ => rfl, rfl, rfl⟩

theorem punctuates_colon : Punctuates ':' .colon := ⟨fun _ => rfl, rfl, rfl⟩

theorem punctuates_openArray : Punctuates '[' .openArray := ⟨fun _ => rfl, rfl, rfl⟩

theorem punctuates_closeArray : Punctuates ']' .closeArray := ⟨fun _ => rfl, rfl, rfl⟩

theorem punctuates_openObject : Punctuates '\x7b' .openObject := ⟨fun _ => rfl, rfl, rfl⟩

theorem punctuates_closeObject : Punctuates '\x7d' .closeObject := ⟨fun _ => rfl, rfl, rfl⟩

/-- A punctuation character ends the token before it. -/
theorem Punctuates.feed {c : Char} {t : Token} (hc : Punctuates c t) {s : Scanner}
    {ts : List Token} (hs : s.settled? = some ts) : s.feed c = ⟨.between, t :: ts⟩ := by
  unfold Scanner.settled? at hs
  unfold Scanner.feed
  split at hs
  · next hmode =>
    obtain rfl := Option.some.inj hs
    simp [hmode, hc.begin]
  · next letters hmode =>
    obtain rfl := Option.some.inj hs
    simp [hmode, hc.word, hc.begin]
  · next chars hmode =>
    obtain rfl := Option.some.inj hs
    simp [hmode, hc.numeral, hc.begin]
  · cases hs

/-- From a text that starts between tokens the scanner takes the given tokens. -/
def Scans (cs : List Char) (ts : List Token) : Prop :=
  ∀ before, (cs.foldl Scanner.feed ⟨.between, before⟩).settled? = some (ts.reverse ++ before)

namespace Scans

variable {cs cs' : List Char} {ts ts' : List Token}

/-- Nothing is scanned as nothing. -/
theorem nil : Scans [] [] := fun _ => rfl

/-- A text that is scanned into tokens consists of them. -/
theorem tokens_eq (h : Scans cs ts) : tokens cs = ts := by
  have hfinish := Scanner.finish_of_settled (h [])
  rwa [List.append_nil, List.reverse_reverse] at hfinish

/-- Texts are joined by a character that is a token of its own. -/
theorem join (h : Scans cs ts) (h' : Scans cs' ts') {c : Char} {t : Token} (hc : Punctuates c t) :
    Scans (cs ++ c :: cs') (ts ++ t :: ts') := by
  intro before
  rw [List.foldl_append, List.foldl_cons, hc.feed (h before), h']
  simp

/-- A text between two characters that are tokens of their own. -/
theorem enclosed (h : Scans cs ts) {c c' : Char} {t t' : Token} (hc : Punctuates c t)
    (hc' : Punctuates c' t') : Scans (c :: cs ++ [c']) (t :: ts ++ [t']) :=
  nil.join (h.join nil hc') hc

/-- Texts are listed with commas between them. -/
theorem intercalate {α : Type} {items : List α} {text : α → List Char} {toks : α → List Token}
    (h : ∀ a ∈ items, Scans (text a) (toks a)) :
    Scans ([','].intercalate (items.map text)) ([Token.comma].intercalate (items.map toks)) := by
  induction items with
  | nil => exact nil
  | cons a items ih =>
    obtain ⟨hfirst, hrest⟩ := List.forall_mem_cons.1 h
    cases items with
    | nil => simpa using hfirst
    | cons b items =>
      simp only [List.map_cons, List.intercalate_cons_cons, List.append_assoc,
        List.singleton_append]
      exact hfirst.join (ih hrest) punctuates_comma

end Scans

/-- The word for null is one token. -/
theorem scans_null : Scans "null".toList [.scalar .null] := fun _ => rfl

/-- So are those for the truth values. -/
theorem scans_bool (b : Bool) : Scans (render (.bool b)).toList [.scalar (.bool b)] := by
  cases b <;> exact fun _ => rfl

/-- Numeric characters behind the first one are taken into the numeral. -/
theorem foldl_feed_numeral {rest : List Char} (h : ∀ c ∈ rest, isNumeric c = true)
    (chars : List Char) (before : List Token) :
    rest.foldl Scanner.feed ⟨.numeral chars, before⟩ =
      ⟨.numeral (rest.reverse ++ chars), before⟩ := by
  induction rest generalizing chars with
  | nil => rfl
  | cons c rest ih =>
    obtain ⟨hc, hrest⟩ := List.forall_mem_cons.1 h
    have hfeed : Scanner.feed ⟨.numeral chars, before⟩ c = ⟨.numeral (c :: chars), before⟩ := by
      simp [Scanner.feed, hc]
    rw [List.foldl_cons, hfeed, ih hrest]
    simp

/-- A digit or a minus sign begins a number. -/
theorem begin_numeral {c : Char} (hc : (c.isDigit || c == '-') = true) (before : List Token) :
    Scanner.begin before c = ⟨.numeral [c], before⟩ := by
  have hother : [' ', '\n', '\r', '\t', '[', ']', '\x7b', '\x7d', ':', ',', '"'].all
      (fun d => !(d.isDigit || d == '-')) = true := by decide
  have hne : ∀ d ∈ [' ', '\n', '\r', '\t', '[', ']', '\x7b', '\x7d', ':', ',', '"'],
      (c == d) = false := by
    intro d hd
    rw [beq_eq_false_iff_ne]
    rintro rfl
    have hno := List.all_eq_true.1 hother c hd
    rw [hc] at hno
    cases hno
  simp only [List.forall_mem_cons] at hne
  simp [Scanner.begin, isBlank, hne, hc]

/-- An integer is one token. -/
theorem scans_int (i : Int) : Scans i.repr.toList [.scalar (.int i)] := by
  intro before
  obtain ⟨c, rest, hi, hc⟩ := int_repr_start i
  have hnumeric := isNumeric_int_repr i
  have hnumber := isNumber_int_repr i
  have hlit : i.repr = String.ofList (c :: rest) := by rw [← hi, String.ofList_toList]
  rw [hi] at hnumeric hnumber
  rw [hi, List.foldl_cons, Scanner.feed, begin_numeral hc,
    foldl_feed_numeral (List.forall_mem_cons.1 hnumeric).2]
  simp [Scanner.settled?, numeralToken, hnumber, Json.int, hlit]

/-! ### String literals -/

/-- A hexadecimal digit is read as it was written. -/
theorem hexDigit?_hexDigit : ∀ d < 16, hexDigit? (hexDigit d) = some d := by decide

/-- An escape by one letter stands for the character that it was chosen for. -/
theorem escaped?_of_escapeLetter? {c letter : Char} (h : escapeLetter? c = some letter) :
    (letter == 'u') = false ∧ escaped? letter = some c ∧ Quoted.needsEscape c = true := by
  unfold escapeLetter? at h
  split at h
  case h_8 => cases h
  all_goals
    obtain rfl := Option.some.inj h
    exact ⟨rfl, rfl, rfl⟩

/-- What has no escape by one letter is neither a quote nor a backslash. -/
theorem ne_of_escapeLetter?_none {c : Char} (h : escapeLetter? c = none) : c ≠ '"' ∧ c ≠ '\\' := by
  constructor <;>
  · rintro rfl
    cases h

/-- A character as it is written inside a literal is read as this character. -/
theorem foldl_feed_writtenChar (c : Char) (chars : List Char) (verbatim : Bool)
    (before : List Token) :
    (writtenChar c).foldl Scanner.feed ⟨.inside ⟨chars, verbatim, true, none⟩, before⟩ =
      ⟨.inside ⟨c :: chars, verbatim && !Quoted.needsEscape c, true, none⟩, before⟩ := by
  unfold writtenChar
  split
  · next letter hletter =>
    obtain ⟨hunit, hescaped, hneeds⟩ := escaped?_of_escapeLetter? hletter
    simp [Scanner.feed, hunit, hescaped, hneeds, Literal.push, Literal.settle]
  · next hnone =>
    obtain ⟨hquote, hslash⟩ := ne_of_escapeLetter?_none hnone
    split
    · next hcontrol =>
      have hhigh := hexDigit?_hexDigit (c.toNat / 16) (by omega)
      have hlow := hexDigit?_hexDigit (c.toNat % 16) (by omega)
      have hunit : c.toNat / 16 * 16 + c.toNat % 16 = c.toNat := by omega
      have hzero : hexDigit? '0' = some 0 := rfl
      have hpush : Literal.pushUnit ⟨chars, false, true, none⟩ c.toNat =
          ⟨c :: chars, false, true, none⟩ := by
        have hlow : ¬0xDC00 ≤ c.toNat ∧ ¬0xD800 ≤ c.toNat := by omega
        simp [Literal.pushUnit, hlow, Literal.push, Literal.settle, Char.ofNat_toNat]
      simp [Scanner.feed, hzero, hhigh, hlow, hunit, hpush, Quoted.needsEscape, hcontrol]
    · next hplain =>
      simp [Scanner.feed, hquote, hslash, hplain, Literal.push, Literal.settle, Quoted.needsEscape]

/-- A written text is read character by character as it was, escapes included. -/
theorem foldl_feed_writtenText (cs chars : List Char) (verbatim : Bool) (before : List Token) :
    (cs.flatMap writtenChar).foldl Scanner.feed ⟨.inside ⟨chars, verbatim, true, none⟩, before⟩ =
      ⟨.inside ⟨cs.reverse ++ chars, verbatim && !cs.any Quoted.needsEscape, true, none⟩,
        before⟩ := by
  induction cs generalizing chars verbatim with
  | nil => simp
  | cons c cs ih =>
    rw [List.flatMap_cons, List.foldl_append, foldl_feed_writtenChar, ih]
    simp [Bool.and_assoc]

/-- A written text is one token, which holds the text. -/
theorem scans_text (s : String) : Scans (writtenText s).toList [.string (.ofString s)] := by
  intro before
  have hopen : Scanner.feed ⟨.between, before⟩ '"' = ⟨.inside ⟨[], true, true, none⟩, before⟩ := rfl
  have htext : (writtenText s).toList = '"' :: (s.toList.flatMap writtenChar ++ ['"']) := by
    simp [writtenText]
  rw [htext, List.foldl_cons, hopen, List.foldl_append, foldl_feed_writtenText]
  simp [Scanner.feed, Scanner.settled?, Literal.close, Literal.settle, Quoted.ofString]

/-! ## From tokens to a value -/

/-- Wherever a value may stand, the tokens are read as the given one. -/
def Spells (ts : List Token) (j : Json) : Prop :=
  ∀ frames expected, expected = .value ∨ expected = .firstItem →
    ts.foldl Reading.feed (.within frames expected) = .deliver j frames

/-- A scalar is spelt by its token. -/
theorem spells_scalar (j : Json) : Spells [.scalar j] j := by
  rintro frames expected (rfl | rfl) <;> rfl

/-- A text is spelt by its token. -/
theorem spells_text (s : String) : Spells [.string (.ofString s)] (.text s) := by
  rintro frames expected (rfl | rfl) <;> rfl

section Containers

variable {α : Type} {items : List α} {toks : α → List Token} (frame : List α → Frame)
  {frames : List Frame} (first next : Expected)

/-- Reading one item after the other, with commas between them, fills an open frame. -/
theorem foldl_feed_items
    (hcomma : ∀ before, Reading.feed (.within (frame before :: frames) .separator) .comma =
      .within (frame before :: frames) next)
    (hitem : ∀ a ∈ items, ∀ before expected, expected = first ∨ expected = next →
      (toks a).foldl Reading.feed (.within (frame before :: frames) expected) =
        .within (frame (a :: before) :: frames) .separator)
    (hne : items ≠ []) (before : List α) {expected : Expected}
    (hexpected : expected = first ∨ expected = next) :
    ([Token.comma].intercalate (items.map toks)).foldl Reading.feed
        (.within (frame before :: frames) expected) =
      .within (frame (items.reverse ++ before) :: frames) .separator := by
  induction items generalizing before expected with
  | nil => exact absurd rfl hne
  | cons a items ih =>
    obtain ⟨hfirst, hrest⟩ := List.forall_mem_cons.1 hitem
    cases items with
    | nil => simpa using hfirst before expected hexpected
    | cons b items =>
      rw [List.map_cons, List.map_cons, List.intercalate_cons_cons, List.foldl_append,
        List.foldl_append, hfirst before expected hexpected, List.foldl_cons, hcomma,
        List.foldl_nil, ← List.map_cons, ih hrest (List.cons_ne_nil _ _) _ (.inr rfl)]
      simp

/-- The items of an array or of an object, up to its end, are read as the whole. -/
theorem foldl_feed_container {close : Token} {whole : List α → Json}
    (hcomma : ∀ before, Reading.feed (.within (frame before :: frames) .separator) .comma =
      .within (frame before :: frames) next)
    (hclose : ∀ before expected, expected = first ∨ expected = .separator →
      Reading.feed (.within (frame before :: frames) expected) close =
        .deliver (whole before.reverse) frames)
    (hitem : ∀ a ∈ items, ∀ before expected, expected = first ∨ expected = next →
      (toks a).foldl Reading.feed (.within (frame before :: frames) expected) =
        .within (frame (a :: before) :: frames) .separator) :
    ([Token.comma].intercalate (items.map toks) ++ [close]).foldl Reading.feed
        (.within (frame [] :: frames) first) = .deliver (whole items) frames := by
  rw [List.foldl_append]
  by_cases hne : items = []
  · subst hne
    exact hclose [] first (.inl rfl)
  · rw [foldl_feed_items frame first next hcomma hitem hne [] (.inl rfl), List.foldl_cons,
      List.foldl_nil, hclose _ _ (.inr rfl)]
    simp

end Containers

/-- An array is spelt by its items with commas between them. -/
theorem spells_array {items : List Json} {toks : Json → List Token}
    (h : ∀ j ∈ items, Spells (toks j) j) :
    Spells (.openArray :: [Token.comma].intercalate (items.map toks) ++ [.closeArray])
      (.array items) := by
  intro frames expected hexpected
  have hopen : Reading.feed (.within frames expected) .openArray =
      .within (.array [] :: frames) .firstItem := by
    rcases hexpected with rfl | rfl <;> rfl
  rw [List.cons_append, List.foldl_cons, hopen]
  refine foldl_feed_container .array .firstItem .value (fun _ => rfl) ?_
    fun j hj before expected he => ?_
  · rintro before expected (rfl | rfl) <;> rfl
  · exact h j hj _ expected he.symm

/-- An object is spelt by its members with commas between them. -/
theorem spells_object {members : List (String × Json)} {toks : String × Json → List Token}
    (h : ∀ m ∈ members, Spells (toks m) m.2) :
    Spells (.openObject :: [Token.comma].intercalate
        (members.map fun m => .string (.ofString m.1) :: .colon :: toks m) ++ [.closeObject])
      (.ofMembers members) := by
  intro frames expected hexpected
  have hopen : Reading.feed (.within frames expected) .openObject =
      .within (.object [] :: frames) .firstKey := by
    rcases hexpected with rfl | rfl <;> rfl
  rw [List.cons_append, List.foldl_cons, hopen]
  refine foldl_feed_container (fun before => .object (before.map fun m => (.ofString m.1, m.2)))
    .firstKey .key (fun _ => rfl) ?_ fun m hm before expected he => ?_
  · intro before expected he
    rw [ofMembers, List.map_reverse]
    rcases he with rfl | rfl <;> rfl
  · have hkey : Reading.feed (.within (.object (before.map fun m => (.ofString m.1, m.2)) :: frames)
        expected) (.string (.ofString m.1)) =
        .within (.object (before.map fun m => (.ofString m.1, m.2)) :: frames)
          (.colon (.ofString m.1)) := by
      rcases he with rfl | rfl <;> rfl
    rw [List.foldl_cons, List.foldl_cons, hkey]
    exact h m hm _ .value (.inl rfl)

/-! ## Values that can be written -/

/-- A value made of texts, integers, truth values, lists and records. -/
inductive Writable : Json → Prop where
  /-- Something absent. -/
  | null : Writable .null
  /-- A truth value. -/
  | bool (b : Bool) : Writable (.bool b)
  /-- An integer. -/
  | int (i : Int) : Writable (.int i)
  /-- A text. -/
  | text (s : String) : Writable (.text s)
  /-- A list. -/
  | array {items : List Json} (h : ∀ j ∈ items, Writable j) : Writable (.array items)
  /-- A record. -/
  | object {members : List (String × Json)} (h : ∀ m ∈ members, Writable m.2) :
    Writable (.ofMembers members)

/-- The items of an array are rendered one by one. -/
theorem renderItems_eq (items : List Json) : renderItems items = items.map render := by
  induction items with
  | nil => rfl
  | cons item items ih => rw [renderItems, ih, List.map_cons]

/-- The members of an object are rendered one by one. -/
theorem renderMembers_ofString (members : List (String × Json)) :
    renderMembers (members.map fun m => (.ofString m.1, m.2)) =
      members.map fun m => writtenText m.1 ++ ":" ++ m.2.render := by
  induction members with
  | nil => rfl
  | cons m members ih => rw [List.map_cons, renderMembers, ih, List.map_cons]; rfl

/-- Between a value and its text there are tokens. -/
theorem Writable.exists_tokens {j : Json} (h : j.Writable) :
    ∃ ts, Scans j.render.toList ts ∧ Spells ts j := by
  induction h with
  | null => exact ⟨_, scans_null, spells_scalar .null⟩
  | bool b => exact ⟨_, scans_bool b, spells_scalar (.bool b)⟩
  | int i => exact ⟨_, scans_int i, spells_scalar (.int i)⟩
  | text s => exact ⟨_, scans_text s, spells_text s⟩
  | @array items _ ih =>
    choose! toks hscan hspell using ih
    refine ⟨_, ?_, spells_array hspell⟩
    have htext : (render (.array items)).toList =
        '[' :: [','].intercalate (items.map fun j => j.render.toList) ++ [']'] := by
      simp [render, renderItems_eq, String.toList_intercalate, Function.comp_def]
    rw [htext]
    exact (Scans.intercalate hscan).enclosed punctuates_openArray punctuates_closeArray
  | @object members _ ih =>
    choose! toks hscan hspell using ih
    refine ⟨_, ?_, spells_object hspell⟩
    have htext : (render (.ofMembers members)).toList =
        '\x7b' :: [','].intercalate (members.map fun m =>
          (writtenText m.1).toList ++ ':' :: m.2.render.toList) ++ ['\x7d'] := by
      simp [render, ofMembers, renderMembers_ofString, String.toList_intercalate, Function.comp_def]
    rw [htext]
    refine (Scans.intercalate fun m hm => ?_).enclosed punctuates_openObject punctuates_closeObject
    exact (scans_text m.1).join (hscan m hm) punctuates_colon

/-- What was written is read, to the end of the text. -/
theorem Writable.read_render {j : Json} (h : j.Writable) : read j.render = ⟨j, true⟩ := by
  obtain ⟨ts, hscan, hspell⟩ := h.exists_tokens
  rw [read, hscan.tokens_eq, Reading.start, hspell [] .value (.inl rfl)]
  rfl

/-! ## Formats -/

/-- A way to write values as texts and to read texts, by whatever rules, in which a value that can
be written is read as it was, to the end of its text. -/
structure TextFormat where
  /-- The text that is written for a value. -/
  write : Json → String
  /-- The document that is read from a text. -/
  read : String → Document
  /-- What was written is read. -/
  read_write : ∀ {j : Json}, j.Writable → read (write j) = ⟨j, true⟩

/-- The format of this library. -/
def TextFormat.compact : TextFormat := ⟨render, Json.read, Writable.read_render⟩

end Pathwise.Json
