import Mathlib.Data.List.TakeWhile
import Pathwise.Graph.Dot
import Pathwise.Proofs.JsonText

/-!
# Reading drawings

A drawing is made of lines, one for each statement between those that open it and the one that
closes it. A statement says that there is a vertex or an edge, with a label in quotes. In quotes a
backslash takes the character behind it along, so that a quote behind a backslash does not end the
label; any other quote does, and a line break cannot stand there. The drawing of a graph has just
these lines. The line of a vertex is read as a statement exactly if its label can stand in quotes.
-/

namespace Pathwise.Dot

/-! ## Texts in quotes -/

/-- What can stand between two quotes: no bare quote, no line break, and no backslash without a
character behind it. -/
inductive Quotable : List Char → Prop where
  /-- The empty text. -/
  | nil : Quotable []
  /-- A character that means itself. -/
  | plain {c : Char} {cs : List Char} (hquote : c ≠ '"') (hescape : c ≠ '\\') (hbreak : c ≠ '\n')
    (h : Quotable cs) : Quotable (c :: cs)
  /-- A backslash and the character behind it. -/
  | escape {c : Char} {cs : List Char} (hbreak : c ≠ '\n') (h : Quotable cs) :
    Quotable ('\\' :: c :: cs)

/-- A first character that is no backslash may be neither a quote nor a line break. -/
theorem quotable_cons_iff {c : Char} {cs : List Char} (hescape : c ≠ '\\') :
    Quotable (c :: cs) ↔ c ≠ '"' ∧ c ≠ '\n' ∧ Quotable cs := by
  constructor
  · intro h
    cases h with
    | plain hquote _ hbreak h => exact ⟨hquote, hbreak, h⟩
    | escape => exact absurd rfl hescape
  · rintro ⟨hquote, hbreak, h⟩
    exact .plain hquote hescape hbreak h

/-- Behind a backslash any character but a line break may stand. -/
theorem quotable_escape_iff {c : Char} {cs : List Char} :
    Quotable ('\\' :: c :: cs) ↔ c ≠ '\n' ∧ Quotable cs := by
  constructor
  · intro h
    cases h with
    | plain _ hescape _ _ => exact absurd rfl hescape
    | escape hbreak h => exact ⟨hbreak, h⟩
  · rintro ⟨hbreak, h⟩
    exact .escape hbreak h

/-- Reads on from behind a quote: what stands before the next bare quote, and what is behind it. -/
def quoted : List Char → Option (List Char × List Char)
  | [] => none
  | '\\' :: c :: rest =>
    if c = '\n' then none else (quoted rest).map fun p => ('\\' :: c :: p.1, p.2)
  | c :: rest =>
    if c = '"' then some ([], rest)
    else if c = '\\' ∨ c = '\n' then none
    else (quoted rest).map fun p => (c :: p.1, p.2)

/-- What is read is what can stand in quotes, up to the quote that ends it. -/
theorem quoted_eq_some_iff {cs text behind : List Char} :
    quoted cs = some (text, behind) ↔ Quotable text ∧ cs = text ++ '"' :: behind := by
  constructor
  · intro h
    fun_induction quoted cs generalizing text with
    | case1 => cases h
    | case2 => cases h
    | case3 c rest hbreak ih =>
      obtain ⟨p, hp, heq⟩ := Option.map_eq_some_iff.1 h
      obtain ⟨rfl, rfl⟩ := Prod.mk.inj heq
      obtain ⟨hquotable, rfl⟩ := ih hp
      exact ⟨.escape hbreak hquotable, rfl⟩
    | case4 rest =>
      obtain ⟨rfl, rfl⟩ := Prod.mk.inj (Option.some.inj h)
      exact ⟨.nil, rfl⟩
    | case5 => cases h
    | case6 c rest _ hquote hplain ih =>
      obtain ⟨p, hp, heq⟩ := Option.map_eq_some_iff.1 h
      obtain ⟨rfl, rfl⟩ := Prod.mk.inj heq
      obtain ⟨hquotable, rfl⟩ := ih hp
      obtain ⟨hescape, hbreak⟩ := not_or.1 hplain
      exact ⟨.plain hquote hescape hbreak hquotable, rfl⟩
  · rintro ⟨h, rfl⟩
    induction h with
    | nil => simp [quoted]
    | plain hquote hescape hbreak _ ih => simp [quoted, hquote, hescape, hbreak, ih]
    | escape hbreak _ ih => simp [quoted, hbreak, ih]

/-- What a text in quotes shows: an escaped `l` ends a line, and any other escaped character stands
for itself. -/
def shown : List Char → List Char
  | [] => []
  | '\\' :: c :: rest => (if c = 'l' then '\n' else c) :: shown rest
  | c :: rest => c :: shown rest

/-! ## Statements -/

/-- What a line of a drawing says. -/
inductive Statement where
  /-- There is a vertex with a label. -/
  | vertex (index : Nat) (label : String)
  /-- There is an edge with a label and a line style. -/
  | edge (head tail : Nat) (label style : String)
  deriving DecidableEq, Repr

/-- The number that a text starts with, and what is behind it. -/
def number (cs : List Char) : Option (Nat × List Char) :=
  if cs.takeWhile Char.isDigit = [] then none
  else some (Nat.ofDigitChars 10 (cs.takeWhile Char.isDigit) 0, cs.dropWhile Char.isDigit)

/-- What is behind a given beginning. -/
def behind : List Char → List Char → Option (List Char)
  | [], cs => some cs
  | t :: ts, c :: cs => if t = c then behind ts cs else none
  | _ :: _, [] => none

/-- Reads the line of a vertex. -/
def vertexStatement (cs : List Char) : Option Statement :=
  (number cs).bind fun index =>
    (behind " [shape=\"box\", label=\"".toList index.2).bind fun cs =>
      (quoted cs).bind fun label =>
        if label.2 = "];".toList then some (.vertex index.1 (String.ofList (shown label.1)))
        else none

/-- Reads the line of an edge. -/
def edgeStatement (cs : List Char) : Option Statement :=
  (number cs).bind fun head =>
    (behind " -> ".toList head.2).bind fun cs =>
      (number cs).bind fun tail =>
        (behind " [label=\"".toList tail.2).bind fun cs =>
          (quoted cs).bind fun label =>
            (behind ", style=\"".toList label.2).bind fun cs =>
              (quoted cs).bind fun style =>
                if style.2 = "];".toList then
                  some (.edge head.1 tail.1 (String.ofList (shown label.1))
                    (String.ofList (shown style.1)))
                else none

/-- Reads a line. -/
def statement (line : String) : Option Statement :=
  (vertexStatement line.toList).or (edgeStatement line.toList)

/-- A number that a blank follows is read. -/
theorem number_repr (n : Nat) {token : List Char} (htoken : token.head? = some ' ')
    (rest : List Char) : number (n.repr.toList ++ (token ++ rest)) = some (n, token ++ rest) := by
  obtain ⟨ts, rfl⟩ := List.head?_eq_some_iff.1 htoken
  have hdigits : ∀ c ∈ n.repr.toList, c.isDigit = true := by
    rw [Nat.toList_repr]
    exact List.all_eq_true.1 (Json.all_isDigit_toDigits n)
  have htake : (n.repr.toList ++ (' ' :: ts ++ rest)).takeWhile Char.isDigit = n.repr.toList := by
    rw [List.takeWhile_append_of_pos hdigits]
    simp
  have hdrop : (n.repr.toList ++ (' ' :: ts ++ rest)).dropWhile Char.isDigit =
      ' ' :: ts ++ rest := by
    rw [List.dropWhile_append_of_pos hdigits]
    simp
  rw [number, htake, hdrop, Nat.toList_repr, if_neg Nat.toDigits_ne_nil,
    Nat.ofDigitChars_ten_toDigits]

/-- A token at the front of a text is taken off. -/
theorem behind_append (token rest : List Char) : behind token (token ++ rest) = some rest := by
  induction token with
  | nil => rfl
  | cons t ts ih => simp [behind, ih]

/-! ## The lines of vertices and edges -/

section Lines

open Pathwise.Graph

variable {V L : Type} (d : Drawing V L)

/-- A vertex is drawn by its index and its label in quotes. -/
theorem toList_dotVertex (index : Nat) (v : V) :
    (dotVertex d index v).toList = index.repr.toList ++ (" [shape=\"box\", label=\"".toList ++
      ((dotLabel (d.vertexLabel v)).toList ++ '"' :: "];".toList)) := by
  simp only [dotVertex, String.toList_append, List.append_assoc]
  rfl

/-- An edge is drawn by its ends, its label and its style. -/
theorem toList_dotEdge (e : Edge L) :
    (dotEdge d e).toList = e.head.repr.toList ++ (" -> ".toList ++ (e.tail.repr.toList ++
      (" [label=\"".toList ++ ((dotLabel (d.edgeLabel e.label)).toList ++ '"' ::
        (", style=\"".toList ++ ((d.edgeStyle e.label).toList ++ '"' :: "];".toList)))))) := by
  simp only [dotEdge, String.toList_append, List.append_assoc]
  rfl

/-- The line of a vertex is read as the statement of a vertex, if its label can be read. -/
theorem vertexStatement_dotVertex (index : Nat) (v : V) :
    vertexStatement (dotVertex d index v).toList =
      (quoted ((dotLabel (d.vertexLabel v)).toList ++ '"' :: "];".toList)).bind fun label =>
        if label.2 = "];".toList then some (.vertex index (String.ofList (shown label.1)))
        else none := by
  unfold vertexStatement
  rw [toList_dotVertex, number_repr index rfl, Option.bind_some, behind_append, Option.bind_some]

/-- The line of a vertex is not read as an edge. -/
theorem edgeStatement_dotVertex (index : Nat) (v : V) :
    edgeStatement (dotVertex d index v).toList = none := by
  unfold edgeStatement
  rw [toList_dotVertex, number_repr index rfl]
  rfl

/-- The line of an edge is not read as a vertex. -/
theorem vertexStatement_dotEdge (e : Edge L) : vertexStatement (dotEdge d e).toList = none := by
  unfold vertexStatement
  rw [toList_dotEdge, number_repr e.head rfl]
  rfl

/-- The line of a vertex is read if its label can stand in quotes. -/
theorem statement_dotVertex (index : Nat) {v : V}
    (h : Quotable (dotLabel (d.vertexLabel v)).toList) :
    statement (dotVertex d index v) =
      some (.vertex index (String.ofList (shown (dotLabel (d.vertexLabel v)).toList))) := by
  rw [statement, vertexStatement_dotVertex, quoted_eq_some_iff.2 ⟨h, rfl⟩]
  simp

/-- It is not read otherwise. -/
theorem statement_dotVertex_eq_none (index : Nat) {v : V}
    (h : ¬Quotable (dotLabel (d.vertexLabel v)).toList) :
    statement (dotVertex d index v) = none := by
  rw [statement, edgeStatement_dotVertex, Option.or_none, vertexStatement_dotVertex,
    Option.bind_eq_none_iff]
  rintro ⟨text, rest⟩ hquoted
  refine if_neg fun hrest => h ?_
  -- were the line read to its end, the label would be what was read
  obtain ⟨hquotable, htext⟩ := quoted_eq_some_iff.1 hquoted
  obtain rfl : rest = "];".toList := hrest
  rwa [List.append_cancel_right htext]

/-- The line of an edge is read as the statement of the edge, if label and style can be quoted. -/
theorem statement_dotEdge {e : Edge L} (hlabel : Quotable (dotLabel (d.edgeLabel e.label)).toList)
    (hstyle : Quotable (d.edgeStyle e.label).toList) :
    statement (dotEdge d e) = some (.edge e.head e.tail
      (String.ofList (shown (dotLabel (d.edgeLabel e.label)).toList))
      (String.ofList (shown (d.edgeStyle e.label).toList))) := by
  rw [statement, vertexStatement_dotEdge, Option.none_or]
  unfold edgeStatement
  rw [toList_dotEdge, number_repr e.head rfl, Option.bind_some, behind_append, Option.bind_some,
    number_repr e.tail rfl, Option.bind_some, behind_append, Option.bind_some,
    quoted_eq_some_iff.2 ⟨hlabel, rfl⟩, Option.bind_some, behind_append, Option.bind_some,
    quoted_eq_some_iff.2 ⟨hstyle, rfl⟩, Option.bind_some, if_pos rfl]

end Lines

/-! ## Labels as they are written -/

section Labels

variable {front cs : List Char}

/-- Characters that mean themselves in quotes, line breaks included: these are written in another
way. -/
def isPlain (c : Char) : Bool := c != '"' && c != '\\'

/-- What is written for the characters of a label. -/
def written (cs : List Char) : List Char :=
  cs.flatMap fun c => if c = '\n' then ['\\', 'l'] else [c]

/-- A label is written character by character. -/
theorem toList_dotLabel (s : String) : (Graph.dotLabel s).toList = written s.toList := by
  simp [Graph.dotLabel, written]

/-- No line break is left in a written label. -/
theorem break_not_mem_written : '\n' ∉ written cs := by
  intro h
  obtain ⟨c, -, hc⟩ := List.mem_flatMap.1 h
  split at hc
  · simp at hc
  · next hbreak => exact hbreak (List.mem_singleton.1 hc).symm

/-- Plain characters at the front make no difference to whether a label can stand in quotes. -/
theorem quotable_written_append (hfront : front.all isPlain = true) :
    Quotable (written (front ++ cs)) ↔ Quotable (written cs) := by
  induction front with
  | nil => rfl
  | cons c front ih =>
    obtain ⟨hc, hfront⟩ : isPlain c = true ∧ front.all isPlain = true := by simpa using hfront
    obtain ⟨hquote, hescape⟩ : c ≠ '"' ∧ c ≠ '\\' := by simpa [isPlain] using hc
    rw [← ih hfront]
    by_cases hbreak : c = '\n'
    · simp [written, hbreak, quotable_escape_iff]
    · simp [written, hbreak, quotable_cons_iff hescape, hquote]

/-- A quote in a label is written as it is, and ends the label. -/
theorem not_quotable_written_quote : ¬Quotable (written ('"' :: cs)) := by
  simp [written, quotable_cons_iff]

/-- A label of plain characters can be quoted once it is written. -/
theorem quotable_written (h : cs.all isPlain = true) : Quotable (written cs) := by
  rw [← List.append_nil cs, quotable_written_append h]
  exact .nil

/-- A label of plain characters is shown as it is. -/
theorem shown_written (h : cs.all isPlain = true) : shown (written cs) = cs := by
  induction cs with
  | nil => rfl
  | cons c cs ih =>
    obtain ⟨hc, hcs⟩ : isPlain c = true ∧ cs.all isPlain = true := by simpa using h
    obtain ⟨-, hescape⟩ : c ≠ '"' ∧ c ≠ '\\' := by simpa [isPlain] using hc
    by_cases hbreak : c = '\n'
    · subst hbreak
      exact congrArg ('\n' :: ·) (ih hcs)
    · have hcons : written (c :: cs) = c :: written cs := by simp [written, hbreak]
      rw [hcons, shown, ih hcs]
      simp [hescape]

end Labels

/-! ## Whole drawings -/

/-- The lines with which a drawing starts. -/
def opening : List String := ["digraph G \x7b", "node [fontname = \"Courier New\"]", ""]

/-- The line with which a drawing ends. -/
def closing : String := "\x7d"

/-- The lines of a text. -/
def lines (text : String) : List String := (text.toList.splitOn '\n').map String.ofList

/-- Reads a drawing: the statements between its opening and its closing. Blank lines say nothing. -/
def read (text : String) : Option (List Statement) :=
  let ls := lines text
  if ls.take 3 = opening ∧ ls.getLast? = some closing then
    ((ls.drop 3).dropLast.filter (· ≠ "")).mapM statement
  else
    none

/-- Some lines, or a blank one if there are none. -/
def orBlank (ls : List String) : List String := if ls = [] then [""] else ls

/-- There is always a line, a blank one if there is no other. -/
theorem orBlank_ne_nil (ls : List String) : orBlank ls ≠ [] := by
  unfold orBlank
  split <;> simp [*]

/-- A blank line in place of none makes no difference to the text. -/
theorem intercalate_orBlank (ls : List String) :
    "\n".intercalate (orBlank ls) = "\n".intercalate ls := by
  unfold orBlank
  split
  · next hnil => rw [hnil]; rfl
  · rfl

section Whole

open Pathwise.Graph

variable {V L : Type} (d : Drawing V L) (g : Graph V L)

/-- The lines of the vertices, by index. -/
def vertexLines : List String := g.vertices.entries.map fun e => dotVertex d e.1 e.2

/-- The lines of the edges, in their order. -/
def edgeLines : List String := g.edges.map (dotEdge d)

/-- All lines of a drawing. -/
def drawingLines : List String :=
  opening ++ orBlank (vertexLines d g) ++ orBlank (edgeLines d g) ++ [closing]

/-- A drawing consists of lines. -/
theorem dot_eq : dot d g = "\n".intercalate (drawingLines d g) := by
  have hopening : "digraph G \x7b\nnode [fontname = \"Courier New\"]\n\n" =
      "\n".intercalate opening ++ "\n" := by decide
  have hclosing : "\n\x7d" = "\n" ++ closing := by decide
  have hdot : dot d g = "digraph G \x7b\nnode [fontname = \"Courier New\"]\n\n" ++
      "\n".intercalate (vertexLines d g) ++ "\n" ++ "\n".intercalate (edgeLines d g) ++
      "\n\x7d" := rfl
  have hvertices := orBlank_ne_nil (vertexLines d g)
  have hedges := orBlank_ne_nil (edgeLines d g)
  rw [hdot, hopening, hclosing, drawingLines,
    String.intercalate_append_of_ne_nil (by simp [hedges]) (by simp),
    String.intercalate_append_of_ne_nil (by simp [hvertices]) hedges,
    String.intercalate_append_of_ne_nil (by simp [opening]) hvertices, intercalate_orBlank,
    intercalate_orBlank, String.intercalate_singleton]
  simp only [String.append_assoc]

variable {d g}

/-- A number has no line break. -/
theorem break_not_mem_toDigits (n : Nat) : '\n' ∉ Nat.toDigits 10 n := by
  intro h
  have hdigit := List.all_eq_true.1 (Json.all_isDigit_toDigits n) _ h
  simp at hdigit

/-- A blank line has no line break, either. -/
theorem break_not_mem_orBlank {ls : List String} (h : ∀ line ∈ ls, '\n' ∉ line.toList) :
    ∀ line ∈ orBlank ls, '\n' ∉ line.toList := by
  unfold orBlank
  split
  · simp
  · exact h

/-- No line of a drawing has a line break in it. -/
theorem break_not_mem_drawingLines (hstyle : ∀ e ∈ g.edges, '\n' ∉ (d.edgeStyle e.label).toList) :
    ∀ line ∈ drawingLines d g, '\n' ∉ line.toList := by
  have hvertex : ∀ line ∈ vertexLines d g, '\n' ∉ line.toList := by
    intro line hline
    obtain ⟨e, -, rfl⟩ := List.mem_map.1 hline
    rw [toList_dotVertex, toList_dotLabel]
    simp [break_not_mem_toDigits, break_not_mem_written]
  have hedge : ∀ line ∈ edgeLines d g, '\n' ∉ line.toList := by
    intro line hline
    obtain ⟨e, he, rfl⟩ := List.mem_map.1 hline
    rw [toList_dotEdge, toList_dotLabel]
    simp [break_not_mem_toDigits, break_not_mem_written, hstyle e he]
  have hopening : ∀ line ∈ opening, '\n' ∉ line.toList := by simp [opening]
  intro line hline
  simp only [drawingLines, List.mem_append, List.mem_singleton] at hline
  rcases hline with ((hline | hline) | hline) | rfl
  · exact hopening line hline
  · exact break_not_mem_orBlank hvertex line hline
  · exact break_not_mem_orBlank hedge line hline
  · simp [closing]

/-- A drawing has the lines that open it, a line for each vertex and for each edge, and the line
that closes it, if no line style has a line break. -/
theorem lines_dot (hstyle : ∀ e ∈ g.edges, '\n' ∉ (d.edgeStyle e.label).toList) :
    lines (dot d g) = drawingLines d g := by
  have hne : (drawingLines d g).map String.toList ≠ [] := by simp [drawingLines]
  have hbreak : ∀ line ∈ (drawingLines d g).map String.toList, '\n' ∉ line := by
    simpa using break_not_mem_drawingLines hstyle
  have hseparator : "\n".toList = ['\n'] := rfl
  rw [lines, dot_eq, String.toList_intercalate, hseparator, List.splitOn_intercalate _ hbreak hne]
  simp

/-- Without the blank lines the others are left. -/
theorem filter_orBlank {ls : List String} (h : ∀ line ∈ ls, line ≠ "") :
    (orBlank ls).filter (· ≠ "") = ls := by
  unfold orBlank
  split
  · next hnil => simp [hnil]
  · simpa [List.filter_eq_self] using h

/-- What is read from a drawing is what is read from the lines of its vertices and edges. -/
theorem read_dot (hstyle : ∀ e ∈ g.edges, '\n' ∉ (d.edgeStyle e.label).toList) :
    read (dot d g) = (vertexLines d g ++ edgeLines d g).mapM statement := by
  have hvertex : ∀ line ∈ vertexLines d g, line ≠ "" := by
    intro line hline
    obtain ⟨e, -, rfl⟩ := List.mem_map.1 hline
    rw [ne_eq, ← String.toList_eq_nil_iff, toList_dotVertex]
    simp
  have hedge : ∀ line ∈ edgeLines d g, line ≠ "" := by
    intro line hline
    obtain ⟨e, -, rfl⟩ := List.mem_map.1 hline
    rw [ne_eq, ← String.toList_eq_nil_iff, toList_dotEdge]
    simp
  have hbody : ((drawingLines d g).drop 3).dropLast =
      orBlank (vertexLines d g) ++ orBlank (edgeLines d g) := by
    simp [drawingLines, opening]
  have hframe : (drawingLines d g).take 3 = opening ∧
      (drawingLines d g).getLast? = some closing := by
    constructor
    · simp [drawingLines, opening]
    · exact List.getLast?_concat
  unfold read
  simp only [lines_dot hstyle, hbody, List.filter_append, filter_orBlank hvertex,
    filter_orBlank hedge]
  rw [if_pos hframe]

end Whole

end Pathwise.Dot
