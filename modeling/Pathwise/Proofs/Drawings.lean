import Pathwise.Proofs.DotText
import Pathwise.Proofs.Shapes

/-!
# Drawings of flow graphs

The drawing of a flow graph has one line for each block, by index, and one for each edge, in the
order of the edges. The label of a block is the block as text. In it nodes, places, indices and all
operations but one are shown in characters that mean themselves. A text constant is shown between
quotes, and these end the label. So the drawing can be read back, and gives the blocks and edges,
exactly if no block pushes a text constant.
-/

namespace Pathwise

open Dot

/-! ## Plain texts -/

/-- What holds of each single digit holds of the digits of a number. -/
theorem all_toDigits {p : Char → Bool} {b : Nat} (hb : 1 < b)
    (hp : ∀ d < b, p d.digitChar = true) (n : Nat) : (Nat.toDigits b n).all p = true := by
  induction n using Nat.strongRecOn with
  | ind n ih =>
    rcases Nat.lt_or_ge n b with hn | hn
    · simp [Nat.toDigits_of_lt_base hn, hp n hn]
    · have hless : n / b < n := Nat.div_lt_self (by omega) hb
      rw [Nat.toDigits_of_base_le hb hn, List.all_append, ih _ hless]
      simp [hp _ (Nat.mod_lt n (by omega))]

/-- The digits of a number are plain characters. -/
@[simp]
theorem isPlain_toDigits (n : Nat) : (Nat.toDigits 10 n).all isPlain = true :=
  all_toDigits (by decide) (by decide) n

/-- So are the hexadecimal ones. -/
@[simp]
theorem isPlain_hex (n : Nat) : (Text.hex n).toList.all isPlain = true := by
  have hdigits : (Nat.toDigits 16 n).all (isPlain ∘ Char.toUpper) = true :=
    all_toDigits (by decide) (by decide) n
  have hmark : "0x".toList.all isPlain = true := by decide
  rw [Text.hex, String.toList_append, List.all_append, hmark, String.toList_ofList, List.all_map,
    hdigits]
  rfl

/-- So is an integer with its sign. -/
theorem isPlain_int (i : Int) : i.repr.toList.all isPlain = true := by
  rcases Json.toList_int_repr i with ⟨-, h⟩ | ⟨-, h⟩
  · rw [h, isPlain_toDigits]
  · rw [h, List.all_cons, isPlain_toDigits]
    rfl

/-- Whether an operation pushes a text constant. -/
def Operation.pushesText : Operation → Bool
  | .literal (.string _) => true
  | _ => false

/-- Whether a block pushes a text constant. -/
def Block.hasTexts (b : Block) : Bool := b.instructions.any fun i => i.operation.pushesText

/-- An operation that pushes no text is shown in plain characters. -/
theorem Operation.isPlain_render {op : Operation} (h : op.pushesText = false) :
    op.render.toList.all isPlain = true := by
  unfold Operation.render
  cases op with
  | literal c =>
    have hfront : "literal ".toList.all isPlain = true := by decide
    rw [String.toList_append, List.all_append, hfront, Bool.true_and]
    cases c with
    | null => decide
    | bool b => cases b <;> decide
    | integer i => exact isPlain_int i.toInt
    | string s => cases h
  | binary op => cases op <;> decide
  | objectCreation arguments => simp [isPlain]
  | arrayCreation dimensions => simp [isPlain]
  | invocation arguments hasReceiver => cases hasReceiver <;> simp [isPlain]
  | ret hasValue => cases hasValue <;> decide
  | _ => decide

/-- So is its instruction. -/
theorem Instruction.isPlain_render {i : Instruction} (h : i.operation.pushesText = false) :
    i.render.toList.all isPlain = true := by
  have hoperation := Operation.isPlain_render h
  cases hspan : i.span with
  | none => simp [Instruction.render, NodeId.render, hspan, hoperation, isPlain]
  | some span =>
    simp [Instruction.render, NodeId.render, Span.render, hspan, hoperation, isPlain]

/-- In front of the first quote of a text constant all characters are plain. -/
theorem Instruction.render_of_pushesText {i : Instruction} (h : i.operation.pushesText = true) :
    ∃ front rest, i.render.toList = front ++ '"' :: rest ∧ front.all isPlain = true := by
  obtain ⟨node, operation, span⟩ := i
  cases operation with
  | literal c =>
    cases c with
    | string s =>
      obtain ⟨place, hrender⟩ : ∃ place, Instruction.render ⟨node, .literal (.string s), span⟩ =
          node.render ++ " " ++ ("literal " ++ ("\"" ++ s ++ "\"")) ++ place := ⟨_, rfl⟩
      refine ⟨node.render.toList ++ " literal ".toList, s.toList ++ '"' :: place.toList, ?_, ?_⟩
      · simp [hrender]
      · simp [NodeId.render, isPlain]
    | _ => cases h
  | _ => cases h

/-! ## Labels of blocks -/

namespace Block

variable {b : Block}

/-- The lines of instructions can stand in a label exactly if none pushes a text constant. -/
theorem quotable_instructions (is : List Instruction) :
    Quotable (written (is.flatMap fun i => i.render.toList ++ ['\n'])) ↔
      is.any (fun i => i.operation.pushesText) = false := by
  induction is with
  | nil => simp [written, Quotable.nil]
  | cons i is ih =>
    rw [List.flatMap_cons, List.any_cons]
    cases htext : i.operation.pushesText with
    | false =>
      have hfront : (i.render.toList ++ ['\n']).all isPlain = true := by
        simp [Instruction.isPlain_render htext, isPlain]
      rw [quotable_written_append hfront, ih, Bool.false_or]
    | true =>
      obtain ⟨front, rest, hrender, hfront⟩ := Instruction.render_of_pushesText htext
      rw [hrender, List.append_assoc, List.append_assoc, quotable_written_append hfront]
      simp [not_quotable_written_quote]

/-- A block is shown as a heading with its index and a line for each instruction. -/
theorem toList_render : b.render.toList = ("[ Block: ".toList ++ (Text.hex b.index).toList ++
    " ]\n".toList) ++ b.instructions.flatMap fun i => i.render.toList ++ ['\n'] := by
  simp [Block.render, String.toList_join, List.flatMap_map]

/-- The heading is made of plain characters. -/
theorem isPlain_heading (index : Nat) :
    ("[ Block: ".toList ++ (Text.hex index).toList ++ " ]\n".toList).all isPlain = true := by
  simp [isPlain]

/-- The label of a block can stand in quotes exactly if the block pushes no text constant. -/
theorem quotable_label : Quotable (Graph.dotLabel b.render).toList ↔ b.hasTexts = false := by
  rw [toList_dotLabel, toList_render, quotable_written_append (isPlain_heading b.index),
    quotable_instructions, hasTexts]

/-- The label of a block without text constants shows the block. -/
theorem shown_label (h : b.hasTexts = false) :
    shown (Graph.dotLabel b.render).toList = b.render.toList := by
  have hinstructions : ∀ i ∈ b.instructions, i.render.toList.all isPlain = true := by
    intro i hi
    have htext := List.any_eq_false.1 h i hi
    exact Instruction.isPlain_render (by simpa using htext)
  have hplain : b.render.toList.all isPlain = true := by
    rw [toList_render, List.all_append, isPlain_heading, List.all_flatMap, Bool.true_and,
      List.all_eq_true]
    intro i hi
    rw [List.all_append, hinstructions i hi]
    rfl
  rw [toList_dotLabel, shown_written hplain]

end Block

namespace Transfer

/-- The label of a transfer can be quoted. -/
theorem quotable_label (t : Transfer) : Quotable (Graph.dotLabel t.render).toList := by
  rw [toList_dotLabel]
  exact quotable_written (by cases t <;> decide)

/-- It is shown as the transfer is. -/
theorem shown_label (t : Transfer) : shown (Graph.dotLabel t.render).toList = t.render.toList := by
  rw [toList_dotLabel]
  exact shown_written (by cases t <;> decide)

/-- A line style has nothing that is written in another way. -/
theorem written_style (t : Transfer) : written t.style.toList = t.style.toList := by
  cases t <;> decide

/-- The style of a transfer is made of plain characters. -/
theorem isPlain_style (t : Transfer) : t.style.toList.all isPlain = true := by
  cases t <;> decide

/-- So it can be quoted. -/
theorem quotable_style (t : Transfer) : Quotable t.style.toList := by
  rw [← written_style]
  exact quotable_written t.isPlain_style

/-- It is shown as it is. -/
theorem shown_style (t : Transfer) : shown t.style.toList = t.style.toList := by
  have h := shown_written t.isPlain_style
  rwa [written_style] at h

end Transfer

/-! ## Reading the drawing back -/

section Statements

variable {α : Type} {l : List α} {line : α → String} {s : α → Statement}

/-- If every line is read, so are all of them. -/
theorem mapM_statement (h : ∀ a ∈ l, statement (line a) = some (s a)) :
    (l.map line).mapM statement = some (l.map s) := by
  induction l with
  | nil => rfl
  | cons a l ih =>
    obtain ⟨ha, hl⟩ := List.forall_mem_cons.1 h
    rw [List.map_cons, List.mapM_cons, ha, ih hl]
    rfl

/-- If one line is not read, nothing is. -/
theorem mapM_statement_eq_none {ls : List String} {x : String} (hx : x ∈ ls)
    (h : statement x = none) : ls.mapM statement = none := by
  induction hx with
  | head =>
    rw [List.mapM_cons, h]
    rfl
  | @tail y ls _ ih =>
    rw [List.mapM_cons, ih]
    cases statement y <;> rfl

end Statements

namespace FlowGraph

open Pathwise.Graph

variable {g : FlowGraph}

/-- What the drawing of a flow graph says: the blocks by index, and the edges in their order. -/
def statements (g : FlowGraph) : List Statement :=
  g.blocks.map (fun b => .vertex b.index b.render) ++
    g.edges.map fun e => .edge e.head e.tail e.label.render e.label.style

/-- The line of a block names the index of the block. -/
theorem Sound.vertexLines_eq (h : g.Sound) :
    vertexLines drawing g.graph = g.blocks.map fun b => dotVertex drawing b.index b := by
  unfold vertexLines FlowGraph.blocks SortedMap.values
  rw [List.map_map]
  refine List.map_congr_left fun e he => ?_
  have hindex := h.index (SortedMap.get?_eq_some_iff.2 he)
  rw [Function.comp_apply, hindex]

/-- No style has a line break. -/
theorem break_not_mem_style (e : FlowEdge) : '\n' ∉ (drawing.edgeStyle e.label).toList := by
  rw [show drawing.edgeStyle e.label = e.label.style from rfl, ← Transfer.written_style]
  exact break_not_mem_written

/-- The line of a block without texts is read as the statement of the block. -/
theorem statement_block {b : Block} (h : b.hasTexts = false) :
    statement (dotVertex drawing b.index b) = some (.vertex b.index b.render) := by
  rw [statement_dotVertex drawing b.index (Block.quotable_label.2 h)]
  simp only [drawing, Block.shown_label h, String.ofList_toList]

/-- The line of a block with a text cannot be read. -/
theorem statement_block_eq_none {b : Block} (h : b.hasTexts = true) :
    statement (dotVertex drawing b.index b) = none := by
  refine statement_dotVertex_eq_none drawing b.index fun hquotable => ?_
  rw [Block.quotable_label.1 hquotable] at h
  cases h

/-- The line of an edge is always read as the statement of the edge. -/
theorem statement_edge (e : FlowEdge) : statement (dotEdge drawing e) =
    some (.edge e.head e.tail e.label.render e.label.style) := by
  rw [statement_dotEdge drawing e.label.quotable_label e.label.quotable_style]
  simp only [drawing, Transfer.shown_label, Transfer.shown_style, String.ofList_toList]

/-- The drawing of a sound graph is read as its statements, unless a block has a text. -/
theorem Sound.read_dot (h : g.Sound) : read g.dot =
    if g.blocks.any Block.hasTexts = true then none else some g.statements := by
  unfold FlowGraph.dot
  rw [Dot.read_dot fun e _ => break_not_mem_style e, h.vertexLines_eq]
  split
  · next htexts =>
    obtain ⟨b, hb, hbtexts⟩ := List.any_eq_true.1 htexts
    have hline : dotVertex drawing b.index b ∈
        g.blocks.map fun b => dotVertex drawing b.index b := List.mem_map_of_mem hb
    exact mapM_statement_eq_none (List.mem_append_left _ hline) (statement_block_eq_none hbtexts)
  · next htexts =>
    have hnone : ∀ b ∈ g.blocks, b.hasTexts = false := by simpa using htexts
    have hblocks : ∀ b ∈ g.blocks, statement (dotVertex drawing b.index b) =
        some (.vertex b.index b.render) := fun b hb => statement_block (hnone b hb)
    have hedges : ∀ e ∈ g.graph.edges, statement (dotEdge drawing e) =
        some (.edge e.head e.tail e.label.render e.label.style) := fun e _ => statement_edge e
    rw [List.mapM_append, mapM_statement hblocks, edgeLines, mapM_statement hedges]
    rfl

/-- The drawing of a flow graph is made of the lines that open it, one line for each block in the
order of the indices, one line for each edge in the order of the edges, and the line that closes
it. No label has a line break. The labels and styles of edges can always stand in quotes, the label
of a block exactly if the block pushes no text constant. If no block does, the drawing is read back
as the blocks with their indices and labels and the edges with their ends, labels and styles;
otherwise it is not read at all. -/
theorem drawing_readable_iff (h : g.Built) :
    lines g.dot = opening ++ orBlank (g.blocks.map fun b => dotVertex drawing b.index b) ++
      orBlank (g.edges.map (dotEdge drawing)) ++ [closing] ∧
    g.blocks.Pairwise (fun a b => a.index < b.index) ∧
    (∀ b ∈ g.blocks, '\n' ∉ (dotLabel b.render).toList ∧
      (Quotable (dotLabel b.render).toList ↔ b.hasTexts = false)) ∧
    (∀ e ∈ g.edges, Quotable (dotLabel e.label.render).toList ∧ Quotable e.label.style.toList) ∧
    read g.dot = if g.blocks.any Block.hasTexts = true then none else some g.statements := by
  have hsound := h.sound
  refine ⟨?_, hsound.blocks_increasing, fun b _ => ⟨?_, Block.quotable_label⟩,
    fun e _ => ⟨e.label.quotable_label, e.label.quotable_style⟩, hsound.read_dot⟩
  · rw [← hsound.vertexLines_eq]
    exact lines_dot fun e _ => break_not_mem_style e
  · rw [toList_dotLabel]
    exact break_not_mem_written

/-- A block that compares a variable with a number, and one that follows if they are equal. -/
def comparison : List Block :=
  [⟨10, [⟨⟨1⟩, .identifier, some ⟨3, 7⟩⟩, ⟨⟨2⟩, .literal (.integer (-5)), none⟩,
    ⟨⟨3⟩, .binary .equals, none⟩]⟩, ⟨4, [⟨⟨4⟩, .ret false, none⟩]⟩]

theorem drawing_readable_iff_comparison : ∃ g,
    ofParts (some 10) comparison [⟨10, 4, .whenTrue⟩] = .ok g ∧ g.Built ∧
    read g.dot = some [.vertex 4 "[ Block: 0x4 ]\n#4 return\n",
      .vertex 10 "[ Block: 0xA ]\n#1 identifier @ 3:7\n#2 literal -5\n#3 binary ==\n",
      .edge 10 4 "true" "solid"] := by
  obtain ⟨g, hg, htexts, hstatements⟩ : ∃ g,
      ofParts (some 10) comparison [⟨10, 4, .whenTrue⟩] = .ok g ∧
      g.blocks.any Block.hasTexts = false ∧
      g.statements = [.vertex 4 "[ Block: 0x4 ]\n#4 return\n",
        .vertex 10 "[ Block: 0xA ]\n#1 identifier @ 3:7\n#2 literal -5\n#3 binary ==\n",
        .edge 10 4 "true" "solid"] := ⟨_, rfl, by decide, by decide⟩
  have hbuilt := built_ofParts hg
  have hread := (drawing_readable_iff hbuilt).2.2.2.2
  rw [htexts, hstatements] at hread
  exact ⟨g, hg, hbuilt, hread⟩

/-- A block that pushes a text. -/
def pushing (text : String) : Block := ⟨0, [⟨⟨1⟩, .literal (.string text), none⟩]⟩

/-- The quotes of a text constant end the label, so that the drawing cannot be read, and two
different texts can have the same drawing. -/
theorem drawing_of_text_unreadable :
    (∃ g, ofParts (some 0) [pushing "a"] [] = .ok g ∧
      ¬Quotable (dotLabel (pushing "a").render).toList ∧ read g.dot = none) ∧
    ∃ g g', ofParts (some 0) [pushing "a\nb"] [] = .ok g ∧
      ofParts (some 0) [pushing "a\\lb"] [] = .ok g' ∧ g.statements ≠ g'.statements ∧
      g.dot = g'.dot := by
  have hquotable : ¬Quotable (dotLabel (pushing "a").render).toList := by
    rw [Block.quotable_label]
    decide
  obtain ⟨g, hg, htexts⟩ : ∃ g, ofParts (some 0) [pushing "a"] [] = .ok g ∧
      g.blocks.any Block.hasTexts = true := ⟨_, rfl, by decide⟩
  have hread := (built_ofParts hg).sound.read_dot
  rw [htexts] at hread
  exact ⟨⟨g, hg, hquotable, hread⟩, _, _, rfl, rfl, by decide, by decide⟩

end FlowGraph

end Pathwise
