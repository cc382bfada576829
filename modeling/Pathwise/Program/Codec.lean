import Pathwise.Json.Document
import Pathwise.Json.Record
import Pathwise.Program.Annotations
import Pathwise.Program.Procedure

/-!
# Programs as JSON

Each type of the program has a written form with every field, and a reader for it. Reading a flow
graph can fail in two ways: the JSON has another shape, or its blocks and edges do not fit
together. The graph is put together as soon as its own JSON has been read, so of two faults the one
that comes first in the text is reported.
-/

namespace Pathwise

/-- Why a text could not be read. -/
inductive ReadError where
  /-- The text is not JSON, or JSON of another shape. -/
  | malformed
  /-- The blocks and edges of a flow graph do not fit together. -/
  | refused (e : GraphError)
  deriving DecidableEq, Repr

/-- A malformed text where a reader gives nothing. -/
def ReadError.ofOption {α : Type} : Option α → Except ReadError α
  | some a => .ok a
  | none => .error .malformed

namespace NodeId

/-- Reads a node. -/
def ofJson? (j : Json) : Option NodeId := j.uint32?.map NodeId.mk

/-- Writes a node. -/
def toJson (n : NodeId) : Json := .nat n.val.toNat

end NodeId

namespace Span

/-- Reads a place. -/
def ofJson? (j : Json) : Option Span := do
  let fields ← j.fields? ["line", "column"]
  return ⟨← fields.required "line" Json.uint32?, ← fields.required "column" Json.uint32?⟩

/-- Writes a place. -/
def toJson (s : Span) : Json :=
  .ofMembers [("line", .nat s.line.toNat), ("column", .nat s.column.toNat)]

end Span

namespace SymbolKind

/-- The name of a kind. -/
def name : SymbolKind → String
  | .localVariable => "Local"
  | .parameter => "Parameter"
  | .field => "Field"

/-- Reads a kind. -/
def ofJson? (j : Json) : Option SymbolKind :=
  j.named? ([.localVariable, .parameter, .field].map fun k => (k.name, k))

/-- Writes a kind. -/
def toJson (k : SymbolKind) : Json := .text k.name

end SymbolKind

namespace Symbol

/-- Reads a symbol. -/
def ofJson? (j : Json) : Option Symbol := do
  let fields ← j.fields? ["name", "kind"]
  return ⟨← fields.required "name" Json.text?, ← fields.required "kind" SymbolKind.ofJson?⟩

/-- Writes a symbol. -/
def toJson (s : Symbol) : Json := .ofMembers [("name", .text s.name), ("kind", s.kind.toJson)]

end Symbol

namespace MethodRef

/-- Reads a method. -/
def ofJson? (j : Json) : Option MethodRef := do
  let fields ← j.fields? ["containing_type", "name"]
  return ⟨← fields.required "containing_type" Json.text?, ← fields.required "name" Json.text?⟩

/-- Writes a method. -/
def toJson (m : MethodRef) : Json :=
  .ofMembers [("containing_type", .text m.containingType), ("name", .text m.name)]

end MethodRef

namespace Constant

/-- Reads a constant. -/
def ofJson? (j : Json) : Option Constant := do
  let (name, content) ← j.variant?
  match name with
  | "Null" => Json.unit? .null content
  | "Bool" => return .bool (← (← content).bool?)
  | "Integer" => return .integer (← (← content).int64?)
  | "String" => return .string (← (← content).text?)
  | _ => none

/-- Writes a constant. -/
def toJson : Constant → Json
  | .null => .text "Null"
  | .bool b => .ofMembers [("Bool", .bool b)]
  | .integer i => .ofMembers [("Integer", .int i.toInt)]
  | .string s => .ofMembers [("String", .text s)]

end Constant

namespace BinaryOperator

/-- The name of an operator. -/
def name : BinaryOperator → String
  | .equals => "Equals"
  | .notEquals => "NotEquals"
  | .relational => "Relational"
  | .arithmetic => "Arithmetic"

/-- Reads an operator. -/
def ofJson? (j : Json) : Option BinaryOperator :=
  j.named? ([.equals, .notEquals, .relational, .arithmetic].map fun op => (op.name, op))

/-- Writes an operator. -/
def toJson (op : BinaryOperator) : Json := .text op.name

end BinaryOperator

namespace Operation

/-- Reads an operation. -/
def ofJson? (j : Json) : Option Operation := do
  let (name, content) ← j.variant?
  match name with
  | "Identifier" => Json.unit? .identifier content
  | "Assign" => Json.unit? .assign content
  | "Literal" => return .literal (← Constant.ofJson? (← content))
  | "This" => Json.unit? .self content
  | "ObjectCreation" =>
    let fields ← (← content).fields? ["arguments"]
    return .objectCreation (← fields.required "arguments" (Json.list? NodeId.ofJson?))
  | "ArrayCreation" =>
    let fields ← (← content).fields? ["dimensions"]
    return .arrayCreation (← fields.required "dimensions" (Json.list? NodeId.ofJson?))
  | "Invocation" =>
    let fields ← (← content).fields? ["arguments", "has_receiver"]
    return .invocation (← fields.required "arguments" (Json.list? NodeId.ofJson?))
      (← fields.required "has_receiver" Json.bool?)
  | "MemberAccess" => Json.unit? .memberAccess content
  | "Binary" => return .binary (← BinaryOperator.ofJson? (← content))
  | "LogicalNot" => Json.unit? .logicalNot content
  | "Pop" => Json.unit? .pop content
  | "Return" =>
    let fields ← (← content).fields? ["has_value"]
    return .ret (← fields.required "has_value" Json.bool?)
  | "Throw" => Json.unit? .raise content
  | _ => none

/-- Writes an operation. -/
def toJson : Operation → Json
  | .identifier => .text "Identifier"
  | .assign => .text "Assign"
  | .literal c => .ofMembers [("Literal", c.toJson)]
  | .self => .text "This"
  | .objectCreation arguments =>
    .ofMembers [("ObjectCreation", .ofMembers [("arguments", .list NodeId.toJson arguments)])]
  | .arrayCreation dimensions =>
    .ofMembers [("ArrayCreation", .ofMembers [("dimensions", .list NodeId.toJson dimensions)])]
  | .invocation arguments hasReceiver =>
    .ofMembers [("Invocation", .ofMembers
      [("arguments", .list NodeId.toJson arguments), ("has_receiver", .bool hasReceiver)])]
  | .memberAccess => .text "MemberAccess"
  | .binary op => .ofMembers [("Binary", op.toJson)]
  | .logicalNot => .text "LogicalNot"
  | .pop => .text "Pop"
  | .ret hasValue => .ofMembers [("Return", .ofMembers [("has_value", .bool hasValue)])]
  | .raise => .text "Throw"

end Operation

namespace Kinds

/-- Reads a set of kinds. -/
def ofJson? (j : Json) : Option Kinds := do
  let fields ← j.fields? ["bits"]
  return ⟨← fields.required "bits" Json.uint32?⟩

/-- Writes a set of kinds. -/
def toJson (k : Kinds) : Json := .ofMembers [("bits", .nat k.bits.toNat)]

end Kinds

namespace Instruction

/-- Reads an instruction. -/
def ofJson? (j : Json) : Option Instruction := do
  let fields ← j.fields? ["node", "operation", "span"]
  return ⟨← fields.required "node" NodeId.ofJson?, ← fields.required "operation" Operation.ofJson?,
    ← fields.withDefault "span" none (Json.option? Span.ofJson?)⟩

/-- Writes an instruction. -/
def toJson (i : Instruction) : Json :=
  .ofMembers [("node", i.node.toJson), ("operation", i.operation.toJson),
    ("span", .option Span.toJson i.span)]

end Instruction

namespace Block

/-- Reads a block. -/
def ofJson? (j : Json) : Option Block := do
  let fields ← j.fields? ["index", "instructions"]
  return ⟨← fields.required "index" Json.count?,
    ← fields.required "instructions" (Json.list? Instruction.ofJson?)⟩

/-- Writes a block. -/
def toJson (b : Block) : Json :=
  .ofMembers [("index", .nat b.index), ("instructions", .list Instruction.toJson b.instructions)]

end Block

namespace Transfer

/-- The name of a transfer. -/
def name : Transfer → String
  | .jump => "Unconditional"
  | .whenTrue => "True"
  | .whenFalse => "False"
  | .exceptional => "Exceptional"

/-- Reads a transfer. -/
def ofJson? (j : Json) : Option Transfer :=
  j.named? ([.jump, .whenTrue, .whenFalse, .exceptional].map fun t => (t.name, t))

/-- Writes a transfer. -/
def toJson (t : Transfer) : Json := .text t.name

end Transfer

namespace FlowEdge

/-- Reads an edge. -/
def ofJson? (j : Json) : Option FlowEdge := do
  let fields ← j.fields? ["head", "tail", "kind"]
  return ⟨← fields.required "head" Json.count?, ← fields.required "tail" Json.count?,
    ← fields.required "kind" Transfer.ofJson?⟩

/-- Writes an edge. -/
def toJson (e : FlowEdge) : Json :=
  .ofMembers [("head", .nat e.head), ("tail", .nat e.tail), ("kind", e.label.toJson)]

end FlowEdge

namespace FlowGraph

/-- Reads the entry, the blocks and the edges of a flow graph. -/
def partsOfJson? (j : Json) : Option (Option Nat × List Block × List FlowEdge) := do
  let fields ← j.fields? ["entry", "blocks", "edges"]
  return (← fields.optional "entry" Json.count?,
    ← fields.required "blocks" (Json.list? Block.ofJson?),
    ← fields.required "edges" (Json.list? FlowEdge.ofJson?))

/-- Reads a flow graph. -/
def ofJson (j : Json) : Except ReadError FlowGraph := do
  let (entry, blocks, edges) ← ReadError.ofOption (partsOfJson? j)
  (ofParts entry blocks edges).mapError .refused

/-- Writes a flow graph, blocks by index and edges by head and tail. -/
def toJson (g : FlowGraph) : Json :=
  .ofMembers [("entry", .option Json.nat g.entry), ("blocks", .list Block.toJson g.blocks),
    ("edges", .list FlowEdge.toJson g.edges)]

end FlowGraph

namespace Procedure

/-- The fields of a procedure in their order. -/
def fieldNames : List String := ["name", "parameters", "control_flow_graph"]

/-- What has been read of a procedure. -/
structure Draft where
  /-- The name. -/
  name : Option String
  /-- The parameters. -/
  parameters : Option (List Symbol)
  /-- The code. -/
  flow : Option FlowGraph

/-- Nothing has been read. -/
def Draft.start : Draft := ⟨none, none, none⟩

/-- Reads one field. -/
def Draft.read (d : Draft) (key : Quoted) (value : Json) : Except ReadError Draft :=
  match key.text? with
  | none => .error .malformed
  | some "name" => do
    if d.name.isSome then throw .malformed
    return { d with name := some (← ReadError.ofOption value.text?) }
  | some "parameters" => do
    if d.parameters.isSome then throw .malformed
    return { d with parameters := some (← ReadError.ofOption (value.list? Symbol.ofJson?)) }
  | some "control_flow_graph" => do
    if d.flow.isSome then throw .malformed
    return { d with flow := some (← FlowGraph.ofJson value) }
  | some _ => if value.intact then .ok d else .error .malformed

/-- The fields of a procedure in the order of the text. An item behind the last field has no
name. -/
def membersOf : Json → Option (List (Quoted × Json))
  | .object members => some members
  | .array items => some (items.zipIdx.map fun (item, i) => (⟨fieldNames[i]?, true⟩, item))
  | _ => none

/-- Reads a procedure, field by field in the order of the text. -/
def ofJson (j : Json) : Except ReadError Procedure := do
  let members ← ReadError.ofOption (membersOf j)
  let draft ← members.foldlM (fun (d : Draft) member => d.read member.1 member.2) Draft.start
  return ⟨← ReadError.ofOption draft.name, draft.parameters.getD [],
    ← ReadError.ofOption draft.flow⟩

/-- Writes a procedure. -/
def toJson (p : Procedure) : Json :=
  .ofMembers [("name", .text p.name), ("parameters", .list Symbol.toJson p.parameters),
    ("control_flow_graph", p.flow.toJson)]

end Procedure

namespace Annotations

/-- Reads a table with a node for each key. -/
def tableOfJson? {α : Type} (f : Json → Option α) (j : Json) : Option (SortedMap NodeId α) :=
  j.numberedMap? UInt32.size (fun n => ⟨UInt32.ofNat n⟩) f

/-- Writes a table with a node for each key. -/
def tableToJson {α : Type} (f : α → Json) (table : SortedMap NodeId α) : Json :=
  .ofMembers (table.entries.map fun (node, a) => (node.val.toNat.repr, f a))

/-- Reads annotations. -/
def ofJson? (j : Json) : Option Annotations := do
  let fields ← j.fields? ["symbols", "types", "methods", "constants"]
  return ⟨← fields.withDefault "symbols" .empty (tableOfJson? Symbol.ofJson?),
    ← fields.withDefault "types" .empty (tableOfJson? Json.text?),
    ← fields.withDefault "methods" .empty (tableOfJson? MethodRef.ofJson?),
    ← fields.withDefault "constants" .empty (tableOfJson? Constant.ofJson?)⟩

/-- Writes annotations. -/
def toJson (a : Annotations) : Json :=
  .ofMembers [("symbols", tableToJson Symbol.toJson a.symbols),
    ("types", tableToJson Json.text a.types), ("methods", tableToJson MethodRef.toJson a.methods),
    ("constants", tableToJson Constant.toJson a.constants)]

end Annotations

/-- Reads a whole document with a reader for its value. -/
def Json.Document.decode {α : Type} (d : Json.Document) (f : Json → Except ReadError α) :
    Except ReadError α := do
  let a ← f d.root
  if d.ended then return a else throw .malformed

/-- Reads a whole document with a reader that gives nothing for another shape. -/
def Json.Document.decode? {α : Type} (d : Json.Document) (f : Json → Option α) :
    Except ReadError α :=
  d.decode fun j => ReadError.ofOption (f j)

end Pathwise
