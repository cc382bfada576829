import Pathwise.Check.Registry
import Pathwise.Explore.Outcome
import Pathwise.Program.Codec

/-!
# Settings and results as JSON
-/

namespace Pathwise

namespace Settings

/-- Reads settings; what is left out is as in the standard settings. -/
def ofJson? (j : Json) : Option Settings := do
  let fields ← j.fields? ["loop_visit_limit", "max_steps", "enabled_checks"]
  let rules (j : Json) := (j.list? Json.text?).map SortedSet.ofMembers
  return ⟨← fields.withDefault "loop_visit_limit" standard.loopVisitLimit Json.count?,
    ← fields.withDefault "max_steps" standard.maxSteps Json.count?,
    ← fields.withDefault "enabled_checks" standard.enabledChecks (Json.option? rules)⟩

/-- Writes settings. -/
def toJson (s : Settings) : Json :=
  .ofMembers [("loop_visit_limit", .nat s.loopVisitLimit), ("max_steps", .nat s.maxSteps),
    ("enabled_checks", .option (fun rules => .list Json.text rules.toList) s.enabledChecks)]

end Settings

namespace Diagnostic

/-- Reads a diagnostic. -/
def ofJson? (j : Json) : Option Diagnostic := do
  let fields ← j.fields? ["rule_id", "node", "span", "message", "key"]
  return ⟨← fields.required "rule_id" Json.text?, ← fields.required "node" NodeId.ofJson?,
    ← fields.optional "span" Span.ofJson?, ← fields.required "message" Json.text?,
    ← fields.required "key" Json.text?⟩

/-- Writes a diagnostic. -/
def toJson (d : Diagnostic) : Json :=
  .ofMembers [("rule_id", .text d.rule), ("node", d.node.toJson),
    ("span", .option Span.toJson d.span), ("message", .text d.message), ("key", .text d.key)]

end Diagnostic

namespace Point

/-- Reads a point. -/
def ofJson? (j : Json) : Option Point := do
  let fields ← j.fields? ["block", "offset", "visits"]
  return ⟨← fields.required "block" Json.count?, ← fields.required "offset" Json.count?,
    ← fields.required "visits" Json.count?⟩

/-- Writes a point. -/
def toJson (p : Point) : Json :=
  .ofMembers [("block", .nat p.block), ("offset", .nat p.offset), ("visits", .nat p.visits)]

end Point

namespace Statistics

/-- Reads counters. -/
def ofJson? (j : Json) : Option Statistics := do
  let fields ← j.fields?
    ["steps", "nodes", "deduplicated", "infeasible", "widenings", "values", "nodes_per_block"]
  return ⟨← fields.required "steps" Json.count?, ← fields.required "nodes" Json.count?,
    ← fields.required "deduplicated" Json.count?, ← fields.required "infeasible" Json.count?,
    ← fields.required "widenings" Json.count?, ← fields.required "values" Json.count?,
    ← fields.required "nodes_per_block" (Json.numberedMap? UInt64.size id Json.count?)⟩

/-- Writes counters. -/
def toJson (s : Statistics) : Json :=
  .ofMembers [("steps", .nat s.steps), ("nodes", .nat s.nodes),
    ("deduplicated", .nat s.deduplicated), ("infeasible", .nat s.infeasible),
    ("widenings", .nat s.widenings), ("values", .nat s.values),
    ("nodes_per_block",
      .ofMembers (s.nodesPerBlock.entries.map fun (block, n) => (block.repr, .nat n)))]

end Statistics

namespace IncompleteReason

/-- The name of a reason. -/
def name : IncompleteReason → String
  | .stepBudgetExceeded => "StepBudgetExceeded"
  | .cancelled => "Cancelled"

/-- Reads a reason. -/
def ofJson? (j : Json) : Option IncompleteReason :=
  j.named? ([.stepBudgetExceeded, .cancelled].map fun r => (r.name, r))

/-- Writes a reason. -/
def toJson (r : IncompleteReason) : Json := .text r.name

end IncompleteReason

namespace Status

/-- Reads a status. -/
def ofJson? (j : Json) : Option Status := do
  let (name, content) ← j.variant?
  match name with
  | "Completed" => Json.unit? .completed content
  | "Incomplete" => return .incomplete (← IncompleteReason.ofJson? (← content))
  | "Skipped" => return .skipped (← (← content).text?)
  | _ => none

/-- Writes a status. -/
def toJson : Status → Json
  | .completed => .text "Completed"
  | .incomplete reason => .ofMembers [("Incomplete", reason.toJson)]
  | .skipped reason => .ofMembers [("Skipped", .text reason)]

end Status

namespace Exploration

/-- Reads a result. -/
def ofJson? (j : Json) : Option Exploration := do
  let fields ← j.fields? ["procedure", "status", "statistics", "diagnostics"]
  return ⟨← fields.required "procedure" Json.text?, ← fields.required "status" Status.ofJson?,
    ← fields.required "statistics" Statistics.ofJson?,
    ← fields.required "diagnostics" (Json.list? Diagnostic.ofJson?)⟩

/-- Writes a result. -/
def toJson (e : Exploration) : Json :=
  .ofMembers [("procedure", .text e.procedure), ("status", e.status.toJson),
    ("statistics", e.statistics.toJson), ("diagnostics", .list Diagnostic.toJson e.diagnostics)]

end Exploration

end Pathwise
