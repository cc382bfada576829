import Pathwise.Check.Registry
import Pathwise.Explore.Loop

/-!
# Analysing procedures

An analysis runs the checks that are wanted over a procedure and delivers what they found. A
procedure that cannot be explored is skipped, and a run that was given up delivers nothing.
-/

namespace Pathwise

/-- What procedures are analysed with. -/
structure Analysis where
  /-- What is known about syntax nodes. -/
  semantics : Semantics
  /-- The checks. -/
  registry : Registry
  /-- The bounds and the rules that are wanted. -/
  settings : Settings

/-- The result of an analysis, what the checks observed, and the sink after it. -/
structure Analysed where
  /-- The result. -/
  exploration : Exploration
  /-- What was observed, in order. -/
  notes : List Note
  /-- The sink after the analysis. -/
  sink : Sink

namespace Analysis

/-- The diagnostics that a run delivers: all of them, in order, if it completed. -/
def deliverable (status : Status) (found : List Diagnostic) : List Diagnostic :=
  match status with
  | .completed => Diagnostic.sorted found
  | _ => []

/-- Analyses a procedure. -/
def analyse (a : Analysis) (procedure : Procedure) (sink : Sink) (polls : Option Polls) :
    Analysed :=
  let checks := a.registry.enabled a.settings sink
  match Plan.prepare procedure ⟨a.semantics, .standard⟩ a.settings polls with
  | .error e => ⟨⟨procedure.name, .skipped e.message, .zero, []⟩, [], sink⟩
  | .ok plan =>
    let (status, run) := (Run.start checks).explore plan
    let diagnostics := deliverable status run.diagnostics
    ⟨⟨procedure.name, status, run.finalStatistics, diagnostics⟩, run.journal.notes.reverse,
      sink.emitAll diagnostics⟩

/-- Analyses procedures one after the other; the results are in the order of the procedures. -/
def analyseAll (a : Analysis) (sink : Sink) (polls : Option Polls) :
    List Procedure → List Exploration × List Note × Sink
  | [] => ([], [], sink)
  | procedure :: rest =>
    let first := a.analyse procedure sink polls
    let (explorations, notes, sink) := a.analyseAll first.sink polls rest
    (first.exploration :: explorations, first.notes ++ notes, sink)

end Analysis

end Pathwise
