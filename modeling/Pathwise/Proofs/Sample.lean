import Pathwise.Analysis
import Pathwise.Proofs.FlowGraph

/-!
# Small programs

A sample is a small program that can be run to the end. The samples of this library show that what
is asked of a procedure can be met, and where an analysis goes astray.
-/

namespace Pathwise

/-- A small program. -/
structure Sample where
  /-- Its parameters. -/
  parameters : List Symbol
  /-- What its nodes mean. -/
  semantics : Semantics
  /-- Its blocks; the entry has the index 0. -/
  blocks : List Block
  /-- The edges between the blocks. -/
  edges : List FlowEdge
  /-- How often a loop is entered before it is widened. -/
  loopVisitLimit : Nat

namespace Sample

/-- The procedure. -/
def procedure (x : Sample) : Procedure :=
  ⟨"p", x.parameters, ((FlowGraph.ofParts (some 0) x.blocks x.edges).toOption).getD .empty⟩

/-- What the meaning of its instructions depends on. -/
def setting (x : Sample) : Setting := ⟨x.semantics, .standard⟩

/-- The bounds of its exploration. -/
def settings (x : Sample) : Settings := ⟨x.loopVisitLimit, 100, none⟩

/-- The plan of its exploration. -/
def plan (x : Sample) : Plan :=
  ((Plan.prepare x.procedure x.setting x.settings none).toOption).getD
    ⟨x.procedure, 0, x.setting, x.settings, .empty, none⟩

/-- All checks of this library. -/
def checks (x : Sample) : List Check := Registry.standard.enabled x.settings (.withDisabled [])

theorem built (x : Sample) : x.procedure.flow.Built := by
  unfold procedure
  cases h : FlowGraph.ofParts (some 0) x.blocks x.edges with
  | error e => exact .empty
  | ok g => exact FlowGraph.built_ofParts h

theorem prepare_eq {x : Sample}
    (h : (Plan.prepare x.procedure x.setting x.settings none).toOption.isSome = true) :
    Plan.prepare x.procedure ⟨x.semantics, .standard⟩ x.settings none = .ok x.plan := by
  unfold plan
  change Plan.prepare x.procedure x.setting x.settings none = _
  cases hplan : Plan.prepare x.procedure x.setting x.settings none with
  | error e => simp [hplan, Except.toOption] at h
  | ok plan => rfl

theorem setting_plan (x : Sample) : x.plan.setting = x.setting := by
  unfold plan
  cases hplan : Plan.prepare x.procedure x.setting x.settings none with
  | error e => rfl
  | ok plan => exact (Plan.prepared hplan).setting

theorem explore_eq {x : Sample} (h : ((Run.start x.checks).explore x.plan).1 = .completed) :
    (Run.start x.checks).explore x.plan =
      (.completed, ((Run.start x.checks).explore x.plan).2) :=
  Prod.ext h rfl

/-- What the analysis with all checks tells of the exploration. -/
theorem exploration_eq (x : Sample)
    (hplan : (Plan.prepare x.procedure x.setting x.settings none).toOption.isSome = true) :
    (Analysis.analyse ⟨x.semantics, .standard, x.settings⟩ x.procedure (.withDisabled [])
        none).exploration =
      ⟨x.procedure.name, ((Run.start x.checks).explore x.plan).1,
        ((Run.start x.checks).explore x.plan).2.finalStatistics,
        Analysis.deliverable ((Run.start x.checks).explore x.plan).1
          ((Run.start x.checks).explore x.plan).2.diagnostics⟩ := by
  unfold Analysis.analyse
  dsimp only
  rw [prepare_eq hplan]
  rfl

end Sample

end Pathwise
