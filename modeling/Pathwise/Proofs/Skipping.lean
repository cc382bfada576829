import Pathwise.Analysis
import Pathwise.Proofs.Budget
import Pathwise.Proofs.Covering
import Pathwise.Proofs.Sample
import Pathwise.Proofs.Shapes
import Pathwise.Proofs.Whereabouts

/-!
# Which procedures are skipped

A flow graph that was built answers every question about one of its blocks, and the neighbours of a
block are blocks. Neither the preparation nor any moment of an exploration has to do with anything
else, so that nothing can go wrong after the shapes have been checked: an analysis skips a procedure
exactly if its flow graph is malformed, and says what the check says.
-/

namespace Pathwise

/-! ## Questions about a block -/

namespace FlowGraph

variable {g : FlowGraph} {index : Nat}

/-- Every question about an index has an answer. -/
structure Answers (g : FlowGraph) (index : Nat) : Prop where
  /-- There is a block, which knows its index. -/
  block : ∃ b, g.block index = .ok b ∧ b.index = index
  /-- The edges that leave it are known. -/
  edges : ∃ out, g.graph.edgesOut index = .ok out
  /-- So is whether it branches. -/
  branch : ∃ answer, g.isBranch index = .ok answer
  /-- So are its successors, and an edge leads to each of them. -/
  successors : ∃ tails, g.graph.successors index = .ok tails ∧
    ∀ tail ∈ tails, ∃ between, g.graph.edgesBetween index tail = .ok between
  /-- So are its predecessors, and an edge comes from each of them. -/
  predecessors : ∃ heads, g.graph.predecessors index = .ok heads ∧
    ∀ head ∈ heads, ∃ between, g.graph.edgesBetween head index = .ok between

/-- A graph that was built has an answer to every question about a block. -/
theorem Built.answers (h : g.Built) (hvertex : g.graph.hasVertex index = true) :
    g.Answers index := by
  have hsound := h.sound
  obtain ⟨b, hb⟩ := SortedMap.contains_iff.1 hvertex
  obtain ⟨tails, htails⟩ := Option.isSome_iff_exists.1 ((hsound.graph.outgoing index).trans hvertex)
  obtain ⟨heads, hheads⟩ := Option.isSome_iff_exists.1 ((hsound.graph.incoming index).trans hvertex)
  have hout := h.linked.edgesOut_eq hsound.graph hvertex
  refine ⟨⟨b, ?_, hsound.index hb⟩, ⟨_, hout⟩,
    ⟨(g.edges.filter (·.head == index)).any (·.label.isBranch), ?_⟩,
    ⟨tails.toList, ?_, fun tail ht => ?_⟩, ⟨heads.toList, ?_, fun head hh => ?_⟩⟩
  · rw [FlowGraph.block, Graph.vertex, hb]
  · rw [isBranch, hout]
    rfl
  · rw [Graph.successors, htails]
  · have hedge : g.graph.hasEdge index tail = true :=
      (h.linked.next index tail).2 (by rwa [Graph.nextOf, htails])
    exact ⟨_, if_pos hedge⟩
  · rw [Graph.predecessors, hheads]
  · have hedge : g.graph.hasEdge head index = true :=
      (h.linked.previous head index).2 (by rwa [Graph.previousOf, hheads])
    exact ⟨_, if_pos hedge⟩

end FlowGraph

/-- Every question that is asked to prepare an exploration and in its course has an answer. -/
structure Plan.Answered (plan : Plan) (checks : List Check) : Prop where
  /-- There is an entry. -/
  entry : plan.procedure.flow.entry = some plan.entry
  /-- Walks along the edges, in either direction, never get to an index without answers. -/
  around : plan.procedure.flow.Answers plan.entry ∧
    ∀ index, plan.procedure.flow.Answers index → ∀ other,
      other ∈ plan.procedure.flow.graph.nextOf index ∨
        other ∈ plan.procedure.flow.graph.previousOf index → plan.procedure.flow.Answers other
  /-- The blocks have an order, in which the successors of each of them have a place. -/
  order : ∃ order, plan.procedure.flow.graph.reversePostOrder plan.entry = .ok order ∧
    ∀ index ∈ order, ∀ tail ∈ plan.procedure.flow.graph.nextOf index, tail ∈ order
  /-- The loops are known, and their vertices are blocks. -/
  loops : ∃ loops, plan.procedure.flow.loops = .ok loops ∧
    ∀ l ∈ loops, ∀ index, index = l.header ∨ index ∈ l.nodes → plan.procedure.flow.Answers index
  /-- The nodes that wait to be explored are at blocks. -/
  waiting : ∀ x, Reached plan checks x → ∀ node ∈ x.run.worklist.toList,
    plan.procedure.flow.Answers node.point.block
  /-- The block that is being executed is one. -/
  executing : ∀ x, Reached plan checks x → ∀ point rest s, x.stage = .executing point rest s →
    plan.procedure.flow.Answers point.block

theorem Plan.Prepared.answered {p : Procedure} {x : Setting} {settings : Settings}
    {polls : Option Polls} {plan : Plan} (h : Prepared p x settings polls plan)
    (hbuilt : p.flow.Built) (checks : List Check) : plan.Answered checks := by
  obtain rfl := h.procedure
  have hsound := hbuilt.sound
  have hentry := hsound.entry h.entry
  have hreachable : ∀ {index}, plan.Reachable index → plan.procedure.flow.Answers index := by
    intro index hindex
    exact hbuilt.answers (hsound.graph.hasVertex_of_reaches hentry (h.reaches hbuilt hindex))
  refine ⟨h.entry, ⟨hbuilt.answers hentry, fun index _ other hother => ?_⟩, ?_, ?_, ?_, ?_⟩
  · rcases hother with hnext | hprevious
    · exact hbuilt.answers (hsound.graph.next hnext).1
    · exact hbuilt.answers (hsound.graph.previous hprevious)
  · obtain ⟨order, horder⟩ : ∃ order,
        plan.procedure.flow.graph.reversePostOrder plan.entry = .ok order := ⟨_, if_pos hentry⟩
    refine ⟨order, horder, fun index hindex tail htail => ?_⟩
    have hpath := (hsound.graph.mem_order_iff horder).1 hindex
    exact (hsound.graph.mem_order_iff horder).2 (.tail hpath htail)
  · obtain ⟨loops, hloops, -⟩ := h.assigned
    refine ⟨loops, hloops, fun l hl index hindex => ?_⟩
    unfold FlowGraph.loops at hloops
    rw [h.entry] at hloops
    cases hgraph : plan.procedure.flow.graph.loops plan.entry with
    | error e => simp [hgraph, Except.mapError] at hloops
    | ok loops' =>
      obtain rfl : loops' = loops := by simpa [hgraph, Except.mapError] using hloops
      exact hbuilt.answers (Graph.hasVertex_of_mem_loop hgraph hl hindex)
  · intro x hx node hnode
    exact hreachable (hx.placed.worklist node hnode)
  · intro x hx point rest s hstage
    have hplaced := hx.placed.stage
    rw [hstage] at hplaced
    exact hreachable hplaced.1

/-! ## Skipping -/

/-- A procedure is refused for a reason: the reason is the wording of what its check says, which
names the procedure and the block of lowest index without an admitted shape, unless there is no
entry. -/
def Procedure.Refused (p : Procedure) (reason : String) : Prop :=
  ∃ m : Malformation, p.validate = .error (.unsupported (some p.name) m) ∧
    reason = (ProgramError.unsupported (some p.name) m).message ∧
    reason = "Unsupported procedure: " ++ p.name ++ ": " ++ m.reason ∧
    ((p.flow.entry = none ∧ m = .noEntry) ∨
      (p.flow.entry.isSome = true ∧ ∃ b ∈ p.flow.blocks, ¬p.flow.Admits b ∧
        (∀ c ∈ p.flow.blocks, ¬p.flow.Admits c → b.index ≤ c.index) ∧ m.block? = some b.index ∧
        ∃ before after, m.reason = before ++ "block " ++ Text.hex b.index ++ " " ++ after))

/-- A procedure is refused if its flow graph is malformed, and admitted otherwise. -/
theorem Procedure.refused_or_valid {p : Procedure} (hbuilt : p.flow.Built) :
    (p.flow.Malformed ∧ ∃ e : ProgramError, p.validate = .error e ∧ p.Refused e.message) ∨
      (¬p.flow.Malformed ∧ p.validate = .ok ()) := by
  rcases hbuilt.validate_cases with ⟨hentry, herror⟩ | ⟨hentry, hok, hall⟩ |
    ⟨hentry, b, hb, m, hbad, hlowest, hblock, herror⟩
  · have hvalidate : p.validate = .error (.unsupported (some p.name) .noEntry) := by
      rw [validate, herror]
    exact .inl ⟨.inl hentry, _, hvalidate, .noEntry, hvalidate, rfl, rfl, .inl ⟨hentry, rfl⟩⟩
  · right
    constructor
    · rintro (hnone | ⟨b, hb, hbad⟩)
      · simp [hnone] at hentry
      · exact hbad (hall b hb)
    · rw [validate, hok]
  · have hvalidate : p.validate = .error (.unsupported (some p.name) m) := by
      rw [validate, herror]
    exact .inl ⟨.inr ⟨b, hb, hbad⟩, _, hvalidate, m, hvalidate, rfl, rfl,
      .inr ⟨hentry, b, hb, hbad, hlowest, hblock, Malformation.reason_names hblock⟩⟩

namespace Analysis

/-- What analysing a procedure comes to: it is skipped for what its check says, or it is explored to
an end. -/
theorem analyse_cases (a : Analysis) (p : Procedure) (hbuilt : p.flow.Built) (sink : Sink)
    (polls : Option Polls) :
    (p.flow.Malformed ∧ ∃ reason,
        (a.analyse p sink polls).exploration.status = .skipped reason ∧ p.Refused reason) ∨
      (¬p.flow.Malformed ∧ (a.analyse p sink polls).exploration.status.Ended ∧
        ∃ plan, Plan.prepare p ⟨a.semantics, .standard⟩ a.settings polls = .ok plan) := by
  rcases p.refused_or_valid hbuilt with ⟨hmalformed, e, herror, hrefused⟩ | ⟨hwell, hvalid⟩
  · left
    have hplan : Plan.prepare p ⟨a.semantics, .standard⟩ a.settings polls = .error e := by
      rw [Plan.prepare, herror]
      rfl
    refine ⟨hmalformed, e.message, ?_, hrefused⟩
    rw [analyse, hplan]
  · right
    obtain ⟨plan, hplan, -⟩ :=
      Plan.exists_prepare hbuilt hvalid ⟨a.semantics, .standard⟩ a.settings polls
    refine ⟨hwell, ?_, plan, hplan⟩
    rw [analyse, hplan]
    exact Run.explore_ended ((Plan.prepared hplan).charted hbuilt) _

/-- A procedure whose flow graph was built is skipped exactly if the graph is malformed, for the
reason that its check gives. Otherwise the exploration is completed or given up, and no question
asked on the way fails. -/
theorem skipped_iff_malformed (a : Analysis) (p : Procedure) (hbuilt : p.flow.Built) (sink : Sink)
    (polls : Option Polls) :
    let status := (a.analyse p sink polls).exploration.status
    ((∃ reason, status = .skipped reason) ↔ p.flow.Malformed) ∧
      (∀ reason, status = .skipped reason → p.Refused reason) ∧
      (¬p.flow.Malformed → (status = .completed ∨ ∃ reason, status = .incomplete reason) ∧
        ∃ plan, Plan.prepare p ⟨a.semantics, .standard⟩ a.settings polls = .ok plan ∧
          plan.procedure = p ∧ plan.Answered (a.registry.enabled a.settings sink)) := by
  dsimp only
  rcases a.analyse_cases p hbuilt sink polls with
    ⟨hmalformed, reason, hstatus, hrefused⟩ | ⟨hwell, hended, plan, hplan⟩
  · refine ⟨⟨fun _ => hmalformed, fun _ => ⟨reason, hstatus⟩⟩, fun other hother => ?_,
      fun hwell => absurd hmalformed hwell⟩
    obtain rfl := Status.skipped.inj (hstatus.symm.trans hother)
    exact hrefused
  · have hnot : ∀ reason, (a.analyse p sink polls).exploration.status ≠ .skipped reason := by
      intro reason hskipped
      rcases hended with hcompleted | ⟨_, hincomplete⟩
      · cases hskipped.symm.trans hcompleted
      · cases hskipped.symm.trans hincomplete
    have hprepared := Plan.prepared hplan
    refine ⟨⟨fun ⟨reason, hskipped⟩ => absurd hskipped (hnot reason),
      fun hmalformed => absurd hmalformed hwell⟩,
      fun reason hskipped => absurd hskipped (hnot reason),
      fun _ => ⟨hended, plan, hplan, hprepared.procedure, hprepared.answered hbuilt _⟩⟩

/-- Control never comes to the blocks 2 and 3, which have two jumps and two edges for the same
outcome. -/
def stray : Sample :=
  ⟨[], ⟨fun _ => none, fun _ => none, fun _ => none, fun _ => none⟩,
    [⟨0, []⟩, ⟨1, []⟩, ⟨2, []⟩, ⟨3, []⟩],
    [⟨0, 1, .jump⟩, ⟨2, 0, .jump⟩, ⟨2, 1, .jump⟩, ⟨3, 0, .whenTrue⟩, ⟨3, 1, .whenTrue⟩], 1⟩

theorem skipped_iff_malformed_stray :
    let a : Analysis := ⟨stray.semantics, .standard, stray.settings⟩
    let status := (a.analyse stray.procedure (.withDisabled []) none).exploration.status
    stray.procedure.flow.Built ∧
      status = .skipped "Unsupported procedure: p: block 0x2 has 2 unconditional successors" ∧
      ((∃ reason, status = .skipped reason) ↔ stray.procedure.flow.Malformed) ∧
      (∀ reason, status = .skipped reason → stray.procedure.Refused reason) ∧
      (¬stray.procedure.flow.Malformed →
        (status = .completed ∨ ∃ reason, status = .incomplete reason) ∧
        ∃ plan, Plan.prepare stray.procedure ⟨a.semantics, .standard⟩ a.settings none = .ok plan ∧
          plan.procedure = stray.procedure ∧
          plan.Answered (a.registry.enabled a.settings (.withDisabled []))) :=
  ⟨stray.built, by decide +kernel, skipped_iff_malformed _ _ stray.built _ _⟩

end Analysis

end Pathwise
