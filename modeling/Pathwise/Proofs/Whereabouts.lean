import Pathwise.Proofs.Cycles
import Pathwise.Proofs.Turns

/-!
# Where control can be

Whatever checks a run has and however it ends: a node on the worklist, the instructions about to be
executed and the block to which control departs all lie in blocks to which edges lead from the entry
of the procedure. If the flow graph was built, it has an answer about each of these, so that no
exploration ends for want of one.
-/

namespace Pathwise

/-- Control can pass from a block to another, edge by edge. -/
def FlowGraph.Passes (g : FlowGraph) : Nat → Nat → Prop :=
  Relation.ReflTransGen fun a b => ∃ out, g.waysOut a = .ok out ∧ ∃ e ∈ out, e.tail = b

/-- In a sound graph control passes along the edges. -/
theorem FlowGraph.Sound.reaches {g : FlowGraph} (h : g.Sound) {a b : Nat} (hpass : g.Passes a b) :
    g.graph.Reaches a b := by
  induction hpass with
  | refl => exact .refl
  | @tail b c _ hedge ih =>
    obtain ⟨out, hout, e, he, rfl⟩ := hedge
    cases hb : g.graph.vertices.get? b with
    | none => simp [waysOut, block, Graph.vertex, hb, bind, Except.bind] at hout
    | some block =>
      rw [h.waysOut_eq hb] at hout
      exact ih.tail (Graph.tail_mem_nextOf hout he)

namespace Plan

variable {plan : Plan} {block b : Nat} {s t : State}

/-- Control can pass from the entry to a block. -/
def Reachable (plan : Plan) (block : Nat) : Prop := plan.procedure.flow.Passes plan.entry block

/-- The edges of a plan are those through which control passes. -/
theorem Reachable.edge (h : plan.Reachable block) {e : FlowEdge} (he : e ∈ plan.edgesOut block) :
    plan.Reachable e.tail := by
  unfold edgesOut at he
  split at he
  · next out hout => exact Relation.ReflTransGen.tail h ⟨out, hout, e, he, rfl⟩
  · cases he

/-- What departs from a reachable block goes to reachable blocks. -/
theorem Reachable.departures (h : plan.Reachable block) (hd : .into b t ∈ plan.departures block s) :
    plan.Reachable b := by
  obtain ⟨e, he, hedge⟩ := List.mem_filterMap.1 hd
  obtain ⟨rfl, -⟩ := Departure.into_ofEdge hedge
  exact h.edge he

/-- What an exception departs to is reachable. -/
theorem Reachable.handlers (h : plan.Reachable block) (hd : .into b t ∈ plan.handlers block s) :
    plan.Reachable b := by
  obtain ⟨⟨e, he, rfl⟩, -⟩ := mem_handlers hd
  exact h.edge he

/-- In a prepared plan edges of the flow graph lead to what is reachable. -/
theorem Prepared.reaches {p : Procedure} {x : Setting} {settings : Settings}
    {polls : Option Polls} (h : Prepared p x settings polls plan) (hbuilt : p.flow.Built)
    (hblock : plan.Reachable block) : p.flow.graph.Reaches plan.entry block :=
  hbuilt.sound.reaches (h.procedure ▸ hblock)

/-- The flow graph has an answer about every block that control can pass to. -/
def Charted (plan : Plan) : Prop :=
  ∀ {block}, plan.Reachable block → ∃ out, plan.procedure.flow.waysOut block = .ok out

/-- A prepared plan is charted if its flow graph was built. -/
theorem Prepared.charted {p : Procedure} {x : Setting} {settings : Settings}
    {polls : Option Polls} (h : Prepared p x settings polls plan) (hbuilt : p.flow.Built) :
    plan.Charted := by
  intro block hblock
  have hvertex := hbuilt.sound.graph.hasVertex_of_reaches (hbuilt.sound.entry h.entry)
    (h.reaches hbuilt hblock)
  obtain ⟨b, hb⟩ := SortedMap.contains_iff.1 hvertex
  obtain ⟨out, hout, -⟩ := hbuilt.sound.shape h.valid hb
  exact ⟨out, by rw [h.procedure, hbuilt.sound.waysOut_eq hb, hout]⟩

end Plan

/-- What a run is about to do concerns reachable blocks. -/
def Stage.Placed (plan : Plan) : Stage → Prop
  | .idle => True
  | .executing point rest _ =>
    plan.Reachable point.block ∧ ∃ done, plan.instructions point.block = done ++ rest
  | .leaving departures => ∀ b s, .into b s ∈ departures → plan.Reachable b

/-- All that a situation has to do with lies in reachable blocks. -/
structure Situation.Placed (plan : Plan) (x : Situation) : Prop where
  /-- The nodes on the worklist are at reachable blocks. -/
  worklist : ∀ node ∈ x.run.worklist.toList, plan.Reachable node.point.block
  /-- So is what the run is about to do. -/
  stage : x.stage.Placed plan

namespace Situation.Placed

variable {plan : Plan} {x y : Situation}

theorem exploring {run : Run} {node : Node} (hnode : plan.Reachable node.point.block)
    (hworklist : ∀ n ∈ run.worklist.toList, plan.Reachable n.point.block) :
    (Situation.exploring plan run node).Placed plan where
  worklist := hworklist
  stage := ⟨hnode, _, (List.take_append_drop node.point.offset _).symm⟩

/-- An instruction leaves the worklist alone. -/
theorem step {run run' : Run} {point : Point} {i : Instruction} {s : State} {o : Option State}
    {stage : Stage} (h : Situation.Placed plan ⟨run, stage⟩)
    (hstep : (run.count .countStep).step plan point i s = (o, run')) :
    ∀ node ∈ run'.worklist.toList, plan.Reachable node.point.block := by
  rw [(Run.step_fields hstep).1]
  exact h.worklist

theorem depart {run : Run} {d : Departure} {rest : List Departure}
    (h : Situation.Placed plan ⟨run, .leaving (d :: rest)⟩) :
    Situation.Placed plan ⟨run.depart plan d, .leaving rest⟩ where
  worklist := by
    cases d with
    | blocked => exact h.worklist
    | into b s =>
      intro node hnode
      rw [Run.depart] at hnode
      rcases Run.enter_cases plan run b s with ⟨-, hlist, -⟩ | ⟨-, hlist, -⟩
      · exact h.worklist node (hlist ▸ hnode)
      · rcases List.mem_append.1 (hlist ▸ hnode) with hold | hnew
        · exact h.worklist node hold
        · obtain rfl := List.mem_singleton.1 hnew
          exact h.stage b s List.mem_cons_self
  stage := fun b s hb => h.stage b s (List.mem_cons_of_mem _ hb)

/-- A move leads from reachable blocks to reachable blocks. -/
theorem move (h : x.Placed plan) (hmove : Move plan x y) : y.Placed plan := by
  cases hmove with
  | take _ hpop =>
    have hlist := Queue.toList_of_pop? hpop
    refine exploring (h.worklist _ (hlist ▸ List.mem_cons_self)) fun n hn => ?_
    exact h.worklist n (hlist ▸ List.mem_cons_of_mem _ hn)
  | finish => exact ⟨h.worklist, fun b s hd => h.stage.1.departures hd⟩
  | prune _ hstep =>
    have hworklist := h.step hstep
    exact ⟨hworklist, trivial⟩
  | raise _ hstep _ => exact ⟨h.step hstep, fun b s hd => h.stage.1.handlers hd⟩
  | proceed _ hstep _ =>
    obtain ⟨hblock, done, hdone⟩ := h.stage
    exact ⟨h.step hstep, hblock, done ++ [_], by simpa using hdone⟩
  | depart => exact h.depart
  | settle => exact ⟨h.worklist, trivial⟩

theorem leads (h : x.Placed plan) (hleads : Leads plan x y) : y.Placed plan := by
  induction hleads with
  | refl => exact h
  | tail _ hmove ih => exact ih.move hmove

theorem entering {run : Run}
    (h : ∀ node ∈ run.worklist.toList, plan.Reachable node.point.block) :
    (Situation.entering plan run).Placed plan where
  worklist := h
  stage := by
    intro b s hb
    obtain ⟨rfl, -⟩ := Departure.into.inj (List.mem_singleton.1 hb)
    exact .refl

end Situation.Placed

/-- Control is never outside the blocks to which edges lead from the entry. -/
theorem Reached.placed {plan : Plan} {checks : List Check} {x : Situation}
    (hx : Reached plan checks x) : x.Placed plan :=
  (Situation.Placed.entering fun _ hnode => by cases hnode).leads hx

/-! ## How an exploration ends -/

/-- A run came to an end: it was completed or given up. -/
def Status.Ended (status : Status) : Prop :=
  status = .completed ∨ ∃ reason, status = .incomplete reason

namespace Run

variable {plan : Plan} {run run' : Run} {status : Status}

/-- A node is explored without an error if the flow graph has an answer about its block. -/
theorem process_ne_error {node : Node} {out : List FlowEdge}
    (hways : plan.procedure.flow.waysOut node.point.block = .ok out) (e : GraphError) :
    (run.process plan node).1 ≠ .error e := by
  rcases hall : executeAll plan node.point
    ((plan.instructions node.point.block).drop node.point.offset) run node.state with ⟨ending, last⟩
  rw [process_eq hall]
  cases ending <;> simp [conclude, hways, Except.map]

/-- Where the flow graph has an answer, a turn ends a run only if it is completed or given up. -/
theorem turn_ended (hplan : plan.Charted) (hplaced : Situation.Placed plan ⟨run, .idle⟩)
    (h : run.turn plan = (some status, run')) : status.Ended := by
  cases turned h with
  | done => exact .inl rfl
  | cancelled => exact .inr ⟨_, rfl⟩
  | exceeded => exact .inr ⟨_, rfl⟩
  | failed hpop _ hprocess =>
    have hnode := hplaced.worklist _ (Queue.toList_of_pop? hpop ▸ List.mem_cons_self)
    obtain ⟨out, hout⟩ := hplan hnode
    exact absurd (congrArg Prod.fst hprocess) (process_ne_error hout _)

theorem pass_ended (hplan : plan.Charted) (hplaced : Situation.Placed plan ⟨run, .idle⟩)
    {limit : Nat} (h : run.pass plan limit = (some status, run')) : status.Ended := by
  induction limit generalizing run with
  | zero => cases h
  | succ limit ih =>
    rw [pass] at h
    split at h
    · split at h
      · next hturn =>
        obtain ⟨hstatus, rfl⟩ := Prod.mk.inj h
        exact turn_ended hplan hplaced (Option.some.inj hstatus ▸ hturn)
      · next hturn => exact ih (hplaced.leads (.turn hturn)) h
    · cases h

theorem lap_ended (hplan : plan.Charted) (hplaced : Situation.Placed plan ⟨run, .idle⟩)
    (h : run.lap plan = (some status, run')) : status.Ended := by
  unfold lap at h
  split at h
  · next hpass => exact pass_ended hplan hplaced (hpass.trans h)
  · next hpass => exact turn_ended hplan (hplaced.leads ((Leads.pass hpass).1 rfl)) h

theorem laps_ended (hplan : plan.Charted) (budget : Nat)
    (hplaced : Situation.Placed plan ⟨run, .idle⟩) : (run.laps plan budget).1.Ended := by
  induction budget generalizing run with
  | zero =>
    rcases hlap : run.lap plan with ⟨_ | status, next⟩
    · rw [laps_zero hlap]
      exact .inr ⟨_, rfl⟩
    · rw [laps_of_lap_some 0 hlap]
      exact lap_ended hplan hplaced hlap
  | succ budget ih =>
    rcases hlap : run.lap plan with ⟨_ | status, next⟩
    · rw [laps_succ budget hlap]
      exact ih (hplaced.leads ((Leads.lap hlap).1 rfl))
    · rw [laps_of_lap_some _ hlap]
      exact lap_ended hplan hplaced hlap

/-- Control has entered the procedure and is at a block that it can pass to. -/
theorem begin_placed (plan : Plan) (checks : List Check) :
    Situation.Placed plan ⟨(start checks).begin plan, .idle⟩ := by
  have hreached : Reached plan checks ⟨(start checks).begin plan, .idle⟩ :=
    (Works.leaving plan _ _).leads
  exact hreached.placed

/-- The exploration of a charted plan is completed or given up. -/
theorem explore_ended (hplan : plan.Charted) (checks : List Check) :
    ((start checks).explore plan).1.Ended :=
  laps_ended hplan _ (begin_placed plan checks)

end Run

end Pathwise
