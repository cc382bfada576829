import Pathwise.Proofs.Operands

/-!
# Exits

Two kinds of instructions are exits: those that return from the procedure and those that raise an
exception. After an exception nothing more of the block is executed, and control departs by the
exceptional edges alone, with an empty stack. A return, however, does not end its block: what stands
behind it is executed as if it were not there. So an exit ends its block exactly if it raises an
exception or is the last instruction.
-/

namespace Pathwise

/-! ## Work without instructions -/

/-- Whether an instruction is about to be executed. -/
def Stage.executes : Stage → Bool
  | .executing _ (_ :: _) _ => true
  | _ => false

/-- Checks are called for instructions only. -/
theorem Situation.calls_of_executes {plan : Plan} {x : Situation} (h : x.stage.executes = false) :
    x.calls plan = [] := by
  obtain ⟨run, stage⟩ := x
  cases stage with
  | idle | leaving => rfl
  | executing point rest s =>
    cases rest with
    | nil => rfl
    | cons i rest => cases h

/-- Where no instruction is about to be executed, work goes on without one and counts no step. -/
theorem Move.quiet {plan : Plan} {x y : Situation} (hmove : Move plan x y)
    (hbusy : x.stage ≠ .idle) (hx : x.stage.executes = false) :
    y.stage.executes = false ∧ y.run.statistics.steps = x.run.statistics.steps := by
  cases hmove with
  | take => exact absurd rfl hbusy
  | finish | settle => exact ⟨rfl, rfl⟩
  | prune | raise | proceed => cases hx
  | @depart run d rest =>
    refine ⟨rfl, ?_⟩
    cases d with
    | blocked => rfl
    | into block s => exact (Run.enter_fields plan run block s).2.2.2

theorem Works.quiet {plan : Plan} {x y : Situation} (hworks : Works plan x y)
    (hx : x.stage.executes = false) :
    y.stage.executes = false ∧ y.run.statistics.steps = x.run.statistics.steps := by
  induction hworks with
  | refl => exact ⟨hx, rfl⟩
  | tail _ hmove ih =>
    obtain ⟨hexecutes, hsteps⟩ := hmove.2.quiet hmove.1 ih.1
    exact ⟨hexecutes, hsteps.trans ih.2⟩

/-- Whether another instruction is executed before the work on the node is done is seen at once. -/
theorem Situation.quiet_iff {plan : Plan} {x : Situation} :
    (∀ z, Works plan x z → z.stage.executes = false ∧ z.calls plan = [] ∧
      z.run.statistics.steps = x.run.statistics.steps) ↔ x.stage.executes = false := by
  constructor
  · intro h
    exact (h x .refl).1
  · intro hx z hworks
    obtain ⟨hz, hsteps⟩ := hworks.quiet hx
    exact ⟨hz, calls_of_executes hz, hsteps⟩

/-! ## Handlers -/

/-- An exception departs by the exceptional edges, in order, and by no other. -/
theorem Plan.handlers_eq (plan : Plan) (block : Nat) (s : State) :
    plan.handlers block s = ((plan.edgesOut block).filter (·.label = .exceptional)).map
      fun e => .into e.tail s.clearStack := by
  unfold handlers Departure.ofHandler
  induction plan.edgesOut block with
  | nil => rfl
  | cons e rest ih =>
    by_cases he : e.label = .exceptional
    · rw [List.filterMap_cons, if_pos he, List.filter_cons_of_pos (by simpa using he),
        List.map_cons, ih]
    · rw [List.filterMap_cons, if_neg he, List.filter_cons_of_neg (by simpa using he), ih]

/-- Once control departs, what comes on the worklist are arrivals at the departures. -/
theorem Works.mem_worklist {plan : Plan} {run : Run} {departures : List Departure} {z : Situation}
    (hworks : Works plan ⟨run, .leaving departures⟩ z) {node : Node}
    (hnode : node ∈ z.run.worklist.toList) :
    node ∈ run.worklist.toList ∨
      ∃ run' block s, .into block s ∈ departures ∧ node = Run.arriving plan run' block s := by
  -- along the way the departures that are left are among those that there were
  suffices h : (z.stage = .idle ∨ ∃ rest, z.stage = .leaving rest ∧ rest ⊆ departures) ∧
      ∀ node ∈ z.run.worklist.toList, node ∈ run.worklist.toList ∨
        ∃ run' block s, .into block s ∈ departures ∧ node = Run.arriving plan run' block s from
    h.2 node hnode
  clear hnode
  induction hworks with
  | refl => exact ⟨.inr ⟨departures, rfl, List.Subset.refl _⟩, fun node hnode => .inl hnode⟩
  | tail _ hmove ih =>
    obtain ⟨hbusy, hmove⟩ := hmove
    obtain ⟨hstage, hlist⟩ := ih
    obtain ⟨rest, hrest, hsubset⟩ := hstage.resolve_left hbusy
    cases hmove with
    | take | finish | prune | raise | proceed => cases hrest
    | settle => exact ⟨.inl rfl, hlist⟩
    | @depart run₁ d rest₁ =>
      obtain rfl := Stage.leaving.inj hrest
      refine ⟨.inr ⟨rest₁, rfl, List.subset_of_cons_subset hsubset⟩, fun node hnode => ?_⟩
      cases d with
      | blocked => exact hlist node hnode
      | into block s =>
        rw [Run.depart] at hnode
        rcases Run.enter_cases plan run₁ block s with ⟨-, heq, -⟩ | ⟨-, heq, -⟩
        · exact hlist node (heq ▸ hnode)
        · rcases List.mem_append.1 (heq ▸ hnode) with hold | hnew
          · exact hlist node hold
          · exact .inr ⟨run₁, block, s, hsubset List.mem_cons_self, List.mem_singleton.1 hnew⟩

/-- Control arrives with the stack with which it departed, and with the variables, apart from those
of a loop that has been entered too often. -/
theorem Run.arriving_frame (plan : Plan) (run : Run) (block : Nat) (s : State) :
    (run.arriving plan block s).state.stack = s.stack ∧
      ∀ y, (run.arriving plan block s).state.lookup y = s.lookup y ∨
        y ∈ plan.assignedAt block ∧
          plan.settings.loopVisitLimit < (run.arriving plan block s).point.visits := by
  have hfold : ∀ symbols : List Symbol,
      (symbols.foldl (widenVariable block) (s.clean, run.supply)).1.stack = s.stack ∧
        ∀ y, y ∉ symbols →
          (symbols.foldl (widenVariable block) (s.clean, run.supply)).1.lookup y = s.lookup y := by
    intro symbols
    refine List.foldlRecOn (motive := fun acc : State × Supply => acc.1.stack = s.stack ∧
      ∀ y, y ∉ symbols → acc.1.lookup y = s.lookup y) _ _ ⟨rfl, fun _ _ => rfl⟩ ?_
    intro acc hacc x hx
    refine ⟨hacc.1, fun y hy => ?_⟩
    have hne : y ≠ x := fun heq => hy (heq ▸ hx)
    rw [widenVariable]
    dsimp only
    rw [State.lookup_forget, State.lookup_bind, if_neg hne]
    exact hacc.2 y hy
  simp only [arriving]
  by_cases hwidens : run.Widens plan block
  · rw [if_pos hwidens, if_pos hwidens.1]
    refine ⟨(hfold (plan.assignedAt block)).1, fun y => ?_⟩
    by_cases hy : y ∈ plan.assignedAt block
    · exact .inr ⟨hy, hwidens.2⟩
    · exact .inl ((hfold (plan.assignedAt block)).2 y hy)
  · rw [if_neg hwidens]
    exact ⟨rfl, fun y => .inl rfl⟩

/-- What comes on the worklist after an exception stands at the end of an exceptional edge, with an
empty stack and with the variables as they were, apart from those of a loop that has been entered
too often. -/
theorem Works.mem_worklist_of_handlers {plan : Plan} {run : Run} {block : Nat} {s : State}
    {z : Situation} (hworks : Works plan ⟨run, .leaving (plan.handlers block s)⟩ z) {node : Node}
    (hnode : node ∈ z.run.worklist.toList) :
    node ∈ run.worklist.toList ∨
      ∃ e ∈ plan.edgesOut block, e.label = .exceptional ∧ node.point.block = e.tail ∧
        node.state.stack = [] ∧ ∀ y, node.state.lookup y = s.lookup y ∨
          y ∈ plan.assignedAt e.tail ∧ plan.settings.loopVisitLimit < node.point.visits := by
  rcases hworks.mem_worklist hnode with hold | ⟨run', b, t, hd, rfl⟩
  · exact .inl hold
  · rw [Plan.handlers_eq] at hd
    obtain ⟨e, he, heq⟩ := List.mem_map.1 hd
    obtain ⟨rfl, rfl⟩ := Departure.into.inj heq
    obtain ⟨hedge, hlabel⟩ := List.mem_filter.1 he
    obtain ⟨hstack, hlookup⟩ := Run.arriving_frame plan run' e.tail s.clearStack
    exact .inr ⟨e, hedge, of_decide_eq_true hlabel, rfl, hstack, hlookup⟩

/-! ## Where blocks end -/

/-- To raise an exception changes no variable, with the checks of this library around it. -/
theorem Run.lookup_of_raise {plan : Plan} {run run' : Run} {point : Point} {i : Instruction}
    {s s' : State} (hrun : run.Standard) (hraise : i.operation = .raise)
    (hstep : run.step plan point i s = (some s', run')) (y : Symbol) :
    s'.lookup y = s.lookup y := by
  rw [(stack_lookup_step hrun hstep).2 y, Setting.execute, hraise]
  dsimp only
  rw [State.pop_eq]
  rfl

/-- An exit that the path gets past ends its block exactly if it raises an exception or is the last
instruction: only then is no other instruction executed, no check called and no step counted before
the work on the node is done. After an exception control departs by the exceptional edges alone.
What comes on the worklist then stands at the end of such an edge, with an empty stack and with the
variables as they were when the exception was raised, apart from those of a loop that has been
entered too often. After a return the next instruction of the block is executed, if there is one. -/
theorem exits_end_blocks_iff {plan : Plan} {checks : List Check} {run : Run} {point : Point}
    {i : Instruction} {rest : List Instruction} {s : State} {x : Situation}
    (hx : Reached plan checks ⟨run, .executing point (i :: rest) s⟩)
    (hexit : i.operation.isExit = true)
    (hmove : Move plan ⟨run, .executing point (i :: rest) s⟩ x) (hpath : x.stage ≠ .idle) :
    (∃ done, plan.instructions point.block = done ++ i :: rest) ∧
      ((∀ z, Works plan x z → z.stage.executes = false ∧ z.calls plan = [] ∧
          z.run.statistics.steps = x.run.statistics.steps) ↔
        i.operation = .raise ∨ (∃ hasValue, i.operation = .ret hasValue) ∧ rest = []) ∧
      ∃ s' run', (run.count .countStep).step plan point i s = (some s', run') ∧
        (i.operation = .raise → (run.Standard → ∀ y, s'.lookup y = s.lookup y) ∧
          x = ⟨run', .leaving (((plan.edgesOut point.block).filter (·.label = .exceptional)).map
            fun e => .into e.tail s'.clearStack)⟩ ∧
          ∀ z node, Works plan x z → node ∈ z.run.worklist.toList →
            node ∈ run.worklist.toList ∨
              ∃ e ∈ plan.edgesOut point.block, e.label = .exceptional ∧
                node.point.block = e.tail ∧ node.state.stack = [] ∧
                ∀ y, node.state.lookup y = s'.lookup y ∨ y ∈ plan.assignedAt e.tail ∧
                  plan.settings.loopVisitLimit < node.point.visits) ∧
        (i.operation ≠ .raise →
          x = ⟨run', .executing { point with offset := point.offset + 1 } rest s'⟩) := by
  refine ⟨hx.placed.stage.2, ?_⟩
  rw [Situation.quiet_iff]
  cases hmove with
  | prune => exact absurd rfl hpath
  | @raise _ run' _ _ _ _ s' _ hstep hraise =>
    refine ⟨iff_of_true rfl (.inl hraise), s', run', hstep, fun _ => ⟨?_, ?_, ?_⟩,
      fun h => absurd hraise h⟩
    · intro hrun
      have hrun : (run.count .countStep).Standard := hrun
      exact Run.lookup_of_raise hrun hraise hstep
    · rw [Plan.handlers_eq]
    · intro z node hworks hnode
      have hlist : run'.worklist = run.worklist := (Run.step_fields hstep).1
      exact hlist ▸ hworks.mem_worklist_of_handlers hnode
  | @proceed _ run' _ _ _ _ s' _ hstep hraise =>
    refine ⟨?_, s', run', hstep, fun h => absurd h hraise, fun _ => rfl⟩
    have hret : ∃ hasValue, i.operation = .ret hasValue := by
      cases hoperation : i.operation with
      | ret hasValue => exact ⟨hasValue, rfl⟩
      | raise => exact absurd hoperation hraise
      | _ => simp [hoperation, Operation.isExit] at hexit
    cases rest with
    | nil => exact iff_of_true rfl (.inr ⟨hret, rfl⟩)
    | cons j rest => exact iff_of_false (by simp [Stage.executes]) (by simp [hraise])

/-! ## A return and an exception in the middle of a block -/

theorem Stage.ne_idle_of_executes {stage : Stage} (h : stage.executes = true) : stage ≠ .idle := by
  rintro rfl
  cases h

namespace EarlyExit

/-- The parameter. -/
def p : Symbol := ⟨"p", .parameter⟩

/-- A member of null is accessed. -/
def accessesNull (n : UInt32) : List Instruction :=
  [⟨⟨n⟩, .literal .null, none⟩, ⟨⟨n + 1⟩, .memberAccess, none⟩, ⟨⟨n + 2⟩, .pop, none⟩]

/-- The access stands behind a return. -/
def afterReturn : Sample :=
  ⟨[], Annotations.empty.semantics, [⟨0, ⟨⟨1⟩, .ret false, none⟩ :: accessesNull 2⟩], [], 1⟩

/-- The access stands behind a raised exception, for which there is a handler. -/
def afterRaise : Sample :=
  ⟨[p], Annotations.empty.semantics,
    [⟨0, [⟨⟨1⟩, .self, none⟩, ⟨⟨2⟩, .raise, none⟩] ++ accessesNull 3⟩, ⟨1, []⟩],
    [⟨0, 1, .exceptional⟩], 1⟩

/-- An exit is about to be executed, and so are two instructions behind it, for the second of which
there is a report. -/
def goesOn (y : Situation) : Bool :=
  match y.stage with
  | .executing _ (i :: _) _ =>
    i.operation.isExit && (y.next afterReturn.plan).any fun x =>
      x.stage.executes && (x.next afterReturn.plan).any fun w =>
        w.stage.executes && (w.next afterReturn.plan).any fun z =>
          x.run.statistics.steps + 2 == z.run.statistics.steps &&
            z.run.journal.report.has Rule.nullDereferenceId "3"
  | _ => false

/-- An exception is about to be raised, and the path does not end there. -/
def raises (y : Situation) : Bool :=
  match y.stage with
  | .executing ⟨0, _, _⟩ (i :: _ :: _) s =>
    i.operation = .raise && (s.lookup p).isSome && (y.next afterRaise.plan).any fun x =>
      match x.stage with
      | .leaving _ => true
      | _ => false
  | _ => false

end EarlyExit

open EarlyExit in
/-- Nothing of the block is executed behind the exception, and control departs to the handler, with
the parameter as it is. -/
theorem exits_end_blocks_afterRaise :
    ∃ run visits offset i j rest s run' t,
      Reached afterRaise.plan afterRaise.checks
        ⟨run, .executing ⟨0, offset, visits⟩ (i :: j :: rest) s⟩ ∧
      i.operation = .raise ∧
      Move afterRaise.plan ⟨run, .executing ⟨0, offset, visits⟩ (i :: j :: rest) s⟩
        ⟨run', .leaving [.into 1 t]⟩ ∧
      t.stack = [] ∧ (s.lookup p).isSome = true ∧ t.lookup p = s.lookup p ∧
      ∀ z, Works afterRaise.plan ⟨run', .leaving [.into 1 t]⟩ z →
        z.stage.executes = false ∧ z.calls afterRaise.plan = [] ∧
          z.run.statistics.steps = run'.statistics.steps := by
  have hafter : ((Situation.entering afterRaise.plan (.start afterRaise.checks)).after
      afterRaise.plan 4).any raises = true := by decide +kernel
  have hedges : (afterRaise.plan.edgesOut 0).filter (·.label = .exceptional) =
      [⟨0, 1, .exceptional⟩] := by decide +kernel
  obtain ⟨⟨run, stage⟩, hy, hraises⟩ := (Option.any_eq_true _ _).1 hafter
  unfold raises at hraises
  split at hraises
  · next offset visits i j rest s hstage =>
    obtain rfl : stage = .executing ⟨0, offset, visits⟩ (i :: j :: rest) s := hstage
    obtain ⟨hboth, hnext⟩ := Bool.and_eq_true_iff.1 hraises
    obtain ⟨hraise, hbound⟩ := Bool.and_eq_true_iff.1 hboth
    have hraise : i.operation = .raise := of_decide_eq_true hraise
    obtain ⟨x, hx, hleaving⟩ := (Option.any_eq_true _ _).1 hnext
    have hmove := Move.iff_next.2 hx
    have hpath : x.stage ≠ .idle := by
      intro hidle
      rw [hidle] at hleaving
      cases hleaving
    obtain ⟨-, hends, s', run', -, hhandlers, -⟩ :=
      exits_end_blocks_iff (.of_after hy) (by rw [hraise]; rfl) hmove hpath
    obtain ⟨hlookup, rfl, -⟩ := hhandlers hraise
    have hstandard : run.Standard :=
      Reached.standard (fun c (hc : c ∈ afterRaise.checks) => Registry.standard_enabled hc)
        (.of_after hy)
    rw [hedges] at hmove hends
    exact ⟨run, visits, offset, i, j, rest, s, run', s'.clearStack, .of_after hy, hraise, hmove,
      rfl, hbound, hlookup hstandard p, hends.2 (.inl hraise)⟩
  · cases hraises

open EarlyExit in
/-- A return in the middle of a block does not end the block: the instructions behind it are
executed and counted, and one of them is reported. -/
theorem return_does_not_end_block :
    ∃ run point i rest s x z,
      Reached afterReturn.plan afterReturn.checks ⟨run, .executing point (i :: rest) s⟩ ∧
      i.operation.isExit = true ∧
      Move afterReturn.plan ⟨run, .executing point (i :: rest) s⟩ x ∧ x.stage ≠ .idle ∧
      Works afterReturn.plan x z ∧ z.run.statistics.steps = x.run.statistics.steps + 2 ∧
      z.run.journal.report.has Rule.nullDereferenceId "3" = true := by
  have hafter : ((Situation.entering afterReturn.plan (.start afterReturn.checks)).after
      afterReturn.plan 3).any goesOn = true := by decide +kernel
  obtain ⟨⟨run, stage⟩, hy, hgoes⟩ := (Option.any_eq_true _ _).1 hafter
  unfold goesOn at hgoes
  split at hgoes
  · next point i rest s hstage =>
    obtain rfl : stage = .executing point (i :: rest) s := hstage
    obtain ⟨hexit, hnext⟩ := Bool.and_eq_true_iff.1 hgoes
    obtain ⟨x, hx, hnext⟩ := (Option.any_eq_true _ _).1 hnext
    obtain ⟨hxstage, hnext⟩ := Bool.and_eq_true_iff.1 hnext
    obtain ⟨w, hw, hnext⟩ := (Option.any_eq_true _ _).1 hnext
    obtain ⟨hwstage, hnext⟩ := Bool.and_eq_true_iff.1 hnext
    obtain ⟨z, hz, hlast⟩ := (Option.any_eq_true _ _).1 hnext
    obtain ⟨hsteps, hreport⟩ := Bool.and_eq_true_iff.1 hlast
    have hxbusy := Stage.ne_idle_of_executes hxstage
    have hwbusy := Stage.ne_idle_of_executes hwstage
    have hworks : Works afterReturn.plan x z :=
      .head hxbusy (Move.iff_next.2 hw) (.head hwbusy (Move.iff_next.2 hz) .refl)
    exact ⟨run, point, i, rest, s, x, z, .of_after hy, hexit, Move.iff_next.2 hx, hxbusy, hworks,
      (beq_iff_eq.1 hsteps).symm, hreport⟩
  · cases hgoes

end Pathwise
