import Pathwise.Proofs.Budget
import Pathwise.Proofs.Descent
import Pathwise.Proofs.Sample
import Pathwise.Proofs.Shapes

/-!
# Every exploration ends

A turn at a block with instructions uses up a step, and there are only so many. A turn at a block
without instructions uses up none, but all that it adds to the worklist are nodes whose states
descend from the state of the node taken, and only so many of these differ. As no node is taken
twice, turns in a row at blocks without instructions come to an end, too, however the stack grows
elsewhere. So the limits of the exploration, which is written with a number of turns given in
advance, never cut it short: it is what turn after turn comes to.
-/

namespace Pathwise

/-! ## Blocks without instructions -/

/-- From a block without instructions control departs with the state as it is or without its
stack. -/
theorem Plan.Prepared.departures_of_empty {p : Procedure} {x : Setting} {settings : Settings}
    {polls : Option Polls} {plan : Plan} (h : Prepared p x settings polls plan)
    (hbuilt : p.flow.Built) {block : Nat} (hempty : plan.instructions block = []) {s : State}
    {d : Departure} (hd : d ∈ plan.departures block s) :
    ∃ b, d = .into b s ∨ d = .into b s.clearStack := by
  obtain ⟨e, he, hedge⟩ := List.mem_filterMap.1 hd
  have hbranch : e.label.isBranch ≠ true := by
    intro hbranch
    obtain ⟨done, i, hinstructions, -⟩ := h.exists_last hbuilt he hbranch
    simp [hempty] at hinstructions
  unfold Departure.ofEdge at hedge
  split at hedge
  · exact ⟨e.tail, .inl (Option.some.inj hedge).symm⟩
  · exact ⟨e.tail, .inr (Option.some.inj hedge).symm⟩
  · next hlabel => exact absurd (by simp [hlabel, Transfer.isBranch]) hbranch
  · next hlabel => exact absurd (by simp [hlabel, Transfer.isBranch]) hbranch

namespace Run

variable {plan : Plan} {run run' : Run} {taken origins : List Node}

/-! ## What a turn does to the worklist -/

/-- The worklist and all that it is checked against are the same. -/
structure Alike (run run' : Run) : Prop where
  /-- The same nodes wait. -/
  worklist : run'.worklist = run.worklist
  /-- The same nodes have been met. -/
  visited : run'.visited = run.visited

/-- An instruction leaves the worklist alone. -/
theorem Alike.step {point : Point} {i : Instruction} {s : State} {o : Option State}
    (h : run.step plan point i s = (o, run')) : run.Alike run' := by
  obtain ⟨hworklist, hvisited, -⟩ := step_fields h
  exact ⟨hworklist, hvisited⟩

/-- Instructions leave the worklist alone and use up steps. -/
theorem executeAll_alike {point : Point} {rest : List Instruction} {s : State} {e : BlockEnd}
    (h : executeAll plan point rest run s = (e, run')) :
    run.Alike run' ∧ run.statistics.steps ≤ run'.statistics.steps ∧
      (rest ≠ [] → e ≠ .exceeded → run.statistics.steps < plan.settings.maxSteps ∧
        run.statistics.steps < run'.statistics.steps) := by
  induction rest generalizing point run s with
  | nil =>
    obtain ⟨-, rfl⟩ := Prod.mk.inj h
    exact ⟨⟨rfl, rfl⟩, Nat.le_refl _, fun hne => absurd rfl hne⟩
  | cons i rest ih =>
    have hcount : (run.count .countStep).statistics.steps = run.statistics.steps + 1 := rfl
    rw [executeAll] at h
    split at h
    · obtain ⟨rfl, rfl⟩ := Prod.mk.inj h
      exact ⟨⟨rfl, rfl⟩, by omega, fun _ hexceeded => absurd rfl hexceeded⟩
    · next hbudget =>
      -- one step is used up before anything else happens
      have hafter : ∀ {o run₁}, (run.count .countStep).step plan point i s = (o, run₁) →
          run.Alike run₁ ∧ run₁.statistics.steps = run.statistics.steps + 1 := by
        intro o run₁ hstep
        obtain ⟨hworklist, hvisited⟩ := Alike.step hstep
        exact ⟨⟨hworklist, hvisited⟩, by rw [(step_fields hstep).2.2.2, hcount]⟩
      split at h
      · next hstep =>
        obtain ⟨-, rfl⟩ := Prod.mk.inj h
        obtain ⟨halike, hsteps⟩ := hafter hstep
        exact ⟨halike, by omega, fun _ _ => ⟨by omega, by omega⟩⟩
      · next hstep =>
        obtain ⟨halike, hsteps⟩ := hafter hstep
        split at h
        · obtain ⟨-, rfl⟩ := Prod.mk.inj h
          exact ⟨halike, by omega, fun _ _ => ⟨by omega, by omega⟩⟩
        · obtain ⟨halike', hle, -⟩ := ih h
          refine ⟨⟨?_, ?_⟩, by omega, fun _ _ => ⟨by omega, by omega⟩⟩
          · rw [halike'.worklist, halike.worklist]
          · rw [halike'.visited, halike.visited]

/-- A departure takes no step. -/
theorem steps_depart (plan : Plan) (run : Run) (d : Departure) :
    (run.depart plan d).statistics.steps = run.statistics.steps := by
  cases d with
  | blocked => rfl
  | into b s => exact (enter_fields plan run b s).2.2.2

/-- Nor do several. -/
theorem steps_departs (plan : Plan) (run : Run) (ds : List Departure) :
    (ds.foldl (depart plan) run).statistics.steps = run.statistics.steps := by
  induction ds generalizing run with
  | nil => rfl
  | cons d ds ih => rw [List.foldl_cons, ih, steps_depart]

/-- Exploring a node comes to executing instructions and letting control depart. -/
theorem process_spec {node : Node} {r : Except GraphError Bool}
    (h : run.process plan node = (r, run')) :
    ∃ run₁ s ds, run.Alike run₁ ∧ run' = ds.foldl (depart plan) run₁ ∧
      (ds = [] ∨ ds = plan.handlers node.point.block s ∨
        ds = plan.departures node.point.block s) ∧
      run.statistics.steps ≤ run₁.statistics.steps ∧
      (r = .ok true → (plan.instructions node.point.block).drop node.point.offset ≠ [] →
        run.statistics.steps < plan.settings.maxSteps ∧
          run.statistics.steps < run₁.statistics.steps) := by
  rcases hall : executeAll plan node.point
    ((plan.instructions node.point.block).drop node.point.offset) run node.state with ⟨e, run₁⟩
  obtain ⟨halike, hle, hless⟩ := executeAll_alike hall
  rw [process_eq hall] at h
  cases e with
  | exceeded =>
    obtain ⟨rfl, rfl⟩ := Prod.mk.inj h
    exact ⟨run₁, .empty, [], halike, rfl, .inl rfl, hle, by simp⟩
  | pruned =>
    obtain ⟨rfl, rfl⟩ := Prod.mk.inj h
    exact ⟨run₁.count .countInfeasible, .empty, [], ⟨halike.worklist, halike.visited⟩, rfl,
      .inl rfl, hle, fun _ hne => hless hne (by simp)⟩
  | raised s =>
    obtain ⟨rfl, rfl⟩ := Prod.mk.inj h
    exact ⟨run₁, s, _, halike, rfl, .inr (.inl rfl), hle, fun _ hne => hless hne (by simp)⟩
  | reached s =>
    obtain ⟨rfl, rfl⟩ := Prod.mk.inj h
    exact ⟨run₁, s, _, halike, rfl, .inr (.inr rfl), hle, fun _ hne => hless hne (by simp)⟩

/-- The next node is free if its block has no instructions. -/
theorem nextIsFree_eq {node : Node} {rest : Queue Node}
    (hpop : run.worklist.pop? = some (node, rest)) :
    run.nextIsFree plan = (plan.instructions node.point.block).isEmpty := by
  unfold nextIsFree Plan.instructions Plan.instructionsOf
  rw [hpop]
  dsimp only
  cases plan.procedure.flow.block node.point.block <;> rfl

/-! ## The worklist is kept tidy -/

/-- The nodes that wait, and some that have been taken, are all different and have all been met. -/
structure Tidy (plan : Plan) (taken : List Node) (run : Run) : Prop where
  /-- The nodes are at the start of reachable blocks. -/
  place : ∀ n ∈ taken ++ run.worklist.toList,
    n.point.offset = 0 ∧ plan.Reachable n.point.block
  /-- The nodes have been met. -/
  visited : ∀ n ∈ taken ++ run.worklist.toList,
    run.hasVisited n.point.block n.state.fingerprint = true
  /-- No two nodes are the same. -/
  distinct : (taken ++ run.worklist.toList).Pairwise fun a b => ¬a.Same b

namespace Tidy

/-- A run with the same worklist and the same visits is as tidy. -/
theorem alike (h : run.Tidy plan taken) (halike : run.Alike run') : run'.Tidy plan taken := by
  obtain ⟨hworklist, hvisited⟩ := halike
  refine ⟨?_, ?_, ?_⟩
  · rw [hworklist]
    exact h.place
  · unfold hasVisited
    rw [hworklist, hvisited]
    exact h.visited
  · rw [hworklist]
    exact h.distinct

/-- The next node is taken. -/
theorem take (h : run.Tidy plan taken) {node : Node} {rest : Queue Node}
    (hpop : run.worklist.pop? = some (node, rest)) :
    (run.taking rest).Tidy plan (taken ++ [node]) := by
  have hlist : taken ++ [node] ++ rest.toList = taken ++ run.worklist.toList := by
    rw [Queue.toList_of_pop? hpop, List.append_assoc]
    rfl
  refine ⟨?_, ?_, ?_⟩
  · exact fun n hn => h.place n (hlist ▸ hn)
  · exact fun n hn => h.visited n (hlist ▸ hn)
  · show (taken ++ [node] ++ rest.toList).Pairwise _
    rw [hlist]
    exact h.distinct

/-- Nodes that have been taken are no longer of interest. -/
theorem forget (h : run.Tidy plan taken) : run.Tidy plan [] where
  place := fun n hn => h.place n (List.mem_append_right _ hn)
  visited := fun n hn => h.visited n (List.mem_append_right _ hn)
  distinct := (List.pairwise_append.1 h.distinct).2.1

/-- Control enters a reachable block. -/
theorem enter (h : run.Tidy plan taken) {block : Nat} (hblock : plan.Reachable block) (s : State) :
    (run.enter plan block s).Tidy plan taken := by
  rcases enter_cases plan run block s with ⟨-, hlist, hall⟩ | ⟨hnew, hlist, hall⟩
  · refine ⟨?_, ?_, ?_⟩
    · rw [hlist]
      exact h.place
    · intro n hn
      rw [hlist] at hn
      rw [hall]
      exact h.visited n hn
    · rw [hlist]
      exact h.distinct
  · refine ⟨?_, ?_, ?_⟩
    · intro n hn
      rw [hlist, ← List.append_assoc] at hn
      rcases List.mem_append.1 hn with hn | hn
      · exact h.place n hn
      · obtain rfl := List.mem_singleton.1 hn
        exact ⟨rfl, hblock⟩
    · intro n hn
      rw [hlist, ← List.append_assoc] at hn
      rw [hall]
      rcases List.mem_append.1 hn with hn | hn
      · exact .inr (h.visited n hn)
      · obtain rfl := List.mem_singleton.1 hn
        exact .inl ⟨rfl, rfl⟩
    · rw [hlist, ← List.append_assoc]
      refine List.pairwise_append.2 ⟨h.distinct, List.pairwise_singleton _ _, fun a ha n hn => ?_⟩
      obtain rfl := List.mem_singleton.1 hn
      -- the new node has not been met, all others have
      rintro ⟨hsame, hfingerprint⟩
      have hmet := h.visited a ha
      rw [hsame, hfingerprint] at hmet
      exact Bool.false_ne_true (hnew.symm.trans hmet)

/-- A departure to a block that can be reached leaves a run tidy. -/
theorem depart (h : run.Tidy plan taken) {d : Departure}
    (hd : ∀ b s, d = .into b s → plan.Reachable b) : (run.depart plan d).Tidy plan taken := by
  cases d with
  | blocked => exact h.alike ⟨rfl, rfl⟩
  | into b s => exact h.enter (hd b s rfl) s

/-- So do several. -/
theorem departs (h : run.Tidy plan taken) {ds : List Departure}
    (hds : ∀ b s, .into b s ∈ ds → plan.Reachable b) :
    (ds.foldl (Run.depart plan) run).Tidy plan taken := by
  induction ds generalizing run with
  | nil => exact h
  | cons d ds ih =>
    refine ih (h.depart fun b s hd => hds b s (hd ▸ List.mem_cons_self)) fun b s hb => ?_
    exact hds b s (List.mem_cons_of_mem _ hb)

/-- A run is tidy after it has begun. -/
theorem begin (h : run.Tidy plan []) : (run.begin plan).Tidy plan [] := by
  have hentered : Tidy plan []
      { run with supply := (bindParameters plan.procedure.parameters run.supply).2 } :=
    ⟨h.place, h.visited, h.distinct⟩
  exact hentered.enter .refl _

/-- A node is taken and explored, to its end or as far as the steps last. -/
theorem process (h : run.Tidy plan []) {node : Node} {rest : Queue Node}
    {r : Except GraphError Bool} (hpop : run.worklist.pop? = some (node, rest))
    (hprocess : (run.taking rest).process plan node = (r, run')) : run'.Tidy plan [] := by
  have htaken := h.take hpop
  have hnode : plan.Reachable node.point.block := (htaken.place node (by simp)).2
  obtain ⟨run₁, s, ds, halike, rfl, hds, -⟩ := process_spec hprocess
  refine (htaken.forget.alike halike).departs fun b t hb => ?_
  rcases hds with rfl | rfl | rfl
  · cases hb
  · exact hnode.handlers hb
  · exact hnode.departures hb

/-- Whether or not a turn ends the run, it leaves the worklist tidy. -/
theorem turn (h : run.Tidy plan []) {o : Option Status} (hturn : run.turn plan = (o, run')) :
    run'.Tidy plan [] := by
  cases turned hturn with
  | done => exact h
  | cancelled hpop => exact (h.take hpop).forget
  | exceeded hpop _ hprocess => exact h.process hpop hprocess
  | failed hpop _ hprocess => exact h.process hpop hprocess
  | explored hpop _ hprocess => exact h.process hpop hprocess

end Tidy

/-- Exploring a node does not take steps back, and exploring all of a block with instructions uses
some up. -/
theorem steps_process (h : run.Tidy plan []) {node : Node} {rest : Queue Node}
    {r : Except GraphError Bool} (hpop : run.worklist.pop? = some (node, rest))
    (hprocess : (run.taking rest).process plan node = (r, run')) :
    run.statistics.steps ≤ run'.statistics.steps ∧
      (r = .ok true → plan.instructions node.point.block ≠ [] →
        run.statistics.steps < plan.settings.maxSteps ∧
          run.statistics.steps < run'.statistics.steps) := by
  have hoffset : node.point.offset = 0 := ((h.take hpop).place node (by simp)).1
  obtain ⟨run₁, s, ds, -, rfl, -, hle, hless⟩ := process_spec hprocess
  rw [hoffset, List.drop_zero] at hless
  rw [steps_departs]
  exact ⟨hle, hless⟩

/-- A turn does not take steps back, and one that goes on at a block with instructions uses some
up. -/
theorem steps_turn (h : run.Tidy plan []) {o : Option Status} (hturn : run.turn plan = (o, run')) :
    run.statistics.steps ≤ run'.statistics.steps ∧
      (run.nextIsFree plan = false → o = none →
        run.statistics.steps < plan.settings.maxSteps ∧
          run.statistics.steps < run'.statistics.steps) := by
  cases turned hturn with
  | done => exact ⟨Nat.le_refl _, by simp⟩
  | cancelled => exact ⟨Nat.le_refl _, by simp⟩
  | exceeded hpop _ hprocess => exact ⟨(steps_process h hpop hprocess).1, by simp⟩
  | failed hpop _ hprocess => exact ⟨(steps_process h hpop hprocess).1, by simp⟩
  | explored hpop _ hprocess =>
    obtain ⟨hle, hless⟩ := steps_process h hpop hprocess
    refine ⟨hle, fun hbusy _ => hless rfl ?_⟩
    simpa [nextIsFree_eq hpop] using hbusy

/-! ## Turns at blocks without instructions -/

/-- The nodes that wait and those that have been taken in a row descend from some nodes. -/
structure Passing (plan : Plan) (origins taken : List Node) (run : Run) : Prop
    extends Tidy plan taken run where
  /-- Each of the nodes descends from one of the origins. -/
  descends : ∀ n ∈ taken ++ run.worklist.toList, ∃ o ∈ origins,
    o.state.Descends plan run.supply n.state

namespace Passing

/-- A pass starts with what is in the worklist. -/
theorem start (h : run.Tidy plan []) : run.Passing plan run.worklist.toList [] :=
  ⟨h, fun n hn => ⟨n, hn, .refl plan run.supply n.state⟩⟩

/-- A pass goes on when a descendant of its origins enters a block. -/
theorem enter (h : run.Passing plan origins taken) {block : Nat} (hblock : plan.Reachable block)
    {s : State} (hs : ∃ o ∈ origins, o.state.Descends plan run.supply s) :
    (run.enter plan block s).Passing plan origins taken := by
  refine ⟨h.toTidy.enter hblock s, fun n hn => ?_⟩
  obtain ⟨o, ho, hdescends⟩ := hs
  obtain ⟨hextends, harriving⟩ := hdescends.arriving block
  rw [(enter_fields plan run block s).2.1]
  have hold : ∀ n ∈ taken ++ run.worklist.toList, ∃ o ∈ origins,
      o.state.Descends plan (run.counting plan block s).supply n.state := by
    intro n hn
    obtain ⟨o, ho, hn⟩ := h.descends n hn
    exact ⟨o, ho, hn.mono hextends⟩
  rcases enter_cases plan run block s with ⟨-, hlist, -⟩ | ⟨-, hlist, -⟩
  · exact hold n (hlist ▸ hn)
  · rw [hlist, ← List.append_assoc] at hn
    rcases List.mem_append.1 hn with hn | hn
    · exact hold n hn
    · obtain rfl := List.mem_singleton.1 hn
      exact ⟨o, ho, harriving⟩

/-- Control departs from a node that has been taken, with its state as it is or without the
stack. -/
theorem departs (h : run.Passing plan origins taken) {node : Node} (hnode : node ∈ taken)
    {ds : List Departure} (hds : ∀ d ∈ ds, ∃ b, plan.Reachable b ∧
      (d = .into b node.state ∨ d = .into b node.state.clearStack)) :
    (ds.foldl (depart plan) run).Passing plan origins taken := by
  induction ds generalizing run with
  | nil => exact h
  | cons d ds ih =>
    obtain ⟨o, ho, hdescends⟩ := h.descends node (List.mem_append_left _ hnode)
    refine ih ?_ fun d' hd' => hds d' (List.mem_cons_of_mem _ hd')
    obtain ⟨b, hb, rfl | rfl⟩ := hds d List.mem_cons_self
    · exact h.enter hb ⟨o, ho, hdescends⟩
    · exact h.enter hb ⟨o, ho, hdescends.clearStack⟩

/-- A turn at a block without instructions takes one more node. -/
theorem turn {p : Procedure} {x : Setting} {settings : Settings} {polls : Option Polls}
    (hplan : plan.Prepared p x settings polls) (hbuilt : p.flow.Built)
    (h : run.Passing plan origins taken) (hfree : run.nextIsFree plan = true)
    (hturn : run.turn plan = (none, run')) :
    ∃ node, run'.Passing plan origins (taken ++ [node]) := by
  cases turned hturn with
  | @explored node rest _ hpop _ hprocess =>
    have hempty : plan.instructions node.point.block = [] := by
      simpa [nextIsFree_eq hpop] using hfree
    have hlist : taken ++ [node] ++ rest.toList = taken ++ run.worklist.toList := by
      rw [Queue.toList_of_pop? hpop, List.append_assoc]
      rfl
    have htaken : (run.taking rest).Passing plan origins (taken ++ [node]) :=
      ⟨h.toTidy.take hpop, fun n hn => h.descends n (hlist ▸ hn)⟩
    have hall : executeAll plan node.point
        ((plan.instructions node.point.block).drop node.point.offset) (run.taking rest) node.state =
          (.reached node.state, run.taking rest) := by
      rw [hempty, List.drop_nil, executeAll]
    obtain ⟨-, rfl⟩ := Prod.mk.inj ((process_eq hall).symm.trans hprocess)
    have hmem : node ∈ taken ++ [node] := List.mem_append_right _ List.mem_cons_self
    have hnode : plan.Reachable node.point.block :=
      (htaken.place node (List.mem_append_left _ hmem)).2
    refine ⟨node, htaken.departs hmem fun d hd => ?_⟩
    obtain ⟨b, hb⟩ := hplan.departures_of_empty hbuilt hempty hd
    refine ⟨b, ?_, hb⟩
    rcases hb with rfl | rfl
    · exact hnode.departures hd
    · exact hnode.departures hd

/-- No more nodes are taken in a row than can be reached from the origins. -/
theorem length_le {p : Procedure} {x : Setting} {settings : Settings} {polls : Option Polls}
    (hplan : plan.Prepared p x settings polls) (hbuilt : p.flow.Built)
    (h : run.Passing plan origins taken) :
    taken.length ≤ (origins.map (plan.reach ·.state)).sum := by
  have hvertex : ∀ n ∈ taken ++ run.worklist.toList,
      plan.procedure.flow.graph.hasVertex n.point.block = true := by
    intro n hn
    rw [hplan.procedure]
    exact hbuilt.sound.graph.hasVertex_of_reaches (hbuilt.sound.entry hplan.entry)
      (hplan.reaches hbuilt (h.place n hn).2)
  calc taken.length ≤ (taken ++ run.worklist.toList).length := by simp
    _ ≤ _ := Plan.length_le_sum_reach h.distinct hvertex h.descends

end Passing

/-! ## Turn after turn -/

/-- After a number of turns the run ends. -/
inductive Ends (plan : Plan) : Nat → Run → Status → Run → Prop where
  /-- The next turn ends it. -/
  | stop {run run' : Run} {status : Status} (hturn : run.turn plan = (some status, run')) :
    Ends plan 1 run status run'
  /-- It goes on for a turn. -/
  | turn {n : Nat} {run next run' : Run} {status : Status} (hturn : run.turn plan = (none, next))
    (h : Ends plan n next status run') : Ends plan (n + 1) run status run'

/-- A tidy run is tidy when it has ended. -/
theorem Ends.tidy {n : Nat} {status : Status} (h : Ends plan n run status run')
    (hrun : run.Tidy plan []) : run'.Tidy plan [] := by
  induction h with
  | stop hturn => exact hrun.turn hturn
  | turn hturn _ ih => exact ih (hrun.turn hturn)

section

variable {p : Procedure} {x : Setting} {settings : Settings} {polls : Option Polls}

/-- Passing over blocks without instructions ends the run or comes to a block with instructions, if
the limit leaves room for all nodes that can be reached. -/
theorem pass_ends (hplan : plan.Prepared p x settings polls) (hbuilt : p.flow.Built) {limit : Nat}
    (h : run.Passing plan origins taken)
    (hlimit : (origins.map (plan.reach ·.state)).sum < taken.length + limit) :
    (∃ status run' n, run.pass plan limit = (some status, run') ∧ Ends plan n run status run') ∨
      ∃ run', run.pass plan limit = (none, run') ∧ run'.nextIsFree plan = false ∧
        run'.Tidy plan [] ∧ run.statistics.steps ≤ run'.statistics.steps ∧
        ∀ {n status final}, Ends plan n run' status final → ∃ m, Ends plan m run status final := by
  induction limit generalizing run taken with
  | zero =>
    have hlength := h.length_le hplan hbuilt
    omega
  | succ limit ih =>
    rw [pass]
    cases hfree : run.nextIsFree plan with
    | false =>
      right
      exact ⟨run, rfl, hfree, h.toTidy.forget, Nat.le_refl _, fun hends => ⟨_, hends⟩⟩
    | true =>
      rw [if_pos rfl]
      obtain ⟨o, next, hturn⟩ : ∃ o next, run.turn plan = (o, next) := ⟨_, _, rfl⟩
      cases o with
      | some status => exact .inl ⟨status, next, 1, by rw [hturn], .stop hturn⟩
      | none =>
        obtain ⟨node, hnext⟩ := h.turn hplan hbuilt hfree hturn
        have hsteps := (steps_turn h.toTidy.forget hturn).1
        rw [hturn]
        dsimp only
        rcases ih hnext (by simp; omega) with ⟨status, run', n, hpass, hends⟩ |
          ⟨run', hpass, hbusy, htidy, hle, hon⟩
        · exact .inl ⟨status, run', n + 1, hpass, .turn hturn hends⟩
        · refine .inr ⟨run', hpass, hbusy, htidy, by omega, fun hends => ?_⟩
          obtain ⟨m, hm⟩ := hon hends
          exact ⟨m + 1, .turn hturn hm⟩

/-- What can be reached is counted node by node. -/
theorem reach_eq_sum (plan : Plan) (run : Run) :
    run.reach plan = (run.worklist.toList.map (plan.reach ·.state)).sum := by
  rw [reach, List.sum_eq_foldl, List.foldl_map]

/-- A lap ends the run, or it uses up a step and leaves the worklist tidy. -/
theorem lap_ends (hplan : plan.Prepared p x settings polls) (hbuilt : p.flow.Built)
    (h : run.Tidy plan []) {o : Option Status} {next : Run} (hlap : run.lap plan = (o, next)) :
    (∀ status, o = some status → ∃ n, Ends plan n run status next) ∧
      (o = none → run.statistics.steps < plan.settings.maxSteps ∧
        run.statistics.steps < next.statistics.steps ∧ next.Tidy plan [] ∧
        ∀ {n status final}, Ends plan n next status final → ∃ m, Ends plan m run status final) := by
  have hroom : (run.worklist.toList.map (plan.reach ·.state)).sum <
      ([] : List Node).length + (run.reach plan + 1) := by
    rw [reach_eq_sum, List.length_nil]
    omega
  unfold lap at hlap
  rcases pass_ends hplan hbuilt (.start h) hroom with ⟨status, run', n, hpass, hends⟩ |
    ⟨run', hpass, hbusy, htidy, hle, hon⟩
  · rw [hpass] at hlap
    obtain ⟨rfl, rfl⟩ := Prod.mk.inj hlap
    refine ⟨fun status hstatus => ⟨n, ?_⟩, by simp⟩
    obtain rfl := Option.some.inj hstatus
    exact hends
  · rw [hpass] at hlap
    refine ⟨fun status hstatus => hon (.stop (hstatus ▸ hlap)), fun hnone => ?_⟩
    obtain ⟨hbudget, hless⟩ := (steps_turn htidy hlap).2 hbusy hnone
    refine ⟨by omega, by omega, htidy.turn hlap, fun hends => ?_⟩
    exact hon (.turn (hnone ▸ hlap) hends)

/-- Laps with a budget for all steps that are left come to what turn after turn comes to. -/
theorem laps_ends (hplan : plan.Prepared p x settings polls) (hbuilt : p.flow.Built) {budget : Nat}
    (h : run.Tidy plan []) (hbudget : plan.settings.maxSteps ≤ run.statistics.steps + budget) :
    ∃ n, Ends plan n run (run.laps plan budget).1 (run.laps plan budget).2 := by
  induction budget generalizing run with
  | zero =>
    rcases hlap : run.lap plan with ⟨_ | status, next⟩
    · -- no step is left, but the lap has used one up
      have hleft := ((lap_ends hplan hbuilt h hlap).2 rfl).1
      omega
    · rw [laps_of_lap_some 0 hlap]
      exact (lap_ends hplan hbuilt h hlap).1 status rfl
  | succ budget ih =>
    rcases hlap : run.lap plan with ⟨_ | status, next⟩
    · obtain ⟨-, hless, htidy, hon⟩ := (lap_ends hplan hbuilt h hlap).2 rfl
      rw [laps_succ budget hlap]
      obtain ⟨n, hends⟩ := ih htidy (by omega)
      exact hon hends
    · rw [laps_of_lap_some _ hlap]
      exact (lap_ends hplan hbuilt h hlap).1 status rfl

/-- Every exploration of a tidy run ends. -/
theorem explore_ends (hplan : plan.Prepared p x settings polls) (hbuilt : p.flow.Built)
    (h : run.Tidy plan []) :
    ∃ n, Ends plan n (run.begin plan) (run.explore plan).1 (run.explore plan).2 :=
  laps_ends hplan hbuilt h.begin (by omega)

/-- The runs with given checks from which an exploration starts: a new one, or one that has been
through an exploration of the same plan, whatever that came to. -/
inductive Resumed (plan : Plan) (checks : List Check) : Run → Prop where
  /-- A new run. -/
  | start : Resumed plan checks (.start checks)
  /-- A run that has been through an exploration. -/
  | again {run : Run} (h : Resumed plan checks run) : Resumed plan checks (run.explore plan).2

/-- A run that has been resumed is tidy. -/
theorem Resumed.tidy (hplan : plan.Prepared p x settings polls) (hbuilt : p.flow.Built)
    {checks : List Check} (h : run.Resumed plan checks) : run.Tidy plan [] := by
  induction h with
  | start => constructor <;> simp [Run.start]
  | again _ ih =>
    obtain ⟨n, hends⟩ := explore_ends hplan hbuilt ih
    exact hends.tidy ih.begin

end

end Run

/-- Every exploration of an admitted procedure ends, whatever its nodes mean, whatever the effects
of calls, the checks, the bounds and the answers to whether it is to go on: after finitely many
turns it is completed or given up, and the exploration is what these turns come to. -/
theorem exploration_ends {p : Procedure} (hbuilt : p.flow.Built) (hvalid : p.validate = .ok ())
    (x : Setting) (settings : Settings) (polls : Option Polls) (checks : List Check) :
    ∃ plan, Plan.prepare p x settings polls = .ok plan ∧ ∀ run, Run.Resumed plan checks run →
      ∃ n status run', Run.Ends plan n (run.begin plan) status run' ∧
        run.explore plan = (status, run') ∧
        (status = .completed ∨ ∃ reason, status = .incomplete reason) := by
  obtain ⟨plan, hprepare, -⟩ := Plan.exists_prepare hbuilt hvalid x settings polls
  have hplan := Plan.prepared hprepare
  refine ⟨plan, hprepare, fun run hrun => ?_⟩
  obtain ⟨n, hends⟩ := Run.explore_ends hplan hbuilt (hrun.tidy hplan hbuilt)
  have hplaced : Situation.Placed plan ⟨run.begin plan, .idle⟩ :=
    ⟨fun node hnode => ((hrun.tidy hplan hbuilt).begin.place node hnode).2, trivial⟩
  exact ⟨n, _, _, hends, rfl, Run.laps_ended (hplan.charted hbuilt) _ hplaced⟩

namespace EmptyCycle

/-- The node 3 names a variable. -/
def semantics : Semantics where
  symbol node := if node.val = 3 then some ⟨"x", .localVariable⟩ else none
  typeOf _ := none
  method _ := none
  constant _ := none

/-- Block 0 assigns a variable and leaves a value on the stack; the other blocks are empty. -/
def blocks : List Block := [
  ⟨0, [⟨⟨1⟩, .invocation [] false, none⟩, ⟨⟨2⟩, .invocation [] false, none⟩, ⟨⟨3⟩, .assign, none⟩]⟩,
  ⟨1, []⟩, ⟨2, []⟩]

/-- The blocks 1 and 2 form a cycle by a jump and an exception; the jump back to block 0 leaves the
stack higher than before. -/
def edges : List FlowEdge :=
  [⟨0, 1, .jump⟩, ⟨1, 2, .jump⟩, ⟨1, 1, .exceptional⟩, ⟨2, 1, .exceptional⟩, ⟨2, 0, .jump⟩]

/-- Loops are widened when they are entered for the second time. -/
def sample : Sample := ⟨[], semantics, blocks, edges, 1⟩

end EmptyCycle

/-- The stack of this procedure grows from round to round, until no steps are left. -/
theorem exploration_ends_emptyCycle :
    EmptyCycle.sample.procedure.flow.Built ∧ EmptyCycle.sample.procedure.validate = .ok () ∧
      ∃ plan, Plan.prepare EmptyCycle.sample.procedure EmptyCycle.sample.setting
          EmptyCycle.sample.settings none = .ok plan ∧
        ∃ n run', Run.Ends plan n ((Run.start EmptyCycle.sample.checks).begin plan)
            (.incomplete .stepBudgetExceeded) run' ∧
          (Run.start EmptyCycle.sample.checks).explore plan =
            (.incomplete .stepBudgetExceeded, run') := by
  have hbuilt := EmptyCycle.sample.built
  have hvalid : EmptyCycle.sample.procedure.validate = .ok () := by decide +kernel
  obtain ⟨plan, hplan, hends⟩ := exploration_ends hbuilt hvalid EmptyCycle.sample.setting
    EmptyCycle.sample.settings none EmptyCycle.sample.checks
  obtain ⟨n, status, run', hend, hexplore, -⟩ := hends _ .start
  have hsample : plan = EmptyCycle.sample.plan :=
    Except.ok.inj (hplan.symm.trans (Sample.prepare_eq (by rw [hplan]; rfl)))
  have hstatus : status = .incomplete .stepBudgetExceeded := by
    have hrun : ((Run.start EmptyCycle.sample.checks).explore EmptyCycle.sample.plan).1 =
        .incomplete .stepBudgetExceeded := by decide +kernel
    rw [← hsample, hexplore] at hrun
    exact hrun
  subst hstatus
  exact ⟨hbuilt, hvalid, plan, hplan, n, run', hend, hexplore⟩

end Pathwise
