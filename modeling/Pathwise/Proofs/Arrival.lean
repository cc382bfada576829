import Pathwise.Proofs.Checks
import Pathwise.Proofs.Situation

/-!
# Arriving at a block

Control arrives at a block with a cleaned state, widened at a loop header that has been entered
often enough, and the node is put on the worklist unless it was met before. Widening binds every
variable of the loop to the value that belongs to it at the header, forgets what is recorded about
these values, and leaves the rest alone.
-/

namespace Pathwise

namespace Run

/-- How often a block will have been entered, if it is a loop header, when it is entered again. -/
def nextVisit (run : Run) (block : Nat) : Nat := (run.headerVisits.get? block).getD 0 + 1

/-- Whether the next arrival at a block is widened. -/
def Widens (plan : Plan) (run : Run) (block : Nat) : Prop :=
  plan.assigned.contains block = true ∧ plan.settings.loopVisitLimit < run.nextVisit block

instance (plan : Plan) (run : Run) (block : Nat) : Decidable (Widens plan run block) :=
  inferInstanceAs (Decidable (_ ∧ _))

/-- The node with which control arrives at a block. -/
def arriving (plan : Plan) (run : Run) (block : Nat) (s : State) : Node where
  point := ⟨block, 0, if plan.assigned.contains block then run.nextVisit block else 0⟩
  state := if Widens plan run block then (widen plan block s.clean run.supply).1 else s.clean

/-- The run that has counted an arrival but not yet met its node. -/
def counting (plan : Plan) (run : Run) (block : Nat) (s : State) : Run where
  slots := run.slots
  supply := if Widens plan run block then (widen plan block s.clean run.supply).2 else run.supply
  journal := run.journal
  worklist := run.worklist
  visited := run.visited
  headerVisits :=
    if plan.assigned.contains block then run.headerVisits.insert block (run.nextVisit block)
    else run.headerVisits
  statistics :=
    if Widens plan run block then run.statistics.countWidening else run.statistics
  asked := run.asked

variable {plan : Plan} {run : Run} {block : Nat} {s : State}

/-- To enter a block is to arrive there and to meet the node. -/
theorem enter_eq (plan : Plan) (run : Run) (block : Nat) (s : State) :
    run.enter plan block s = (run.counting plan block s).meet (run.arriving plan block s) := by
  unfold enter counting arriving Widens nextVisit
  by_cases hheader : plan.assigned.contains block = true
  · by_cases hoften : plan.settings.loopVisitLimit < (run.headerVisits.get? block).getD 0 + 1
    · simp only [hheader, hoften, and_self, if_true]
      rfl
    · simp only [hheader, hoften, and_false, if_true, if_false]
  · simp only [hheader]
    rfl

/-- Control arrives with a cleaned state. -/
theorem exists_clean_arriving (plan : Plan) (run : Run) (block : Nat) (s : State) :
    ∃ t : State, (run.arriving plan block s).state = t.clean := by
  simp only [arriving]
  split
  · exact ⟨_, rfl⟩
  · exact ⟨s, rfl⟩

/-- A node is a duplicate or goes to the end of the worklist. -/
theorem meet_cases (run : Run) (node : Node) :
    (run.hasVisited node.point.block node.state.fingerprint = true ∧
        run.meet node = run.count .countDuplicate) ∨
      (run.hasVisited node.point.block node.state.fingerprint = false ∧
        (run.meet node).slots = run.slots ∧ (run.meet node).supply = run.supply ∧
        (run.meet node).headerVisits = run.headerVisits ∧
        (run.meet node).statistics.steps = run.statistics.steps ∧
        (run.meet node).worklist.toList = run.worklist.toList ++ [node] ∧
        ∀ b f, (run.meet node).hasVisited b f = true ↔
          (b = node.point.block ∧ f = node.state.fingerprint) ∨ run.hasVisited b f = true) := by
  unfold meet
  dsimp only
  split
  · next h => exact .inl ⟨h, rfl⟩
  · next h =>
    refine .inr ⟨by simpa using h, rfl, rfl, rfl, rfl, by simp, fun b f => ?_⟩
    unfold hasVisited
    by_cases hb : b = node.point.block
    · subst hb
      rw [SortedMap.get?_insert_self]
      cases run.visited.get? node.point.block <;> simp
    · rw [SortedMap.get?_insert_of_ne _ _ hb]
      simp [hb]

/-- The supply, the checks and the visits of headers after an arrival. -/
theorem enter_fields (plan : Plan) (run : Run) (block : Nat) (s : State) :
    (run.enter plan block s).slots = run.slots ∧
      (run.enter plan block s).supply = (run.counting plan block s).supply ∧
      (run.enter plan block s).headerVisits = (run.counting plan block s).headerVisits ∧
      (run.enter plan block s).statistics.steps = run.statistics.steps := by
  have hsteps : (run.counting plan block s).statistics.steps = run.statistics.steps := by
    simp only [counting]
    split <;> rfl
  rw [enter_eq, ← hsteps]
  rcases meet_cases (run.counting plan block s) (run.arriving plan block s) with
    ⟨_, h⟩ | ⟨_, hslots, hsupply, hvisits, hsteps, _⟩
  · rw [h]
    exact ⟨rfl, rfl, rfl, rfl⟩
  · exact ⟨hslots, hsupply, hvisits, hsteps⟩

theorem journal_enter (plan : Plan) (run : Run) (block : Nat) (s : State) :
    (run.enter plan block s).journal = run.journal := by
  rw [enter_eq, meet]
  split <;> rfl

/-- An arrival adds its node at the end of the worklist, or the node was met before. -/
theorem enter_cases (plan : Plan) (run : Run) (block : Nat) (s : State) :
    (run.hasVisited block (run.arriving plan block s).state.fingerprint = true ∧
        (run.enter plan block s).worklist.toList = run.worklist.toList ∧
        ∀ b f, (run.enter plan block s).hasVisited b f = run.hasVisited b f) ∨
      (run.hasVisited block (run.arriving plan block s).state.fingerprint = false ∧
        (run.enter plan block s).worklist.toList =
          run.worklist.toList ++ [run.arriving plan block s] ∧
        ∀ b f, (run.enter plan block s).hasVisited b f = true ↔
          (b = block ∧ f = (run.arriving plan block s).state.fingerprint) ∨
            run.hasVisited b f = true) := by
  rw [enter_eq]
  rcases meet_cases (run.counting plan block s) (run.arriving plan block s) with
    ⟨hvisited, h⟩ | ⟨hvisited, _, _, _, _, hlist, hall⟩
  · rw [h]
    exact .inl ⟨hvisited, rfl, fun _ _ => rfl⟩
  · exact .inr ⟨hvisited, hlist, hall⟩

/-- An arrival at a header counts as a visit. -/
theorem nextVisit_enter (plan : Plan) (run : Run) (block : Nat) (s : State) (b : Nat) :
    (run.enter plan block s).nextVisit b =
      if b = block ∧ plan.assigned.contains block = true then run.nextVisit b + 1
      else run.nextVisit b := by
  obtain ⟨-, -, hvisits, -⟩ := enter_fields plan run block s
  unfold nextVisit
  rw [hvisits]
  simp only [counting]
  by_cases hheader : plan.assigned.contains block = true
  · by_cases hb : b = block
    · subst hb
      simp [hheader, SortedMap.get?_insert_self, nextVisit]
    · simp [hheader, SortedMap.get?_insert_of_ne _ _ hb, hb]
  · simp [hheader]

/-- A step touches neither the worklist nor what was visited, and counts nothing. -/
theorem step_fields {run' : Run} {point : Point} {i : Instruction} {o : Option State}
    (h : run.step plan point i s = (o, run')) :
    run'.worklist = run.worklist ∧ run'.visited = run.visited ∧
      run'.headerVisits = run.headerVisits ∧ run'.statistics = run.statistics := by
  unfold step checked at h
  dsimp only at h
  split at h
  · next hchecked =>
    obtain ⟨-, rfl⟩ := Prod.mk.inj h
    obtain ⟨-, rfl⟩ := Prod.mk.inj hchecked
    exact ⟨rfl, rfl, rfl, rfl⟩
  · next hchecked =>
    obtain ⟨-, rfl⟩ := Prod.mk.inj h
    obtain ⟨-, rfl⟩ := Prod.mk.inj hchecked
    exact ⟨rfl, rfl, rfl, rfl⟩

theorem mem_depart {node : Node} (h : node ∈ run.worklist.toList) (d : Departure) :
    node ∈ (run.depart plan d).worklist.toList := by
  cases d with
  | blocked => exact h
  | into block s =>
    rw [depart]
    rcases enter_cases plan run block s with ⟨_, hlist, _⟩ | ⟨_, hlist, _⟩
    · rwa [hlist]
    · rw [hlist]
      exact List.mem_append_left _ h

end Run

/-! ## The states with which control departs -/

/-- What holds whenever values have been taken from the stack, and when after that something has
been assumed about the value that was on top, holds of the states with which control departs. -/
theorem Plan.departures_induction {P : State → Prop} {plan : Plan} {index : Nat} {s : State}
    (hdrop : ∀ n, P { s with stack := s.stack.drop n })
    (hassume : ∀ t s', State.assume (s.peek 0) (.truth t) { s with stack := s.stack.drop 1 } =
      some s' → P s') :
    ∀ t ∈ (Stage.leaving (plan.departures index s)).states, P t := by
  have hclear : P s.clearStack := by
    have hall := hdrop s.stack.length
    rwa [List.drop_length] at hall
  have hbranch : ∀ tail truth, ∀ t ∈ (Departure.ofBranch tail truth (s.peek 0)
      { s with stack := s.stack.drop 1 }).states, P t := by
    intro tail truth t ht
    unfold Departure.ofBranch at ht
    split at ht
    · next heq =>
      obtain rfl := List.mem_singleton.1 ht
      exact hassume truth t heq
    · cases ht
  intro t ht
  obtain ⟨d, hd, ht⟩ := List.mem_flatMap.1 ht
  obtain ⟨e, -, he⟩ := List.mem_filterMap.1 hd
  unfold Departure.ofEdge at he
  rw [State.pop_eq] at he
  split at he
  · obtain rfl := Option.some.inj he
    exact List.mem_singleton.1 ht ▸ hdrop 0
  · obtain rfl := Option.some.inj he
    exact List.mem_singleton.1 ht ▸ hclear
  · obtain rfl := Option.some.inj he
    split at ht
    · exact List.mem_singleton.1 ht ▸ hdrop 1
    · exact hbranch _ _ t ht
  · split at he
    · cases he
    · obtain rfl := Option.some.inj he
      exact hbranch _ _ t ht

theorem Plan.handlers_induction {P : State → Prop} {plan : Plan} {index : Nat} {s : State}
    (hclear : P s.clearStack) : ∀ t ∈ (Stage.leaving (plan.handlers index s)).states, P t := by
  intro t ht
  obtain ⟨d, hd, ht⟩ := List.mem_flatMap.1 ht
  obtain ⟨e, -, he⟩ := List.mem_filterMap.1 hd
  unfold Departure.ofHandler at he
  split at he
  · obtain rfl := Option.some.inj he
    exact List.mem_singleton.1 ht ▸ hclear
  · cases he

/-! ## Entering the procedure -/

/-- What holds at the start and is kept by binding a variable to a value of its own holds when the
procedure is entered. -/
theorem Run.bindParameters_induction {P : State → Supply → Prop} (hstart : P .empty .start)
    (hbind : ∀ s σ x, P s σ → P (s.bind x (.fresh σ.next)) σ.fresh.2) (parameters : List Symbol) :
    P (Run.bindParameters parameters .start).1 (Run.bindParameters parameters .start).2 := by
  unfold Run.bindParameters
  exact List.foldlRecOn parameters _ (motive := fun r : State × Supply => P r.1 r.2) hstart
    fun r hr x _ => hbind r.1 r.2 x hr

/-- On entry the stack is empty and nothing is recorded. -/
theorem Run.bindParameters_bare (parameters : List Symbol) :
    (Run.bindParameters parameters .start).1.stack = [] ∧
      (Run.bindParameters parameters .start).1.facts = .empty :=
  Run.bindParameters_induction (P := fun s _ => s.stack = [] ∧ s.facts = .empty) ⟨rfl, rfl⟩
    (fun _ _ _ h => h) parameters

/-! ## Widening -/

/-- The variables that the loop of a header assigns. -/
def Plan.assignedAt (plan : Plan) (header : Nat) : List Symbol :=
  ((plan.assigned.get? header).getD .empty).toList

/-- What widening does at a header: it binds some variables to their values there and forgets what
was recorded about these values. -/
structure State.WidenedAs (header : Nat) (symbols : List Symbol) (l : List Value) (s s' : State) :
    Prop where
  /-- Each of the variables has its value at the header. -/
  bound : ∀ x ∈ symbols, ∃ id, s'.lookup x = some (.widened id header x)
  /-- The other variables keep their values. -/
  other : ∀ y, y ∉ symbols → s'.lookup y = s.lookup y
  /-- The stack stays. -/
  stack : s'.stack = s.stack
  /-- Nothing is recorded about the values at the header. -/
  forgotten : ∀ x ∈ symbols, ∀ id, Value.widened id header x ∈ l → s'.facts.get? id = none
  /-- All other facts stay. -/
  kept : ∀ i, (∀ x ∈ symbols, Value.widened i header x ∉ l) → s'.facts.get? i = s.facts.get? i

namespace Run

variable {s : State} {σ : Supply} {l : List Value}

/-- Widening one variable. -/
theorem widenVariable_spec (header : Nat) (hl : Ledger l) (ht : σ.Tracks l) (hs : s.DrawnFrom l)
    (x : Symbol) :
    ∃ id ext, Ledger (l ++ ext) ∧ (widenVariable header (s, σ) x).2.Tracks (l ++ ext) ∧
      (widenVariable header (s, σ) x).1.DrawnFrom (l ++ ext) ∧
      .widened id header x ∈ l ++ ext ∧
      (widenVariable header (s, σ) x).1 =
        (s.bind x (.widened id header x)).forget (.widened id header x) := by
  obtain ⟨id, ext, hvalue, htracks, hmem, hext, -⟩ := ht.widened header x
  have hledger : Ledger (l ++ ext) := by
    rcases hext with rfl | rfl
    · simpa using hl
    · exact hl.snoc rfl (by simp [Value.operands])
  have heq : (widenVariable header (s, σ) x).1 =
      (s.bind x (.widened id header x)).forget (.widened id header x) := by
    rw [← hvalue]
    rfl
  refine ⟨id, ext, hledger, htracks, ?_, hmem, heq⟩
  rw [heq]
  exact ((hs.mono (List.prefix_append _ _)).bind x hmem).forget

/-- Widening one variable after the other. -/
theorem widenVariables_spec (header : Nat) (hl : Ledger l) (ht : σ.Tracks l) (hs : s.DrawnFrom l)
    (symbols : List Symbol) :
    ∃ ext, Ledger (l ++ ext) ∧ (symbols.foldl (widenVariable header) (s, σ)).2.Tracks (l ++ ext) ∧
      (symbols.foldl (widenVariable header) (s, σ)).1.DrawnFrom (l ++ ext) ∧
      State.WidenedAs header symbols (l ++ ext) s
        (symbols.foldl (widenVariable header) (s, σ)).1 := by
  induction symbols generalizing s σ l with
  | nil => exact ⟨[], by simpa using hl, by simpa using ht, by simpa using hs,
      by simp, fun _ _ => rfl, rfl, by simp, fun _ _ => rfl⟩
  | cons x rest ih =>
    obtain ⟨id, ext, hl₁, ht₁, hs₁, hmem, heq⟩ := widenVariable_spec header hl ht hs x
    rw [List.foldl_cons]
    generalize widenVariable header (s, σ) x = r at ht₁ hs₁ heq
    obtain ⟨s₁, σ₁⟩ := r
    subst heq
    obtain ⟨ext', hl', ht', hs', hw⟩ := ih hl₁ ht₁ hs₁
    rw [List.append_assoc] at hl' ht' hs' hw
    have hmem' : .widened id header x ∈ l ++ (ext ++ ext') := by
      rw [← List.append_assoc]
      exact List.mem_append_left _ hmem
    -- two values made for the same variable at the same header are the same
    have hunique : ∀ id', .widened id' header x ∈ l ++ (ext ++ ext') → id' = id := by
      intro id' hid'
      have hsame := (ht'.canonical_eq hid').symm.trans (ht'.canonical_eq hmem')
      simpa using hsame
    refine ⟨ext ++ ext', hl', ht', hs', fun y hy => ?_, fun y hy => ?_, hw.stack, fun y hy => ?_,
      fun i hi => ?_⟩
    · by_cases hrest : y ∈ rest
      · exact hw.bound y hrest
      · obtain rfl : y = x := (List.mem_cons.1 hy).resolve_right hrest
        exact ⟨id, by simpa [State.lookup_bind] using hw.other y hrest⟩
    · have hne : y ≠ x ∧ y ∉ rest := by simpa using hy
      simpa [State.lookup_bind, hne.1] using hw.other y hne.2
    · by_cases hrest : y ∈ rest
      · exact hw.forgotten y hrest
      · obtain rfl : y = x := (List.mem_cons.1 hy).resolve_right hrest
        intro id' hid'
        obtain rfl := hunique id' hid'
        rw [hw.kept id' fun z hz hmemz => ?_]
        · simp [State.facts_forget, Value.id]
        · have hyz := hl'.eq_of_id hid' hmemz rfl
          simp only [Value.widened.injEq, true_and] at hyz
          exact hrest (hyz ▸ hz)
    · have hne : i ≠ id := by
        rintro rfl
        exact hi x List.mem_cons_self hmem'
      rw [hw.kept i fun y hy => hi y (List.mem_cons_of_mem _ hy)]
      simp [State.facts_forget, Value.id, hne]

/-- Widening at a header is done for the variables of its loop, and the result is cleaned. -/
theorem widen_spec (plan : Plan) (header : Nat) (hl : Ledger l) (ht : σ.Tracks l)
    (hs : s.DrawnFrom l) :
    ∃ ext t, Ledger (l ++ ext) ∧ (widen plan header s σ).2.Tracks (l ++ ext) ∧
      t.DrawnFrom (l ++ ext) ∧ (widen plan header s σ).1 = t.clean ∧
      State.WidenedAs header (plan.assignedAt header) (l ++ ext) s t := by
  obtain ⟨ext, hl', ht', hs', hw⟩ :=
    widenVariables_spec header hl ht hs (plan.assignedAt header)
  exact ⟨ext, _, hl', ht', hs', rfl, hw⟩

end Run

/-- What becomes visited by a move is on the worklist afterwards. -/
theorem Move.visited_cases {plan : Plan} {x y : Situation} (h : Move plan x y) {block : Nat}
    {f : Fingerprint} (hf : y.run.hasVisited block f = true) :
    x.run.hasVisited block f = true ∨ ∃ node ∈ y.run.worklist.toList,
      node.point.block = block ∧ node.state.fingerprint = f := by
  cases h with
  | take | finish | settle => exact .inl hf
  | prune _ hstep | raise _ hstep _ | proceed _ hstep _ =>
    refine .inl ?_
    unfold Run.hasVisited at hf ⊢
    exact (Run.step_fields hstep).2.1 ▸ hf
  | @depart run d rest =>
    cases d with
    | blocked => exact .inl hf
    | into b s =>
      rcases Run.enter_cases plan run b s with ⟨_, _, hall⟩ | ⟨_, hlist, hall⟩
      · exact .inl (hall block f ▸ hf)
      · rcases (hall block f).1 hf with ⟨rfl, rfl⟩ | hf
        · exact .inr ⟨_, hlist ▸ List.mem_append_right _ List.mem_cons_self, rfl, rfl⟩
        · exact .inl hf

namespace Reached

variable {plan : Plan} {checks : List Check} {run : Run} {node : Node}

/-- A node on the worklist stays there until it is taken. -/
theorem mem_worklist_or_explored {x y : Situation} (h : Move plan x y)
    (hnode : node ∈ x.run.worklist.toList) :
    node ∈ y.run.worklist.toList ∨ ∃ run, y = .exploring plan run node := by
  cases h with
  | take _ hpop =>
    rw [Queue.toList_of_pop? hpop] at hnode
    rcases List.mem_cons.1 hnode with rfl | hrest
    · exact .inr ⟨_, rfl⟩
    · exact .inl hrest
  | finish | settle => exact .inl hnode
  | prune _ hstep | raise _ hstep _ | proceed _ hstep _ =>
    have hkept := congrArg Queue.toList ((Run.step_fields hstep).1)
    exact .inl (hkept ▸ hnode)
  | depart => exact .inl (Run.mem_depart hnode _)

/-- What stands on the worklist got there by an arrival. -/
theorem exists_arriving {x : Situation} (hx : Reached plan checks x)
    (hnode : node ∈ x.run.worklist.toList) :
    ∃ run block s, node = Run.arriving plan run block s := by
  induction hx with
  | refl => cases hnode
  | tail _ hmove ih =>
    cases hmove with
    | take _ hpop =>
      exact ih (Queue.toList_of_pop? hpop ▸ List.mem_cons_of_mem _ hnode)
    | finish | settle => exact ih hnode
    | prune _ hstep | raise _ hstep _ | proceed _ hstep _ =>
      have hkept := congrArg Queue.toList ((Run.step_fields hstep).1)
      exact ih (hkept ▸ hnode)
    | @depart run d rest =>
      cases d with
      | blocked => exact ih hnode
      | into block s =>
        rcases Run.enter_cases plan run block s with ⟨_, hlist, _⟩ | ⟨_, hlist, _⟩
        · exact ih (hlist ▸ hnode)
        · rcases List.mem_append.1 (hlist ▸ hnode) with hnode | hnode
          · exact ih hnode
          · exact ⟨run, block, s, List.mem_singleton.1 hnode⟩

/-- Control departs wherever it is about to. -/
theorem departs {departures : List Departure} {d : Departure}
    (hx : Reached plan checks ⟨run, .leaving departures⟩) (hd : d ∈ departures) :
    ∃ run' rest, Reached plan checks ⟨run', .leaving (d :: rest)⟩ := by
  induction departures generalizing run with
  | nil => cases hd
  | cons d' rest ih =>
    rcases List.mem_cons.1 hd with rfl | hd
    · exact ⟨run, rest, hx⟩
    · exact ih (hx.move .depart) hd

/-- A completed exploration explores every node that it meets. -/
theorem explored (h : (Run.start checks).explore plan = (.completed, run))
    (hnode : Met plan checks node) : ∃ run', Reached plan checks (.exploring plan run' node) := by
  obtain ⟨x, hx, hmem⟩ := hnode
  obtain ⟨_, hpop⟩ := of_completed h
  have hleads := leads_end h hx
  induction hleads using Relation.ReflTransGen.head_induction_on with
  | refl =>
    simp [Queue.toList_eq_nil_of_pop? hpop] at hmem
  | head hmove _ ih =>
    rcases mem_worklist_or_explored hmove hmem with hmem | ⟨run', rfl⟩
    · exact ih (hx.move hmove) hmem
    · exact ⟨run', hx.move hmove⟩

end Reached

/-- The state of a node has been cleaned. -/
theorem Met.exists_clean {plan : Plan} {checks : List Check} {node : Node}
    (h : Met plan checks node) : ∃ s : State, node.state = s.clean := by
  obtain ⟨x, hx, hnode⟩ := h
  obtain ⟨run, block, s, rfl⟩ := hx.exists_arriving hnode
  exact Run.exists_clean_arriving plan run block s

end Pathwise
