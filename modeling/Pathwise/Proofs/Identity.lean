import Mathlib.Algebra.GroupWithZero.Nat
import Mathlib.Data.List.Perm.Subperm
import Pathwise.Proofs.Coherence
import Pathwise.Proofs.Lasting
import Pathwise.Proofs.Lockstep
import Pathwise.Proofs.Sample

/-!
# Identity means sameness

Values are compared by identity, while what holds of a value and what an assumption is carried on to
depend on how it was made. In a run one identity is handed out at most for each parameter, for each
step, and for each variable that the loop of a header assigns, so that a counter of 32 bits does not
run over in a run of reasonable size. And whatever two values occur anywhere in a run, in states, in
what checks see, and among the values kept for loop headers: if they have one identity, they are the
same value.
-/

namespace Pathwise

/-! ## How many values are made -/

namespace Plan

variable {plan : Plan}

/-- The headers of loops with the variables that the loops assign. -/
def loopSlots (plan : Plan) : List (Nat × Symbol) :=
  plan.assigned.entries.flatMap fun e => e.2.toList.map (e.1, ·)

/-- One for each parameter, for each step that is allowed, and for each header of a loop and
variable that the loop assigns. -/
def valueBound (plan : Plan) : Nat :=
  plan.procedure.parameters.length + plan.settings.maxSteps +
    (plan.assigned.entries.map fun e => e.2.toList.length).sum

/-- An assigned variable has its slot. -/
theorem mem_loopSlots {header : Nat} {y : Symbol} (h : y ∈ plan.assignedAt header) :
    (header, y) ∈ plan.loopSlots := by
  unfold assignedAt at h
  cases hset : plan.assigned.get? header with
  | none => simp [hset, SortedSet.toList, SortedMap.keys, SortedMap.empty] at h
  | some set =>
    rw [hset] at h
    refine List.mem_flatMap.2 ⟨(header, set), SortedMap.get?_eq_some_iff.1 hset, ?_⟩
    exact List.mem_map_of_mem h

/-- There are as many slots as the entries of the plan list variables. -/
theorem length_loopSlots (plan : Plan) :
    plan.loopSlots.length = (plan.assigned.entries.map fun e => e.2.toList.length).sum := by
  simp [loopSlots, List.length_flatMap]

end Plan

/-- What a supply has handed out after a number of steps: one value for each parameter, one for each
step at most, and one for each of some variables at loop headers. -/
structure Supply.Accounts (plan : Plan) (σ : Supply) (steps : Nat) (kept : List (Nat × Symbol)) :
    Prop where
  /-- The variables at loop headers are different ones. -/
  nodup : kept.Nodup
  /-- They are those for which a value is kept. -/
  mem_kept : ∀ {header : Nat} {y : Symbol},
    (header, y) ∈ kept ↔ (σ.canonical? header y).isSome = true
  /-- The loops assign them. -/
  assigned : ∀ {e : Nat × Symbol}, e ∈ kept → e.2 ∈ plan.assignedAt e.1
  /-- The identities of the shared values are not handed out. -/
  free : Value.firstFree ≤ σ.next
  /-- Nothing else has been handed out. -/
  next_le : σ.next ≤
    Value.firstFree + plan.procedure.parameters.length + steps + kept.length

namespace Supply.Accounts

variable {plan : Plan} {σ σ' : Supply} {steps : Nat} {kept : List (Nat × Symbol)}

/-- No more values are kept than there are slots. -/
theorem length_kept_le (h : σ.Accounts plan steps kept) :
    kept.length ≤ (plan.assigned.entries.map fun e => e.2.toList.length).sum := by
  rw [← plan.length_loopSlots]
  have hsubset : kept ⊆ plan.loopSlots := fun e he => Plan.mem_loopSlots (h.assigned he)
  exact (List.subperm_of_subset h.nodup hsubset).length_le

/-- A step hands out one value at most. -/
theorem issue (h : σ.Accounts plan steps kept) {s : State} {new : List Value}
    (hissues : Issues s σ new σ') : σ'.Accounts plan (steps + 1) kept := by
  have hle := h.next_le
  have hfree := h.free
  cases hissues with
  | nothing => exact ⟨h.nodup, h.mem_kept, h.assigned, hfree, by omega⟩
  | one => exact ⟨h.nodup, h.mem_kept, h.assigned, by simp only; omega, by simp only; omega⟩

/-- A value for a variable at a loop header is handed out once. -/
theorem widened (h : σ.Accounts plan steps kept) {header : Nat} {y : Symbol}
    (hy : y ∈ plan.assignedAt header) :
    ∃ kept', (σ.widened header y).2.Accounts plan steps kept' := by
  unfold Supply.widened
  split
  · exact ⟨kept, h⟩
  · next hnone =>
    have hnew : (header, y) ∉ kept := by simp [h.mem_kept, hnone]
    have hle := h.next_le
    have hfree := h.free
    refine ⟨(header, y) :: kept, List.nodup_cons.2 ⟨hnew, h.nodup⟩, ?_, ?_, ?_, ?_⟩
    · intro header' y'
      simp only [Supply.issue, canonical?_insert, List.mem_cons, Prod.mk.injEq, h.mem_kept]
      split
      · next heq => simp [heq]
      · next hne => simp [hne]
    · intro e he
      rcases List.mem_cons.1 he with rfl | he
      · exact hy
      · exact h.assigned he
    · simp only [Supply.issue]
      omega
    · simp only [Supply.issue, List.length_cons]
      omega

/-- The account can be kept up while the variables of a loop are widened. -/
theorem widenVariables (h : σ.Accounts plan steps kept) {header : Nat} {symbols : List Symbol}
    (hsymbols : ∀ y ∈ symbols, y ∈ plan.assignedAt header) (s : State) :
    ∃ kept', (symbols.foldl (Run.widenVariable header) (s, σ)).2.Accounts plan steps kept' := by
  induction symbols generalizing σ kept s with
  | nil => exact ⟨kept, h⟩
  | cons y rest ih =>
    obtain ⟨kept', h'⟩ := h.widened (hsymbols y List.mem_cons_self)
    exact ih h' (fun z hz => hsymbols z (List.mem_cons_of_mem _ hz)) _

/-- It can be kept up where control arrives. -/
theorem arriving {run : Run} (h : run.supply.Accounts plan steps kept) (block : Nat) (s : State) :
    ∃ kept', (run.counting plan block s).supply.Accounts plan steps kept' := by
  simp only [Run.counting]
  split
  · exact h.widenVariables (fun _ hy => hy) s.clean
  · exact ⟨kept, h⟩

/-- The account begins with no step and nothing kept. -/
theorem entering (plan : Plan) :
    (Run.bindParameters plan.procedure.parameters .start).2.Accounts plan 0 [] := by
  have hnext : ∀ {f : State × Supply → Symbol → State × Supply},
      (∀ acc y, (f acc y).2 = { acc.2 with next := acc.2.next + 1 }) →
      ∀ (parameters : List Symbol) (acc : State × Supply), (parameters.foldl f acc).2 =
        { acc.2 with next := acc.2.next + parameters.length } := by
    intro f hf parameters
    induction parameters with
    | nil => exact fun _ => rfl
    | cons y rest ih =>
      intro acc
      rw [List.foldl_cons, ih, hf]
      simp only [List.length_cons]
      congr 1
      omega
  unfold Run.bindParameters
  rw [hnext fun _ _ => rfl]
  refine ⟨.nil, ?_, ?_, ?_, ?_⟩
  · intro header y
    simp [Supply.canonical?, Supply.start]
  · intro e he
    cases he
  · simp [Supply.start]
  · simp [Supply.start]

end Supply.Accounts

/-- A step leaves the supply as it is, or executes an instruction with it. -/
theorem Run.step_supply {plan : Plan} {run run' : Run} {point : Point} {i : Instruction} {s : State}
    {o : Option State} (h : run.step plan point i s = (o, run')) :
    run'.supply = run.supply ∨ ∃ t, run'.supply = (plan.setting.execute i run.supply t).2 := by
  unfold step checked at h
  dsimp only at h
  split at h
  · next hchecked =>
    obtain ⟨-, rfl⟩ := Prod.mk.inj h
    obtain ⟨-, rfl⟩ := Prod.mk.inj hchecked
    exact .inl rfl
  · next t _ hchecked =>
    obtain ⟨-, rfl⟩ := Prod.mk.inj h
    obtain ⟨-, rfl⟩ := Prod.mk.inj hchecked
    exact .inr ⟨t, rfl⟩

namespace Situation

variable {plan : Plan} {x y : Situation}

/-- The steps of a situation are within the bound, and they account for its values. -/
def Counted (plan : Plan) (x : Situation) : Prop :=
  x.run.statistics.steps ≤ plan.settings.maxSteps ∧
    ∃ kept, x.run.supply.Accounts plan x.run.statistics.steps kept

/-- A step of an instruction is counted once. -/
theorem Counted.step {run run' : Run} {stage stage' : Stage} {point : Point} {i : Instruction}
    {s : State} {o : Option State} (h : Counted plan ⟨run, stage⟩)
    (hbudget : run.statistics.steps < plan.settings.maxSteps)
    (hstep : (run.count .countStep).step plan point i s = (o, run')) :
    Counted plan ⟨run', stage'⟩ := by
  obtain ⟨-, kept, haccounts⟩ := h
  have hsteps : run'.statistics.steps = run.statistics.steps + 1 := by
    rw [(Run.step_fields hstep).2.2.2]
    rfl
  refine ⟨by simp only [hsteps]; omega, kept, ?_⟩
  simp only [hsteps]
  rcases Run.step_supply hstep with hsupply | ⟨t, hsupply⟩
  · rw [hsupply]
    exact haccounts.issue (s := s) .nothing
  · obtain ⟨new, hissues, -⟩ := plan.setting.outline_drawsOn run.supply t i
    rw [hsupply, plan.setting.execute_eq]
    exact haccounts.issue hissues

/-- Every move of the machine keeps the count. -/
theorem Counted.move (h : x.Counted plan) (hmove : Move plan x y) : y.Counted plan := by
  cases hmove with
  | take | finish | settle => exact h
  | prune hbudget hstep =>
    have hidle : Counted plan ⟨_, .idle⟩ := h.step hbudget hstep
    exact hidle
  | raise hbudget hstep _ | proceed hbudget hstep _ => exact h.step hbudget hstep
  | @depart run d rest =>
    cases d with
    | blocked => exact h
    | into block s =>
      obtain ⟨hsteps, kept, haccounts⟩ := h
      obtain ⟨-, hsupply, -, hsame⟩ := Run.enter_fields plan run block s
      obtain ⟨kept', haccounts'⟩ := haccounts.arriving block s
      refine ⟨?_, kept', ?_⟩
      · exact Nat.le_trans (Nat.le_of_eq hsame) hsteps
      · simp only [Run.depart]
        rw [hsupply, hsame]
        exact haccounts'

end Situation

/-- So the count is right in every situation that is reached. -/
theorem Reached.counted {plan : Plan} {checks : List Check} {x : Situation}
    (h : Reached plan checks x) : x.Counted plan := by
  induction h with
  | refl => exact ⟨Nat.zero_le _, [], Supply.Accounts.entering plan⟩
  | tail _ hmove ih => exact ih.move hmove

/-- The next identity of whatever is reached is within the bound. -/
theorem Reached.next_le {plan : Plan} {checks : List Check} {x : Situation}
    (h : Reached plan checks x) :
    Value.firstFree ≤ x.run.supply.next ∧
      x.run.supply.next ≤ Value.firstFree + plan.valueBound := by
  obtain ⟨hsteps, kept, haccounts⟩ := h.counted
  have hkept := haccounts.length_kept_le
  have hnext := haccounts.next_le
  refine ⟨haccounts.free, ?_⟩
  unfold Plan.valueBound
  omega

/-! ## Which values occur -/

/-- A value occurs in a state: a variable or the stack holds it, or something is recorded about it,
or one of these was made from it. -/
def State.Mentions (s : State) (v : Value) : Prop :=
  ∃ u, v.Part u ∧
    ((∃ y, s.lookup y = some u) ∨ u ∈ s.stack ∨ ∃ i f, s.facts.get? i = some f ∧ f.value = u)

/-- A value occurs in a situation. -/
inductive Situation.Contains (plan : Plan) (x : Situation) (v : Value) : Prop where
  /-- It occurs in a state that the run is about to work with. -/
  | stage {s : State} (hs : s ∈ x.stage.states) (hv : s.Mentions v)
  /-- It occurs in a state on the worklist. -/
  | worklist {node : Node} (hnode : node ∈ x.run.worklist.toList) (hv : node.state.Mentions v)
  /-- It occurs in a state that is given to a check, or that a check goes on with. -/
  | call {c : HookCall} {s : State} (hc : c ∈ x.calls plan) (hs : s ∈ c.states) (hv : s.Mentions v)
  /-- It is kept for a variable at a loop header, or such a value was made from it. -/
  | kept {header : Nat} {y : Symbol} {u : Value} (hu : x.run.supply.canonical? header y = some u)
    (hv : v.Part u)

/-- What a check goes on with consists of values that it was given. -/
def Check.MakesNoValues (c : Check) : Prop := c.Keeps fun l s => s.DrawnFrom l

/-- What a state mentions comes from its ledger. -/
theorem State.DrawnFrom.mentions_mem {s : State} {l : List Value} (h : s.DrawnFrom l)
    (hl : Ledger l) {v : Value} (hv : s.Mentions v) : v ∈ l := by
  obtain ⟨u, hpart, ⟨y, hy⟩ | hstack | ⟨i, f, hf, rfl⟩⟩ := hv
  · exact (hl.part hpart (h.lookup_mem hy)).1
  · exact (hl.part hpart (h.stack_mem hstack)).1
  · exact (hl.part hpart (h.fact_mem hf).1).1

/-- The checks of this library make no values. -/
theorem Check.Standard.makesNoValues {c : Check} (hc : c.Standard) : c.MakesNoValues :=
  hc.keeps id (fun hl hv hassume h => h.assume hl hv hassume) fun _ hv h => h.overwrite hv

/-- All values of a situation stand in one ledger, which those of the situations after it continue.
-/
theorem Invariant.Kept.exists_ledger {plan : Plan} {x : Situation} {l : List Value}
    (h : (State.DrawnFrom.lasting plan.setting).invariant.Kept x l) :
    ∃ l', l <+: l' ∧ Ledger l' ∧ (∀ v, x.Contains plan v → v ∈ l') ∧
      ∀ y, Move plan x y → (State.DrawnFrom.lasting plan.setting).invariant.Kept y l' := by
  obtain ⟨hl, ht⟩ := h.tracks
  have hmem : ∀ l', l <+: l' → Ledger l' →
      (∀ c ∈ x.calls plan, ∀ s ∈ c.states, s.DrawnFrom l') → ∀ v, x.Contains plan v → v ∈ l' := by
    intro l' hgrows hl' hcalls v hv
    cases hv with
    | stage hs hv => exact hgrows.subset (State.DrawnFrom.mentions_mem (h.stage _ hs) hl hv)
    | worklist hnode hv =>
      exact hgrows.subset (State.DrawnFrom.mentions_mem (h.worklist _ hnode) hl hv)
    | call hc hs hv => exact (hcalls _ hc _ hs).mentions_mem hl' hv
    | kept hu hv => exact hgrows.subset (hl.part hv (ht.canonical_mem hu).1).1
  cases hnext : x.next plan with
  | none =>
    refine ⟨l, List.prefix_refl l, hl, hmem l (List.prefix_refl l) hl ?_, fun y hmove => ?_⟩
    · rw [Situation.calls_of_stuck hnext]
      exact fun c hc => (nomatch hc)
    · rw [Move.iff_next.1 hmove] at hnext
      cases hnext
  | some z =>
    obtain ⟨l', hgrows, hkept, hcalls⟩ := h.move (Move.iff_next.2 hnext)
    refine ⟨l', hgrows, hkept.tracks.1, hmem l' hgrows hkept.tracks.1 hcalls, fun y hmove => ?_⟩
    rw [Move.iff_next] at hmove
    exact Option.some.inj (hnext.symm.trans hmove) ▸ hkept

/-- The values of two situations of an exploration stand in one ledger. -/
theorem Reached.exists_ledger {plan : Plan} {checks : List Check}
    (hchecks : ∀ c ∈ checks, c.MakesNoValues) {x y : Situation} (hx : Reached plan checks x)
    (hy : Reached plan checks y) :
    ∃ l, Ledger l ∧ (∀ v, x.Contains plan v → v ∈ l) ∧ ∀ v, y.Contains plan v → v ∈ l := by
  have hlater : ∀ {x y : Situation}, Reached plan checks x → Leads plan x y →
      ∃ l, Ledger l ∧ (∀ v, x.Contains plan v → v ∈ l) ∧ ∀ v, y.Contains plan v → v ∈ l := by
    intro x y hx hleads
    obtain ⟨l, hkept, -⟩ :=
      (State.DrawnFrom.lasting plan.setting).invariant.kept_reached hchecks hx
    obtain ⟨l', -, hl', hmem, hmoves⟩ := hkept.exists_ledger
    rcases hleads.cases_head with rfl | ⟨z, hmove, hleads⟩
    · exact ⟨l', hl', hmem, hmem⟩
    · obtain ⟨l₁, hgrows, hkept'⟩ := (hmoves z hmove).leads hleads
      obtain ⟨l₂, hgrows', hl₂, hmem', -⟩ := hkept'.exists_ledger
      exact ⟨l₂, hl₂, fun v hv => hgrows'.subset (hgrows.subset (hmem v hv)), hmem'⟩
  rcases hx.total hy with hleads | hleads
  · exact hlater hx hleads
  · obtain ⟨l, hl, hmem, hmem'⟩ := hlater hy hleads
    exact ⟨l, hl, hmem', hmem⟩

/-- In an exploration for whose values 32 bits are enough, identities do not run over, no more
values are made than there are parameters, steps, and variables of loops, values that occur with one
identity are the same, a value is made of values with smaller identities, and only the shared values
have their identities. -/
theorem identity_means_sameness {plan : Plan} {checks : List Check}
    (hchecks : ∀ c ∈ checks, c.MakesNoValues) (hbound : plan.valueBound < 2 ^ 32 - 5) :
    (∀ x, Reached plan checks x →
        Value.firstFree ≤ x.run.supply.next ∧ x.run.supply.next < 2 ^ 32) ∧
      ((Run.start checks).explore plan).2.finalStatistics.values ≤ plan.valueBound ∧
      (∀ x y, Reached plan checks x → Reached plan checks y → ∀ v w, x.Contains plan v →
        y.Contains plan w → v.id = w.id → v = w) ∧
      ∀ x, Reached plan checks x → ∀ v, x.Contains plan v →
        (∀ o ∈ v.operands, o.id < v.id) ∧ (v.id < Value.firstFree → v ∈ Value.sharedValues) := by
  refine ⟨fun x hx => ?_, ?_, fun x y hx hy v w hv hw hid => ?_, fun x hx v hv => ?_⟩
  · obtain ⟨hfree, hnext⟩ := hx.next_le
    have hfirst : Value.firstFree = 5 := rfl
    exact ⟨hfree, by omega⟩
  · obtain ⟨x, hx, hshows⟩ := Reached.of_explore plan checks
    obtain ⟨-, hnext⟩ := hx.next_le
    have hvalues : ((Run.start checks).explore plan).2.finalStatistics.values =
        x.run.supply.next - Value.firstFree := by
      simp only [Run.finalStatistics, hshows.supply, Supply.created]
    omega
  · obtain ⟨l, hl, hmemx, hmemy⟩ := Reached.exists_ledger hchecks hx hy
    exact hl.eq_of_id (hmemx v hv) (hmemy w hw) hid
  · obtain ⟨l, hl, hmem, -⟩ := Reached.exists_ledger hchecks hx hx
    refine ⟨fun o ho => (hl.operand (hmem v hv) ho).2, fun hlt => ?_⟩
    obtain ⟨rest, hrest⟩ := hl.shared
    have hfound := hl.getElem?_id (hmem v hv)
    rw [← hrest, List.getElem?_append_left (by exact hlt)] at hfound
    exact List.mem_of_getElem? hfound

namespace ComparedInLoop

/-- The parameter. -/
def p : Symbol := ⟨"p", .parameter⟩

/-- The variable. -/
def x : Symbol := ⟨"x", .localVariable⟩

/-- The variable for the condition. -/
def b : Symbol := ⟨"b", .localVariable⟩

/-- What the nodes mean. -/
def semantics : Semantics where
  symbol n :=
    if n.val ∈ [2, 3, 9] then some x
    else if n.val = 4 then some p
    else if n.val ∈ [6, 7] then some b
    else none
  typeOf _ := none
  method _ := none
  constant _ := none

/-- As long as `x` is `p`, which is kept in `b`, `x` gets a new value. -/
def blocks : List Block := [
  ⟨0, [⟨⟨1⟩, .invocation [] false, none⟩, ⟨⟨2⟩, .assign, none⟩]⟩,
  ⟨1, [⟨⟨3⟩, .identifier, none⟩, ⟨⟨4⟩, .identifier, none⟩, ⟨⟨5⟩, .binary .equals, none⟩,
    ⟨⟨6⟩, .assign, none⟩, ⟨⟨7⟩, .identifier, none⟩]⟩,
  ⟨2, [⟨⟨8⟩, .invocation [] false, none⟩, ⟨⟨9⟩, .assign, none⟩]⟩,
  ⟨3, []⟩]

/-- The edges between the blocks. -/
def edges : List FlowEdge :=
  [⟨0, 1, .jump⟩, ⟨1, 2, .whenTrue⟩, ⟨1, 3, .whenFalse⟩, ⟨2, 1, .jump⟩]

/-- Loops are widened when they are entered for the second time. -/
def sample : Sample := ⟨[p], semantics, blocks, edges, 1⟩

/-- The condition on a node that waits, if it compares two values. -/
def condition? (s : Situation) : Option Value :=
  (s.run.worklist.toList.findSome? (·.state.lookup b)).filter (·.operands.length == 2)

/-- After 35 moves a condition stands on the stack. -/
theorem condition?_after :
    ((Situation.entering sample.plan (.start sample.checks)).after sample.plan 35).any
      (fun s => (condition? s).isSome) = true := by
  decide +kernel

/-- It is in the situation and has two operands. -/
theorem contains_of_condition? {s : Situation} {v : Value} (h : condition? s = some v) :
    s.Contains sample.plan v ∧ v.operands.length = 2 := by
  obtain ⟨hfound, hlength⟩ := Option.filter_eq_some_iff.1 h
  obtain ⟨node, hnode, hlookup⟩ := List.exists_of_findSome?_eq_some hfound
  refine ⟨.worklist hnode ⟨v, .refl v, .inl ⟨b, hlookup⟩⟩, ?_⟩
  simpa using hlength

end ComparedInLoop

/-- In the second round the variable has its value at the header, which is compared with the
parameter; the condition has an identity of its own. -/
theorem identity_means_sameness_comparedInLoop :
    (∀ c ∈ ComparedInLoop.sample.checks, c.MakesNoValues) ∧
      ComparedInLoop.sample.plan.valueBound < 2 ^ 32 - 5 ∧
      ((Run.start ComparedInLoop.sample.checks).explore
        ComparedInLoop.sample.plan).2.finalStatistics.values = 8 ∧
      8 ≤ ComparedInLoop.sample.plan.valueBound ∧
      ∃ x v, Reached ComparedInLoop.sample.plan ComparedInLoop.sample.checks x ∧
        x.Contains ComparedInLoop.sample.plan v ∧ v.operands.length = 2 ∧
        (∀ o ∈ v.operands, o.id < v.id) ∧
        ∀ y w, Reached ComparedInLoop.sample.plan ComparedInLoop.sample.checks y →
          y.Contains ComparedInLoop.sample.plan w → v.id = w.id → v = w := by
  have hchecks : ∀ c ∈ ComparedInLoop.sample.checks, c.MakesNoValues :=
    fun c hc => (Registry.standard_enabled hc).makesNoValues
  have hbound : ComparedInLoop.sample.plan.valueBound < 2 ^ 32 - 5 := by decide +kernel
  have hvalues : ((Run.start ComparedInLoop.sample.checks).explore
      ComparedInLoop.sample.plan).2.finalStatistics.values = 8 := by decide +kernel
  obtain ⟨-, hle, hsame, hordered⟩ := identity_means_sameness hchecks hbound
  obtain ⟨x, hx, hfound⟩ := (Option.any_eq_true _ _).1 ComparedInLoop.condition?_after
  obtain ⟨v, hv⟩ := Option.isSome_iff_exists.1 hfound
  obtain ⟨hcontains, hlength⟩ := ComparedInLoop.contains_of_condition? hv
  have hreached := Reached.of_after hx
  exact ⟨hchecks, hbound, hvalues, hvalues ▸ hle, x, v, hreached, hcontains, hlength,
    (hordered x hreached v hcontains).1,
    fun y w hy hw hid => hsame x y hreached hy v w hcontains hw hid⟩

end Pathwise
