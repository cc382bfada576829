import Pathwise.Proofs.Causes
import Pathwise.Proofs.Cleaning
import Pathwise.Proofs.Machine
import Pathwise.Proofs.Settling

/-!
# Facts that leak through shared values

Null and the object whose code runs are shared by all variables that hold them, so a fact about one
of them concerns every path fragment that mentions it. Whether they are null is settled by what they
are, and no state of a run records it. Whether they are true is not: a branch can settle it, if it
compares a value that is known to hold or to fail with null. From then on null counts as false, or
as true, and a comparison of another value with null is decided by it.

Nothing but a branch has this effect. Steps and arrivals settle nothing, so a run keeps the shared
values open exactly if none of its branches settles them, and a branch that does not has no effect
on conditions that have only shared values in common with its own.
-/

namespace Pathwise

/-! ## Steps settle nothing -/

namespace State

variable {u v : Value} {c : Constraint} {s s' : State}

/-- To overwrite a constraint of another domain changes no truth. -/
theorem truth_overwrite (hc : c.domain ≠ .truth) (u : Value) :
    (s.overwrite v c).truth u = s.truth u := by
  rw [truth, truth, constraint_overwrite_of_ne _ _ _ (Ne.symm hc)]

/-- Adjustments change no truth. -/
theorem AdjustsTo.truth (h : s.AdjustsTo s') : s'.truth u = s.truth u := by
  obtain ⟨writes, rfl, hwrites⟩ := h
  exact Outline.writeAll_induction (P := fun t => t.truth u = s.truth u)
    (fun w hw t ht => (truth_overwrite (hwrites w hw).2 u).trans ht) rfl

end State

namespace Setting

variable {x : Setting} {u v : Value} {c : Constraint} {s : State}

/-- With the standard effects an instruction writes no truth. -/
theorem MayWrite.domain_ne_truth (heffects : x.effects = .standard) (h : x.MayWrite v c) :
    c.domain ≠ .truth := by
  cases h with
  | created => simp [Constraint.domain]
  | effect he =>
    rw [heffects] at he
    rcases Effects.mem_standard he with rfl | rfl <;> simp [Constraint.domain]

/-- So an instruction changes no truth. -/
theorem truth_execute (heffects : x.effects = .standard) (i : Instruction) (σ : Supply) :
    (x.execute i σ s).1.truth u = s.truth u := by
  rw [execute_eq]
  exact Outline.apply_induction (P := fun t => t.truth u = s.truth u) (fun _ _ _ => rfl)
    (fun w hw t ht => (State.truth_overwrite
      ((mayWrite_outline hw).domain_ne_truth heffects) u).trans ht) (fun _ _ _ ht => ht) rfl

end Setting

namespace Run

variable {plan : Plan} {run : Run} {u : Value} {s : State}

/-- A step changes nothing about which values hold, and neither do the checks around it. -/
theorem truth_step (heffects : plan.setting.effects = .standard) (hrun : run.Standard)
    (point : Point) (i : Instruction) :
    (∀ s', (run.step plan point i s).1 = some s' → s'.truth u = s.truth u) ∧
      ∀ c ∈ run.stepCalls plan point i s, ∀ t ∈ c.states, t.truth u = s.truth u := by
  have hkeeps : ∀ {check : Check}, check.Standard →
      check.Keeps fun _ t => t.truth u = s.truth u := by
    intro check hcheck l moment site t t' j _ ht hhook
    exact (hcheck.adjusts (Prod.ext hhook rfl)).truth.trans ht
  have hslots : ∀ slot ∈ run.slots, slot.check.Keeps fun _ t => t.truth u = s.truth u :=
    fun slot hslot => hkeeps (hrun slot hslot)
  have hslots' := forall_check_of_eq (C := Check.Keeps fun _ t => t.truth u = s.truth u)
    (callChecks_checks plan .before point i run.slots run.journal s) hslots
  obtain ⟨hcalls, hresult⟩ :=
    callChecks_keeps plan .before point i hslots Ledger.start run.journal (s := s) rfl
  unfold step stepCalls checked
  dsimp only
  generalize callChecks plan .before point i run.slots run.journal s = r at hresult hslots'
  obtain ⟨slots, j, result⟩ := r
  cases result with
  | none => exact ⟨by simp, by simpa using hcalls⟩
  | some t =>
    have hexecuted : (plan.setting.execute i run.supply t).1.truth u = s.truth u :=
      (Setting.truth_execute heffects i run.supply).trans (hresult t rfl)
    obtain ⟨hcalls', hresult'⟩ :=
      callChecks_keeps plan .after point i hslots' Ledger.start j hexecuted
    refine ⟨hresult', fun c hc => ?_⟩
    rcases List.mem_append.1 hc with hc | hc
    · exact hcalls c hc
    · exact hcalls' c hc

/-- Control arrives with nothing settled that was open when it departed. -/
theorem truth_arriving (plan : Plan) (run : Run) (block : Nat) (h : s.truth u = none) :
    (run.arriving plan block s).state.truth u = none := by
  rw [State.truth_eq, Option.or_eq_none_iff] at h ⊢
  refine ⟨h.1, ?_⟩
  cases hfact : (run.arriving plan block s).state.facts.get? u.id with
  | none => rw [State.recorded_of_facts_none hfact]; rfl
  | some f =>
    have hsame : (run.arriving plan block s).state.recorded u = s.recorded u := by
      rw [State.recorded, State.recorded, hfact, facts_arriving plan run block hfact]
    rw [hsame, h.2]

end Run

/-! ## Branches -/

/-- At the end of a block of a run a condition is taken from the stack, and control departs with the
state in which the condition is assumed to hold or to fail. -/
inductive Assumed (plan : Plan) (checks : List Check) : Value → Truth → State → State → Prop where
  /-- The condition is on top of the stack. -/
  | intro {run : Run} {point : Point} {s t : State} {a : Truth}
    (hreached : Reached plan checks ⟨run, .executing point [] s⟩)
    (hassume : State.assume s.pop.1 (.truth a) s.pop.2 = some t)
    (hdeparts : t ∈ (Stage.leaving (plan.departures point.block s)).states) :
    Assumed plan checks s.pop.1 a s.pop.2 t

/-- A run shows a state if it holds it in store, or if a check is about to be called with it or to
go on with it. -/
def Situation.Shows (plan : Plan) (x : Situation) (s : State) : Prop :=
  s ∈ x.states ∨ ∃ c ∈ x.calls plan, s ∈ c.states

section

variable {plan : Plan} {checks : List Check} {x y : Situation} {u v w : Value} {a : Truth}
  {s t : State}

/-- What holds of all states of a situation holds of those in hand and of those in the worklist. -/
theorem Situation.forall_states {P : State → Prop} : (∀ s ∈ x.states, P s) ↔
    (∀ s ∈ x.stage.states, P s) ∧ ∀ node ∈ x.run.worklist.toList, P node.state := by
  rw [states, List.forall_mem_append, List.forall_mem_map]

/-- A move leaves a value open, unless it is a branch that settles it. -/
theorem Move.open_of_open (hmove : Move plan x y) (hx : Reached plan checks x)
    (hchecks : ∀ c ∈ checks, c.Standard) (heffects : plan.setting.effects = .standard)
    (hbranch : ∀ v a s t, Assumed plan checks v a s t → s.truth u = none → t.truth u = none)
    (hopen : ∀ s ∈ x.states, s.truth u = none) : ∀ s ∈ y.states, s.truth u = none := by
  obtain ⟨l, hl⟩ := hx.coherent hchecks
  rw [Situation.forall_states] at hopen ⊢
  obtain ⟨hstage, hworklist⟩ := hopen
  have hstepped : ∀ {point i s o run'}, s ∈ x.stage.states →
      (x.run.count .countStep).step plan point i s = (o, run') →
      (∀ s', o = some s' → s'.truth u = none) ∧
        ∀ node ∈ run'.worklist.toList, node.state.truth u = none := by
    intro point i s o run' hs hstep
    have hrun : (x.run.count .countStep).Standard := hl.standard
    have htruth := (Run.truth_step (u := u) (s := s) heffects hrun point i).1
    rw [hstep] at htruth
    refine ⟨fun s' hs' => (htruth s' hs').trans (hstage s hs), fun node hnode => hworklist node ?_⟩
    rwa [(Run.step_fields hstep).1] at hnode
  cases hmove with
  | @take run node rest _ hpop =>
    have hlist := Queue.toList_of_pop? hpop
    rw [hlist, List.forall_mem_cons] at hworklist
    exact ⟨by simpa [Situation.exploring, Stage.states] using hworklist.1, hworklist.2⟩
  | @finish run point s =>
    -- the only move that makes an assumption about truth
    have hs : s.truth u = none := hstage s List.mem_cons_self
    refine ⟨fun t ht => ?_, hworklist⟩
    have hcases := Plan.departures_induction (P := fun t => t.truth u = none ∨
      ∃ a, State.assume s.pop.1 (.truth a) s.pop.2 = some t) (fun n => .inl hs)
      (fun a t h => .inr ⟨a, by rwa [State.pop_eq]⟩) t ht
    rcases hcases with htruth | ⟨a, hassume⟩
    · exact htruth
    · exact hbranch _ a _ t (.intro hx hassume ht) (by rw [State.pop_eq]; exact hs)
  | prune _ hstep =>
    exact ⟨by simp [Stage.states], (hstepped List.mem_cons_self hstep).2⟩
  | @raise run run' point i rest s s' _ hstep _ =>
    obtain ⟨hs', hworklist'⟩ := hstepped List.mem_cons_self hstep
    have hcleared : s'.clearStack.truth u = none := hs' s' rfl
    exact ⟨Plan.handlers_induction hcleared, hworklist'⟩
  | proceed _ hstep _ =>
    obtain ⟨hs', hworklist'⟩ := hstepped List.mem_cons_self hstep
    exact ⟨by simpa [Stage.states] using hs' _ rfl, hworklist'⟩
  | @depart run d rest =>
    have hrest : ∀ s ∈ (Stage.leaving rest).states, s.truth u = none :=
      fun s hs => hstage s (List.mem_append_right _ hs)
    cases d with
    | blocked => exact ⟨hrest, hworklist⟩
    | into block s =>
      have hs : s.truth u = none := hstage s (List.mem_append_left _ List.mem_cons_self)
      refine ⟨hrest, fun node hnode => ?_⟩
      rcases Run.enter_cases plan run block s with ⟨-, hlist, -⟩ | ⟨-, hlist, -⟩
      · exact hworklist node (hlist ▸ hnode)
      · rcases List.mem_append.1 (hlist ▸ hnode) with hnode | hnode
        · exact hworklist node hnode
        · obtain rfl := List.mem_singleton.1 hnode
          exact Run.truth_arriving plan run block hs
  | settle => exact ⟨by simp [Stage.states], hworklist⟩

/-- A value that nothing settles by what it is stays open, unless a branch settles it. -/
theorem Reached.open_of_branches (hx : Reached plan checks x)
    (hchecks : ∀ c ∈ checks, c.Standard) (heffects : plan.setting.effects = .standard)
    (hu : u.intrinsic.truth = none)
    (hbranch : ∀ v a s t, Assumed plan checks v a s t → s.truth u = none → t.truth u = none) :
    ∀ s ∈ x.states, s.truth u = none := by
  induction hx with
  | refl =>
    intro s hs
    obtain rfl : s = (Run.bindParameters plan.procedure.parameters .start).1 := by
      simpa [Situation.states, Situation.entering, Stage.states, Departure.states, Run.start]
        using hs
    have hbare := (Run.bindParameters_bare plan.procedure.parameters).2
    rw [State.truth_eq, hu, State.recorded_of_facts_none (by rw [hbare]; rfl)]
    rfl
  | tail hx hmove ih => exact hmove.open_of_open hx hchecks heffects hbranch ih

/-- The calls of a check are made by a step of an instruction. -/
theorem Situation.exists_step_of_call {c : HookCall} (hc : c ∈ x.calls plan) :
    ∃ run point i rest s, x = ⟨run, .executing point (i :: rest) s⟩ ∧
      run.statistics.steps < plan.settings.maxSteps ∧
      c ∈ (run.count .countStep).stepCalls plan point i s := by
  obtain ⟨run, stage⟩ := x
  cases stage with
  | idle | leaving => cases hc
  | executing point instructions s =>
    cases instructions with
    | nil => cases hc
    | cons i rest =>
      by_cases hbudget : run.statistics.steps < plan.settings.maxSteps
      · rw [calls_executing hbudget] at hc
        exact ⟨run, point, i, rest, s, rfl, hbudget, hc⟩
      · have hnone : calls plan ⟨run, .executing point (i :: rest) s⟩ = [] :=
          if_pos (Nat.lt_succ_of_le (Nat.not_lt.1 hbudget))
        simp [hnone] at hc

/-- What is open in the states that a run holds is open in the states that its checks see. -/
theorem Situation.Shows.isOpen (hs : x.Shows plan s) (hx : Reached plan checks x)
    (hchecks : ∀ c ∈ checks, c.Standard) (heffects : plan.setting.effects = .standard)
    (hopen : ∀ s ∈ x.states, s.truth u = none) : s.truth u = none := by
  rcases hs with hs | ⟨c, hc, hs⟩
  · exact hopen s hs
  · obtain ⟨run, point, i, rest, s₀, rfl, -, hcall⟩ := Situation.exists_step_of_call hc
    obtain ⟨l, hl⟩ := hx.coherent hchecks
    have hrun : (run.count .countStep).Standard := hl.standard
    rw [(Run.truth_step heffects hrun point i).2 c hcall s hs]
    exact hopen s₀ (List.mem_append_left _ List.mem_cons_self)

/-- No state that a run shows records what is settled by what a value is. -/
theorem Situation.Shows.recorded_of_settled (hs : x.Shows plan s) (hx : Reached plan checks x)
    (hchecks : ∀ c ∈ checks, c.Standard) (heffects : plan.setting.effects = .standard)
    (hu : u ∈ Value.sharedValues) {d : Domain} (hd : u.intrinsic.get? d ≠ none) :
    (s.recorded u).get? d = none := by
  have hlasting : Lasting plan.setting State.Proper := State.Proper.lasting heffects
  have hkeeps : ∀ c ∈ checks, hlasting.invariant.Admits c :=
    fun c hc => State.Proper.standard_keeps (hchecks c hc)
  obtain ⟨l, hkept, -⟩ := hlasting.invariant.kept_reached hkeeps hx
  have hproper : ∃ l, Ledger l ∧ s.Proper l := by
    rcases hs with hs | ⟨c, hc, hs⟩
    · refine ⟨l, hkept.tracks.1, ?_⟩
      exact Situation.forall_states.2 ⟨hkept.stage, hkept.worklist⟩ s hs
    · obtain ⟨run, point, i, rest, s₀, rfl, hbudget, -⟩ := Situation.exists_step_of_call hc
      obtain ⟨l', -, -, hseen, hkept'⟩ := hkept.executing hbudget rfl
      have hidle : hlasting.invariant.Kept ⟨_, .idle⟩ l' := hkept' (by simp [Stage.states])
      exact ⟨l', hidle.tracks.1, hseen c hc s hs⟩
  obtain ⟨l, hl, hs⟩ := hproper
  exact hs.recorded_of_settled hl (hl.mem_of_shared hu) hd

/-- A branch along an edge on a condition. -/
theorem Assumed.of_edge {run : Run} {point : Point} {e : FlowEdge}
    (hreached : Reached plan checks ⟨run, .executing point [] s⟩)
    (hassume : State.assume s.pop.1 (.truth a) s.pop.2 = some t)
    (he : e ∈ plan.edgesOut point.block)
    (hedge : Departure.ofEdge (Run.sameTarget (plan.edgesOut point.block)) s e =
      some (.ofBranch e.tail a s.pop.1 s.pop.2)) : Assumed plan checks s.pop.1 a s.pop.2 t := by
  refine .intro hreached hassume (List.mem_flatMap.2 ⟨.into e.tail t, ?_, List.mem_cons_self⟩)
  refine List.mem_filterMap.2 ⟨e, he, ?_⟩
  rw [hedge, Departure.ofBranch_of_some hassume]

namespace Assumed

variable (hassumed : Assumed plan checks v a s t)
include hassumed

/-- The state after a branch is shown by the run. -/
theorem shows : ∃ x, Reached plan checks x ∧ x.Shows plan t := by
  obtain ⟨hreached, -, hdeparts⟩ := hassumed
  exact ⟨_, hreached.move .finish, .inl (List.mem_append_left _ hdeparts)⟩

/-- The condition of a branch comes from a ledger. -/
theorem exists_ledger (hchecks : ∀ c ∈ checks, c.Standard) :
    ∃ l, Ledger l ∧ v ∈ l ∧ State.assume v (.truth a) s = some t := by
  obtain ⟨hreached, hassume, -⟩ := hassumed
  obtain ⟨l, hl⟩ := hreached.coherent hchecks
  refine ⟨l, hl.ledger, ?_, hassume⟩
  rw [State.pop_eq]
  exact (hl.stage _ List.mem_cons_self).peek_mem hl.ledger 0

/-- After a branch a shared value is settled exactly if it was before, or the branch settles it. -/
theorem truth_ne_none_iff (hchecks : ∀ c ∈ checks, c.Standard) (hu : u ∈ Value.sharedValues)
    (hknown : u.isUnknown = false) :
    t.truth u ≠ none ↔ s.truth u ≠ none ∨ s.Settles v u := by
  obtain ⟨l, hl, hv, hassume⟩ := hassumed.exists_ledger hchecks
  exact State.foreseen hl hv (hl.mem_of_shared hu) hknown hassume

end Assumed

/-- What null and the object whose code runs are says whether they are null, and nothing else. -/
theorem Value.intrinsic_of_mem (hu : u ∈ [null, self]) :
    u ∈ sharedValues ∧ u.isUnknown = false ∧ u.intrinsic.get? .nullability ≠ none ∧
      u.intrinsic.truth = none := by
  simp only [List.mem_cons, List.not_mem_nil, or_false] at hu
  rcases hu with rfl | rfl
  · exact ⟨by simp [sharedValues], rfl, by decide, rfl⟩
  · exact ⟨by simp [sharedValues], rfl, by decide, rfl⟩

/-- In no state that a run with standard effects and checks shows is the nullability of null or of
the object whose code runs recorded. Whether they are true is not recorded either exactly if no
branch of the run settles it. A branch that settles neither makes no difference to any condition
that has only shared values in common with its own. -/
theorem facts_leak_iff_settled (heffects : plan.setting.effects = .standard)
    (hchecks : ∀ c ∈ checks, c.Standard) :
    (∀ u ∈ [Value.null, Value.self],
      (∀ x s, Reached plan checks x → x.Shows plan s → (s.recorded u).nullability = none) ∧
        ((∀ x s, Reached plan checks x → x.Shows plan s → (s.recorded u).truth = none) ↔
          ∀ v a s t, Assumed plan checks v a s t → ¬s.Settles v u)) ∧
      ∀ v a s t, Assumed plan checks v a s t →
        (∀ u ∈ [Value.null, Value.self], ¬s.Settles v u) →
          ∀ w, State.Unrelated v w → State.Indifferent w s t := by
  refine ⟨fun u hu => ?_, fun v a s t hassumed hsettles w hw => ?_⟩
  · obtain ⟨hshared, hknown, hnull, hintrinsic⟩ := Value.intrinsic_of_mem hu
    have htruth : ∀ s : State, s.truth u = (s.recorded u).truth := fun s => by
      rw [State.truth_eq, hintrinsic, Option.none_or]
    refine ⟨fun x s hx hs => ?_, fun hnone v a s t hassumed hsettles => ?_,
      fun hbranch x s hx hs => ?_⟩
    · have hrecorded := hs.recorded_of_settled hx hchecks heffects hshared hnull
      simpa [ConstraintSet.get?] using hrecorded
    · have hsettled := (hassumed.truth_ne_none_iff hchecks hshared hknown).2 (.inr hsettles)
      obtain ⟨x, hx, hshows⟩ := hassumed.shows
      exact hsettled ((htruth t).trans (hnone x t hx hshows))
    · have hopen := hx.open_of_branches hchecks heffects hintrinsic fun v a s t hassumed hs => by
        refine Decidable.byContradiction fun hsettled => ?_
        rcases (hassumed.truth_ne_none_iff hchecks hshared hknown).1 hsettled with h | h
        · exact h hs
        · exact hbranch v a s t hassumed h
      exact (htruth s).symm.trans (hs.isOpen hx hchecks heffects hopen)
  · obtain ⟨l, hl, hv, hassume⟩ := hassumed.exists_ledger hchecks
    exact State.indifferent_of_recorded fun q hq =>
      State.recorded_of_unrelated hl hv hassume hsettles hw hq

end

/-! ## A comparison that null has decided -/

/-- To compare a value of its own with a truth value settles neither null nor the object whose code
runs. -/
theorem State.not_settles_comparison {s : State} {u : Value} {id i : Nat} {b : Bool}
    (hu : u ∈ [Value.null, Value.self]) : ¬s.Settles (.equal id (.fresh i) (.bool b)) u := by
  intro h
  have hbool : s.truth (.bool b) ≠ none := by simp [truth_eq, Value.intrinsic]
  rcases (settles_comparison_iff h.isOpen rfl).1 h with rfl | ⟨-, h⟩ | ⟨-, h⟩
  · simp at hu
  · exact hbool h.isOpen
  · rw [(settles_leaf_iff h.isOpen rfl).1 h] at hu
    simp at hu

namespace TrueAndFalse

/-- The first parameter. -/
def p : Symbol := ⟨"p", .parameter⟩

/-- The second parameter. -/
def q : Symbol := ⟨"q", .parameter⟩

/-- The variable. -/
def x : Symbol := ⟨"x", .localVariable⟩

/-- What the nodes name. -/
def semantics : Semantics where
  symbol n :=
    if n.val ∈ [3, 9] then some p else if n.val ∈ [6, 12] then some q
    else if n.val ∈ [2, 15] then some x else none
  typeOf _ := none
  method _ := none
  constant _ := none

/-- If `p` is true and `q` is false and none of them is null, then `x` is dereferenced, which is
null. -/
def blocks : List Block := [
  ⟨0, [⟨⟨1⟩, .literal .null, none⟩, ⟨⟨2⟩, .assign, none⟩, ⟨⟨3⟩, .identifier, none⟩,
    ⟨⟨4⟩, .literal (.bool true), none⟩, ⟨⟨5⟩, .binary .equals, none⟩]⟩,
  ⟨1, [⟨⟨6⟩, .identifier, none⟩, ⟨⟨7⟩, .literal (.bool false), none⟩,
    ⟨⟨8⟩, .binary .equals, none⟩]⟩,
  ⟨2, [⟨⟨9⟩, .identifier, none⟩, ⟨⟨10⟩, .literal .null, none⟩,
    ⟨⟨11⟩, .binary .notEquals, none⟩]⟩,
  ⟨3, [⟨⟨12⟩, .identifier, none⟩, ⟨⟨13⟩, .literal .null, none⟩,
    ⟨⟨14⟩, .binary .notEquals, none⟩]⟩,
  ⟨4, [⟨⟨15⟩, .identifier, none⟩, ⟨⟨16⟩, .memberAccess, none⟩, ⟨⟨17⟩, .pop, none⟩]⟩,
  ⟨5, []⟩]

/-- The edges between the blocks. -/
def edges : List FlowEdge :=
  [⟨0, 1, .whenTrue⟩, ⟨0, 5, .whenFalse⟩, ⟨1, 2, .whenTrue⟩, ⟨1, 5, .whenFalse⟩,
    ⟨2, 3, .whenTrue⟩, ⟨2, 5, .whenFalse⟩, ⟨3, 4, .whenTrue⟩, ⟨3, 5, .whenFalse⟩]

/-- There is no loop. -/
def sample : Sample := ⟨[p, q], semantics, blocks, edges, 1⟩

theorem instructions_eq :
    sample.plan.instructions sample.plan.entry = [⟨⟨1⟩, .literal .null, none⟩,
        ⟨⟨2⟩, .assign, none⟩, ⟨⟨3⟩, .identifier, none⟩, ⟨⟨4⟩, .literal (.bool true), none⟩,
        ⟨⟨5⟩, .binary .equals, none⟩] ∧
      sample.plan.instructions 1 = [⟨⟨6⟩, .identifier, none⟩, ⟨⟨7⟩, .literal (.bool false), none⟩,
        ⟨⟨8⟩, .binary .equals, none⟩] ∧
      sample.plan.instructions 2 = [⟨⟨9⟩, .identifier, none⟩, ⟨⟨10⟩, .literal .null, none⟩,
        ⟨⟨11⟩, .binary .notEquals, none⟩] ∧
      sample.plan.instructions 3 = [⟨⟨12⟩, .identifier, none⟩, ⟨⟨13⟩, .literal .null, none⟩,
        ⟨⟨14⟩, .binary .notEquals, none⟩] := by
  decide +kernel

theorem symbol_eq :
    sample.plan.setting.semantics.symbol ⟨2⟩ = some x ∧
      sample.plan.setting.semantics.symbol ⟨3⟩ = some p ∧
      sample.plan.setting.semantics.symbol ⟨6⟩ = some q ∧
      sample.plan.setting.semantics.symbol ⟨9⟩ = some p ∧
      sample.plan.setting.semantics.symbol ⟨12⟩ = some q := by
  decide +kernel

/-- `q` is false, all else is true. -/
def store (y : Symbol) : Datum := if y = q then .bool false else .bool true

/-- The memory once `x` is null. -/
def memory : Memory := (⟨store, []⟩ : Memory).set x .null

/-- A variable is compared with a literal. -/
theorem executes_comparison {identifier literal comparison : NodeId} {y : Symbol} {c : Constant}
    {op : BinaryOperator} {d r : Datum}
    (hsymbol : sample.plan.setting.semantics.symbol identifier = some y)
    (hliteral : Yields sample.plan.setting (fun _ _ => True) ⟨literal, .literal c, none⟩
      memory.store [] d)
    (hcomparison : Yields sample.plan.setting (fun _ _ => True) ⟨comparison, .binary op, none⟩
      memory.store [d, memory.store y] r) :
    Executes sample.plan.setting (fun _ _ => True) [⟨identifier, .identifier, none⟩,
      ⟨literal, .literal c, none⟩, ⟨comparison, .binary op, none⟩] memory
      ⟨memory.store, [r]⟩ := by
  have hread : ∀ z, sample.plan.setting.semantics.symbol identifier = some z →
      memory.store y = memory.store z := by
    intro z hz
    rw [Option.some.inj (hsymbol.symm.trans hz)]
  exact .cons (.push (Nat.zero_le _) hread) (by simp) (.cons (.push (Nat.zero_le _) hliteral)
    (by simp) (.cons (.push (Nat.le_refl 2) hcomparison) (by simp) .nil))

/-- The execution with these data gets to the block in which `x` is dereferenced. -/
theorem arrives : Arrives sample.plan (fun _ _ => True) 4 memory := by
  obtain ⟨hinstructions₀, hinstructions₁, hinstructions₂, hinstructions₃⟩ := instructions_eq
  obtain ⟨hsymbol₂, hsymbol₃, hsymbol₆, hsymbol₉, hsymbol₁₂⟩ := symbol_eq
  have hone : Arrives sample.plan (fun _ _ => True) 1 memory := by
    refine .leave (e := ⟨0, 1, .whenTrue⟩) (.entry store) ?_ (by decide +kernel)
      (.whenTrue (m := ⟨memory.store, [.bool true]⟩) rfl rfl)
    rw [hinstructions₀]
    exact .cons (.push (Nat.zero_le _) rfl) (by decide) (.cons (.assign rfl rfl hsymbol₂)
      (by decide) (executes_comparison hsymbol₃ rfl ⟨.bool true, .bool true, rfl, trivial, rfl⟩))
  have htwo : Arrives sample.plan (fun _ _ => True) 2 memory := by
    refine .leave (e := ⟨1, 2, .whenTrue⟩) hone ?_ (by decide +kernel)
      (.whenTrue (m := ⟨memory.store, [.bool true]⟩) rfl rfl)
    rw [hinstructions₁]
    exact executes_comparison hsymbol₆ rfl ⟨.bool false, .bool false, rfl, trivial, rfl⟩
  have hthree : Arrives sample.plan (fun _ _ => True) 3 memory := by
    refine .leave (e := ⟨2, 3, .whenTrue⟩) htwo ?_ (by decide +kernel)
      (.whenTrue (m := ⟨memory.store, [.bool true]⟩) rfl rfl)
    rw [hinstructions₂]
    exact executes_comparison hsymbol₉ rfl ⟨.bool true, .null, rfl, trivial, rfl⟩
  refine .leave (e := ⟨3, 4, .whenTrue⟩) hthree ?_ (by decide +kernel)
    (.whenTrue (m := ⟨memory.store, [.bool true]⟩) rfl rfl)
  rw [hinstructions₃]
  exact executes_comparison hsymbol₁₂ rfl ⟨.bool false, .null, rfl, trivial, rfl⟩

/-- Whether a node waits in whose state null counts as false. -/
def hasLeaked (y : Situation) : Bool :=
  y.run.worklist.toList.any fun node => (node.state.recorded .null).truth == some .fails

theorem hasLeaked_after :
    ((Situation.entering sample.plan (.start sample.checks)).after sample.plan 29).any hasLeaked =
      true := by
  decide +kernel

/-- A state in which null counts as false is reached. -/
theorem exists_leaked : ∃ y s, Reached sample.plan sample.checks y ∧ y.Shows sample.plan s ∧
    (s.recorded .null).truth = some .fails := by
  obtain ⟨y, hy, hleaked⟩ := (Option.any_eq_true _ _).1 hasLeaked_after
  obtain ⟨node, hnode, htruth⟩ := List.any_eq_true.1 hleaked
  have hmem : node.state ∈ y.states := List.mem_append_right _ (List.mem_map_of_mem hnode)
  exact ⟨y, node.state, .of_after hy, .inl hmem, eq_of_beq htruth⟩

/-- Whether the first branch is about to be taken, and its condition can hold. -/
def isFirst : Situation → Bool
  | ⟨_, .executing point [] s⟩ =>
    match s.pop.1 with
    | .equal _ (.fresh _) (.bool _) =>
      point.block == 0 && (State.assume s.pop.1 (.truth .holds) s.pop.2).isSome
    | _ => false
  | _ => false

theorem isFirst_after :
    ((Situation.entering sample.plan (.start sample.checks)).after sample.plan 8).any isFirst =
      true := by
  decide +kernel

/-- The first branch settles neither null nor the object whose code runs. -/
theorem exists_firstBranch : ∃ v a s t, Assumed sample.plan sample.checks v a s t ∧
    ∀ u ∈ [Value.null, Value.self], ¬s.Settles v u := by
  obtain ⟨y, hy, hfirst⟩ := (Option.any_eq_true _ _).1 isFirst_after
  unfold isFirst at hfirst
  split at hfirst
  · next run point s =>
    split at hfirst
    · next id i b hcondition =>
      obtain ⟨hblock, hsome⟩ := Bool.and_eq_true_iff.1 hfirst
      obtain ⟨t, ht⟩ := Option.isSome_iff_exists.1 hsome
      have hedges : sample.plan.edgesOut point.block = [⟨0, 1, .whenTrue⟩, ⟨0, 5, .whenFalse⟩] := by
        rw [eq_of_beq hblock]
        decide +kernel
      refine ⟨_, .holds, _, t, .of_edge (e := ⟨0, 1, .whenTrue⟩) (.of_after hy) ht ?_ ?_,
        fun u hu => ?_⟩
      · simp [hedges]
      · rw [hedges]
        rfl
      · rw [hcondition]
        exact State.not_settles_comparison hu
    · cases hfirst
  · cases hfirst

/-- Whether no node waits for the block in which `x` is dereferenced. -/
def avoidsLast (y : Situation) : Bool := y.run.worklist.toList.all (·.point.block != 4)

/-- The last block is avoided in every situation that is reached. -/
theorem avoidsLast_of_reached {y : Situation} (h : Reached sample.plan sample.checks y) :
    avoidsLast y = true := by
  have halways : (Situation.entering sample.plan (.start sample.checks)).always sample.plan
      avoidsLast 100 = true := by
    decide +kernel
  exact Reached.of_always halways h

end TrueAndFalse

open TrueAndFalse in
/-- That null is null is recorded nowhere in the run of the sample. It leaks, so one of its branches
settles whether null is true; the first one does not, and makes no difference to conditions that
have only shared values in common with its own. -/
theorem facts_leak_iff_settled_trueAndFalse :
    (∀ y s, Reached sample.plan sample.checks y → y.Shows sample.plan s →
        (s.recorded .null).nullability = none) ∧
      (∃ v a s t, Assumed sample.plan sample.checks v a s t ∧ s.Settles v .null) ∧
      ∃ v a s t, Assumed sample.plan sample.checks v a s t ∧
        ∀ w, State.Unrelated v w → State.Indifferent w s t := by
  have heffects : sample.plan.setting.effects = .standard := by
    rw [Sample.setting_plan]
    rfl
  have hchecks : ∀ c ∈ sample.checks, c.Standard := fun c hc => Registry.standard_enabled hc
  obtain ⟨hshared, hunrelated⟩ := facts_leak_iff_settled heffects hchecks
  obtain ⟨hnullability, htruth⟩ := hshared .null (by simp)
  obtain ⟨v, a, s, t, hfirst, hsettles⟩ := exists_firstBranch
  refine ⟨hnullability, ?_, v, a, s, t, hfirst, hunrelated v a s t hfirst hsettles⟩
  obtain ⟨y, s, hy, hs, hleaked⟩ := exists_leaked
  refine Classical.byContradiction fun hnone => ?_
  have hopen := htruth.2 (fun v a s t hassumed hsettles => hnone ⟨v, a, s, t, hassumed, hsettles⟩)
    y s hy hs
  simp [hleaked] at hopen

open TrueAndFalse in
/-- That the one parameter differs from null makes null count as false, so that the other one, which
is false, cannot differ from null any more. The exploration completes without the block behind the
second comparison, although an execution gets there. -/
theorem facts_leak_through_null :
    ((Run.start sample.checks).explore sample.plan).1 = .completed ∧
      (∃ y s, Reached sample.plan sample.checks y ∧ y.Shows sample.plan s ∧
        (s.recorded .null).truth = some .fails) ∧
      Arrives sample.plan (fun _ _ => True) 4 memory ∧
      ∀ node, Met sample.plan sample.checks node → node.point.block ≠ 4 := by
  refine ⟨by decide +kernel, exists_leaked, arrives, ?_⟩
  rintro node ⟨y, hy, hnode⟩
  have havoids := List.all_eq_true.1 (avoidsLast_of_reached hy) node hnode
  simpa using havoids

end Pathwise
