import Pathwise.Proofs.Causes
import Pathwise.Proofs.Sample
import Pathwise.Proofs.Shapes
import Pathwise.Proofs.Whereabouts

/-!
# Operands and results

An instruction takes as many values from the stack as its operation says, or all there are, and
leaves at most one on top. What lies below stays, and only the variable that its node names can get
another value. So the condition on which a block branches is the value that its last instruction has
pushed. What a check sees as arguments and receiver before an instruction is what the instruction
then takes.
-/

namespace Pathwise

/-! ## Taking values -/

namespace State

/-- The top values of the stack in order, and the unknown value for each that is missing. -/
theorem map_peek_range (s : State) (n : Nat) :
    (List.range n).map s.peek =
      s.stack.take n ++ List.replicate (n - s.stack.length) .unknown := by
  refine List.ext_getElem? fun k => ?_
  rw [List.getElem?_map, List.getElem?_append, List.getElem?_take, List.length_take,
    List.getElem?_replicate]
  by_cases hk : k < n
  · rw [List.getElem?_range hk, Option.map_some, peek, List.getD_eq_getElem?_getD]
    by_cases hstack : k < s.stack.length
    · simp [hk, hstack]
    · rw [if_neg (by omega), if_pos (by omega), List.getElem?_eq_none (by omega)]
      rfl
  · rw [List.getElem?_eq_none (by simpa using hk), if_neg (by omega), if_neg (by omega)]
    rfl

/-- Taking values takes those on top, at most as many as there are, and nothing else changes. They
are given in the order in which they were pushed, after the unknown value for each that is
missing. -/
theorem popMany_spec (s : State) (n : Nat) :
    ∃ taken, taken.length = min n s.stack.length ∧ s.stack = taken ++ (s.popMany n).2.stack ∧
      (s.popMany n).1 = List.replicate (n - s.stack.length) .unknown ++ taken.reverse ∧
      (s.popMany n).2.bindings = s.bindings ∧ (s.popMany n).2.facts = s.facts := by
  rw [popMany_eq, map_peek_range, List.reverse_append, List.reverse_replicate]
  exact ⟨s.stack.take n, List.length_take, (List.take_append_drop n s.stack).symm, rfl, rfl, rfl⟩

end State

/-! ## What an instruction leaves -/

/-- What an instruction may do to the stack and to the variables. -/
structure StackContract (semantics : Semantics) (i : Instruction) (s s' : State) : Prop where
  /-- The operands are taken, as far as there are any, and at most one value is pushed. -/
  depth : s'.stack.length =
    (s.stack.length - i.operation.operandCount) + if i.operation.pushesValue then 1 else 0
  /-- What lies below the operands stays. -/
  below : s'.stack.drop (if i.operation.pushesValue then 1 else 0) =
    s.stack.drop i.operation.operandCount
  /-- Only the variable that the node names can get another value. -/
  others : ∀ y, semantics.symbol i.node ≠ some y → s'.lookup y = s.lookup y
  /-- No variable loses its value. -/
  bound : ∀ y, (s.lookup y).isSome = true → (s'.lookup y).isSome = true

namespace Setting

variable (x : Setting) (i : Instruction) (supply : Supply) (s : State)

/-- An instruction leaves the value that it pushes on top of what lies below its operands. -/
theorem stack_execute : (x.execute i supply s).1.stack =
    (x.outline i supply s).pushed.toList ++ s.stack.drop i.operation.operandCount := by
  rw [execute_eq]
  exact Outline.stack_apply _ _

theorem length_pushed : (x.outline i supply s).pushed.toList.length =
    if i.operation.pushesValue then 1 else 0 := by
  rw [← x.outline_pushed supply s i]
  cases (x.outline i supply s).pushed <;> rfl

/-- An instruction leaves the variables as they are, apart from the one that it binds. -/
theorem lookup_execute (y : Symbol) : (x.execute i supply s).1.lookup y = s.lookup y ∨
    x.semantics.symbol i.node = some y ∧ ((x.execute i supply s).1.lookup y).isSome = true := by
  rw [execute_eq]
  dsimp only
  rw [Outline.lookup_apply]
  cases hrebinds : (x.outline i supply s).rebinds with
  | none => exact .inl rfl
  | some r =>
    obtain ⟨z, v⟩ := r
    dsimp only
    split
    · next hy =>
      subst hy
      exact .inr ⟨(x.outline_rebinds supply s hrebinds).1, rfl⟩
    · exact .inl rfl

/-- Every instruction keeps to its contract in every state. -/
theorem execute_keeps : StackContract x.semantics i s (x.execute i supply s).1 where
  depth := by
    rw [stack_execute, List.length_append, length_pushed, List.length_drop, Nat.add_comm]
  below := by rw [stack_execute, ← x.length_pushed i supply s, List.drop_left]
  others := by
    intro y hy
    rcases x.lookup_execute i supply s y with hsame | ⟨hsymbol, -⟩
    · exact hsame
    · exact absurd hsymbol hy
  bound := by
    intro y hy
    rcases x.lookup_execute i supply s y with hsame | ⟨-, hsome⟩
    · rwa [hsame]
    · exact hsome

end Setting

namespace Run

variable {plan : Plan} {run run' : Run} {point : Point} {i : Instruction} {s s' : State}

/-- The checks of this library leave the stack and the variables as the instruction does. -/
theorem stack_lookup_step (hrun : run.Standard)
    (hstep : run.step plan point i s = (some s', run')) :
    s'.stack = (plan.setting.execute i run.supply s).1.stack ∧
      ∀ y, s'.lookup y = (plan.setting.execute i run.supply s).1.lookup y := by
  rcases step_cases plan point i hrun s with ⟨σ, j, heq, -⟩ | ⟨s₁, s'', j, heq, hs₁, hs'⟩
  · cases hstep.symm.trans heq
  · obtain ⟨hsome, -⟩ := Prod.mk.inj (hstep.symm.trans heq)
    obtain rfl := Option.some.inj hsome
    rw [Setting.execute_eq]
    dsimp only
    refine ⟨?_, fun y => ?_⟩
    · rw [hs'.stack, Outline.stack_apply, Outline.stack_apply, hs₁.stack]
    · rw [hs'.lookup, Outline.lookup_apply, Outline.lookup_apply]
      cases (plan.setting.outline i run.supply s).rebinds with
      | none => exact hs₁.lookup y
      | some r =>
        dsimp only
        split
        · rfl
        · exact hs₁.lookup y

/-- A step with the checks of this library keeps to the contract of its instruction. -/
theorem step_keeps (hrun : run.Standard) (hstep : run.step plan point i s = (some s', run')) :
    StackContract plan.setting.semantics i s s' := by
  obtain ⟨hstack, hlookup⟩ := stack_lookup_step hrun hstep
  obtain ⟨hdepth, hbelow, hothers, hbound⟩ := plan.setting.execute_keeps i run.supply s
  constructor
  · rw [hstack, hdepth]
  · rw [hstack, hbelow]
  · intro y hy
    rw [hlookup, hothers y hy]
  · intro y hy
    rw [hlookup, hbound y hy]

end Run

/-! ## Conditions -/

/-- The checks of an exploration stay those of this library. -/
theorem Reached.standard {plan : Plan} {checks : List Check} {x : Situation}
    (hchecks : ∀ c ∈ checks, c.Standard) (hx : Reached plan checks x) : x.run.Standard := by
  obtain ⟨l, hcoherent⟩ := hx.coherent hchecks
  exact hcoherent.standard

/-- At the end of a block that has instructions its last instruction has just been executed. -/
theorem Reached.exists_lastStep {plan : Plan} {checks : List Check} {run : Run} {point : Point}
    {s : State} (hx : Reached plan checks ⟨run, .executing point [] s⟩)
    (hne : plan.instructions point.block ≠ []) :
    ∃ run₀ offset i s₀, Reached plan checks ⟨run₀, .executing { point with offset } [i] s₀⟩ ∧
      (plan.instructions point.block).getLast? = some i ∧
      (run₀.count .countStep).step plan { point with offset } i s₀ = (some s, run) := by
  generalize hy : Situation.mk run (.executing point [] s) = y at hx
  cases hx with
  | refl => cases hy
  | @tail z _ hz hmove =>
    cases hmove with
    | take _ hpop =>
      -- a node is taken at the beginning of its block
      obtain ⟨run', block, s', rfl⟩ :=
        Reached.exists_arriving hz (Queue.toList_of_pop? hpop ▸ List.mem_cons_self)
      injection hy with _ hstage
      injection hstage with hpoint hrest _
      exact absurd (hpoint ▸ hrest.symm) hne
    | @proceed run₀ _ point₀ i rest s₀ s' _ hstep _ =>
      injection hy with hrun hstage
      injection hstage with hpoint hrest hs
      subst hrun hpoint hrest hs
      have hz : Reached plan checks ⟨run₀, .executing point₀ [i] s₀⟩ := hz
      obtain ⟨-, done, hdone⟩ := hz.placed.stage
      refine ⟨run₀, point₀.offset, i, s₀, hz, ?_, hstep⟩
      rw [hdone, List.getLast?_append, List.getLast?_singleton]
      rfl
    | _ => cases hy

/-- Whatever state it starts from and however little there is on the stack, an instruction that does
not end the path keeps to its contract, with any of the checks of this library around it. At the end
of a block that branches, its last instruction has just been executed, and the condition that is
taken from the stack is the value that this instruction has pushed. -/
theorem stack_contract {p : Procedure} {x : Setting} {settings : Settings} {polls : Option Polls}
    {plan : Plan} {checks : List Check} (hplan : Plan.prepare p x settings polls = .ok plan)
    (hbuilt : p.flow.Built) (hchecks : ∀ c ∈ checks, c.Standard) :
    (∀ (plan : Plan) (run : Run) (point : Point) (i : Instruction) (s s' : State) (run' : Run),
      run.Standard → run.step plan point i s = (some s', run') →
        StackContract plan.setting.semantics i s s') ∧
      ∀ (run : Run) (point : Point) (s : State) (e : FlowEdge),
        Reached plan checks ⟨run, .executing point [] s⟩ → e ∈ plan.edgesOut point.block →
        e.label.isBranch = true →
          ∃ run₀ offset i s₀ v,
            Reached plan checks ⟨run₀, .executing { point with offset } [i] s₀⟩ ∧
            (plan.instructions point.block).getLast? = some i ∧
            (run₀.count .countStep).step plan { point with offset } i s₀ = (some s, run) ∧
            (plan.setting.execute i run₀.supply s₀).1.stack =
              v :: s₀.stack.drop i.operation.operandCount ∧
            s.stack = v :: s₀.stack.drop i.operation.operandCount ∧
            s.pop = (v, { s with stack := s₀.stack.drop i.operation.operandCount }) := by
  refine ⟨fun plan run point i s s' run' => Run.step_keeps, fun run point s e hx he hbranch => ?_⟩
  obtain ⟨done, last, hinstructions, hpushes⟩ :=
    (Plan.prepared hplan).exists_last hbuilt he hbranch
  obtain ⟨run₀, offset, i, s₀, hx₀, hlast, hstep⟩ :=
    hx.exists_lastStep (by rw [hinstructions]; simp)
  obtain rfl : last = i := by simpa [hinstructions] using hlast
  have hstandard : (run₀.count .countStep).Standard := hx₀.standard hchecks
  have hsome := plan.setting.outline_pushed run₀.supply s₀ last
  rw [hpushes] at hsome
  obtain ⟨v, hv⟩ := Option.isSome_iff_exists.1 hsome
  have hexecuted : (plan.setting.execute last run₀.supply s₀).1.stack =
      v :: s₀.stack.drop last.operation.operandCount := by
    rw [Setting.stack_execute, hv]
    rfl
  have hstack : s.stack = v :: s₀.stack.drop last.operation.operandCount :=
    (Run.stack_lookup_step hstandard hstep).1.trans hexecuted
  refine ⟨run₀, offset, last, s₀, v, hx₀, hlast, hstep, hexecuted, hstack, ?_⟩
  rw [State.pop, hstack]

namespace LoneOperand

/-- A block that compares null with nothing, and branches on the result. -/
def blocks : List Block := [
  ⟨0, [⟨⟨1⟩, .literal .null, none⟩, ⟨⟨2⟩, .binary .equals, none⟩]⟩, ⟨1, []⟩, ⟨2, []⟩]

/-- The program. -/
def sample : Sample :=
  ⟨[], Annotations.empty.semantics, blocks, [⟨0, 1, .whenTrue⟩, ⟨0, 2, .whenFalse⟩], 1⟩

/-- Null is about to be compared with nothing. -/
def comparesNothing (y : Situation) : Bool :=
  match y.stage with
  | .executing point [i] s =>
    i.operation = .binary .equals ∧ s.stack.length = 1 ∧
      ((y.run.count .countStep).step sample.plan point i s).1.isSome = true
  | _ => false

/-- The first block has been executed. -/
def atEnd : Situation → Bool
  | ⟨_, .executing ⟨0, 2, _⟩ [] _⟩ => true
  | _ => false

end LoneOperand

open LoneOperand in
/-- A comparison lacks an operand and keeps to its contract, and the condition on which the block
branches is the value that the comparison has pushed. -/
theorem stack_contract_loneOperand :
    (∃ i s s', s.stack.length < i.operation.operandCount ∧ s'.stack.length = 1 ∧
      StackContract sample.plan.setting.semantics i s s') ∧
      ∃ run point s v, Reached sample.plan sample.checks ⟨run, .executing point [] s⟩ ∧
        s.stack = v :: s.pop.2.stack := by
  have hprepared : (Plan.prepare sample.procedure sample.setting sample.settings
      none).toOption.isSome = true := by decide +kernel
  have hchecks : ∀ c ∈ sample.checks, c.Standard := fun c hc => Registry.standard_enabled hc
  obtain ⟨hsteps, hends⟩ := stack_contract (Sample.prepare_eq hprepared) sample.built hchecks
  constructor
  · have hcompares : ((Situation.entering sample.plan (.start sample.checks)).after
        sample.plan 4).any comparesNothing = true := by decide +kernel
    obtain ⟨y, hy, hat⟩ := (Option.any_eq_true _ _).1 hcompares
    unfold comparesNothing at hat
    split at hat
    · next point i s hstage =>
      obtain ⟨hequals, hlength, hsome⟩ := of_decide_eq_true hat
      obtain ⟨s', hs'⟩ := Option.isSome_iff_exists.1 hsome
      have hstandard : (y.run.count .countStep).Standard :=
        Reached.standard hchecks (.of_after hy)
      have hcontract := hsteps _ _ _ _ _ _ _ hstandard (Prod.ext hs' rfl)
      refine ⟨i, s, s', by simp [hequals, hlength, Operation.operandCount], ?_, hcontract⟩
      rw [hcontract.depth, hequals, hlength]
      rfl
    · cases hat
  · have hend : ((Situation.entering sample.plan (.start sample.checks)).after
        sample.plan 5).any atEnd = true := by decide +kernel
    obtain ⟨y, hy, hat⟩ := (Option.any_eq_true _ _).1 hend
    unfold atEnd at hat
    split at hat
    · next run visits s =>
      obtain ⟨e, he, hbranch⟩ : ∃ e ∈ sample.plan.edgesOut 0, e.label.isBranch = true :=
        List.any_eq_true.1 (by decide +kernel)
      obtain ⟨run₀, offset, i, s₀, v, -, -, -, -, hstack, hpop⟩ :=
        hends run ⟨0, 2, visits⟩ s e (.of_after hy) he hbranch
      exact ⟨run, _, s, v, .of_after hy, by rw [hpop, hstack]⟩
    · cases hat

/-! ## What checks see -/

/-- What an instruction takes from a state. -/
structure Intake where
  /-- The arguments or the lengths. -/
  arguments : List Value
  /-- The object of which a method is called or a member accessed. -/
  object : Option Value
  /-- The state without them. -/
  left : State

/-- Takes the arguments or lengths of an operation, and then the object under them. -/
def Operation.intake (s : State) : Operation → Intake
  | .objectCreation arguments =>
    let (values, s) := s.popMany arguments.length
    ⟨values, none, s⟩
  | .arrayCreation dimensions =>
    let (values, s) := s.popMany dimensions.length
    ⟨values, none, s⟩
  | .invocation arguments false =>
    let (values, s) := s.popMany arguments.length
    ⟨values, none, s⟩
  | .invocation arguments true =>
    let (values, s) := s.popMany arguments.length
    let (object, s) := s.pop
    ⟨values, some object, s⟩
  | .memberAccess =>
    let (object, s) := s.pop
    ⟨[], some object, s⟩
  | _ => ⟨[], none, s⟩

/-- What an instruction does with what it has taken. One that takes neither arguments nor an object
is executed as it is. -/
def Setting.complete (x : Setting) (i : Instruction) (supply : Supply) (t : Intake) :
    State × Supply :=
  match i.operation with
  | .objectCreation _ =>
    let (result, supply) := supply.fresh
    let s := x.call i.node ⟨none, t.arguments, result⟩ t.left
    ((s.overwrite result (.nullability .notNull)).push result, supply)
  | .arrayCreation _ => pushNotNull supply t.left
  | .invocation _ _ =>
    let (result, supply) := supply.fresh
    ((x.call i.node ⟨t.object, t.arguments, result⟩ t.left).push result, supply)
  | .memberAccess =>
    if t.object.any (·.isSelf) && x.namesField i.node then x.read i.node supply t.left
    else pushFresh supply t.left
  | _ => x.execute i supply t.left

/-- Executing an instruction is taking what it needs and going on with that. -/
theorem Setting.execute_eq_complete (x : Setting) (i : Instruction) (supply : Supply) (s : State) :
    x.execute i supply s = x.complete i supply (i.operation.intake s) := by
  obtain ⟨node, operation, span⟩ := i
  cases operation with
  | invocation arguments hasReceiver => cases hasReceiver <;> rfl
  | _ => rfl

namespace Site

variable (site : Site) (s : State)

/-- There are as many arguments as nodes for them. -/
theorem argument_eq_none_iff (k : Nat) :
    site.argument s k = none ↔ site.argumentNodes.length ≤ k := by
  simp [argument]

/-- The arguments that a check sees are those that the instruction takes. -/
theorem argument_eq_intake (k : Nat) :
    site.argument s k = (site.instruction.operation.intake s).arguments[k]? := by
  have hoperands : ∀ n, (if k < n then some (s.peek (n - 1 - k)) else none) =
      (s.popMany n).1[k]? := by
    intro n
    rw [State.popMany_eq]
    exact (s.getElem?_operands n k).symm
  unfold argument argumentNodes
  cases site.instruction.operation with
  | objectCreation | arrayCreation => exact hoperands _
  | invocation arguments hasReceiver => cases hasReceiver <;> exact hoperands _
  | _ => simp [Operation.intake]

/-- The receiver that a check sees is the object that the instruction takes. -/
theorem receiver_eq_intake :
    site.receiver s = (site.instruction.operation.intake s).object := by
  unfold receiver
  cases site.instruction.operation with
  | invocation arguments hasReceiver =>
    cases hasReceiver with
    | false => rfl
    | true =>
      simp [Operation.intake, State.popMany_eq, State.pop_eq, State.peek,
        List.getD_eq_getElem?_getD]
  | memberAccess => simp [Operation.intake, State.pop_eq]
  | _ => rfl

end Site

/-- What a check sees before an instruction is what the instruction takes, however little there is
on the stack: argument by argument and the receiver. Taking arguments takes the top of the stack, as
far as it goes, and changes nothing else. -/
theorem checks_see_operands (x : Setting) (site : Site) (supply : Supply) (s : State) :
    x.execute site.instruction supply s =
        x.complete site.instruction supply (site.instruction.operation.intake s) ∧
      (∀ k, site.argument s k = (site.instruction.operation.intake s).arguments[k]?) ∧
      (∀ k, site.argument s k = none ↔ site.argumentNodes.length ≤ k) ∧
      site.receiver s = (site.instruction.operation.intake s).object ∧
      ∀ n, ∃ taken, taken.length = min n s.stack.length ∧
        s.stack = taken ++ (s.popMany n).2.stack ∧
        (s.popMany n).1 = List.replicate (n - s.stack.length) .unknown ++ taken.reverse ∧
        (s.popMany n).2.bindings = s.bindings ∧ (s.popMany n).2.facts = s.facts :=
  ⟨x.execute_eq_complete site.instruction supply s, site.argument_eq_intake s,
    site.argument_eq_none_iff s, site.receiver_eq_intake s, s.popMany_spec⟩

end Pathwise
