import Pathwise.Proofs.Causes
import Pathwise.Proofs.Observer

/-!
# No report without a cause

The trail of an exploration remembers what has been done on the way to each of its states: the
instructions executed in the blocks of the chain of nodes that led there. Along every trail a value
is suspect for a cause: an earlier deed made it so, and none since has cleared it. So weak salts are
reported behind the creation of the array, and repeated disposals behind an earlier disposal of the
object, on the same path.
-/

namespace Pathwise

/-! ## Trails -/

/-- What has been done on the way to the states of a situation. -/
structure Trail where
  /-- The deeds on the way to the states of the stage, the first one first. -/
  current : List Deed
  /-- The deeds on the way to each node of the worklist. -/
  waiting : List (List Deed)

/-- The trail after the next move. The node that is taken brings its deeds along; an instruction
that is executed is one more; the node that goes to the worklist comes by what has been done so far.
-/
def Trail.advance (plan : Plan) (x : Situation) (t : Trail) : Trail :=
  match x.stage with
  | .idle => ⟨t.waiting.headD [], t.waiting.tail⟩
  | .executing point (i :: _) s =>
    match ((x.run.count .countStep).step plan point i s).1 with
    | some s' => { t with current := t.current ++ [⟨i, s, s'⟩] }
    | none => t
  | .leaving (.into block s :: _) =>
    if x.run.hasVisited block (x.run.arriving plan block s).state.fingerprint then t
    else { t with waiting := t.waiting ++ [t.current] }
  | _ => t

/-- An exploration reaches a situation along a trail. -/
inductive Trailed (plan : Plan) (checks : List Check) : Situation → Trail → Prop where
  /-- Nothing has been done on entry. -/
  | enter : Trailed plan checks (.entering plan (.start checks)) ⟨[], []⟩
  /-- The trail follows every move. -/
  | move {x y : Situation} {t : Trail} (hx : Trailed plan checks x t) (hmove : Move plan x y) :
    Trailed plan checks y (t.advance plan x)

variable {plan : Plan} {checks : List Check} {x y : Situation} {t : Trail}

theorem Trailed.reached (h : Trailed plan checks x t) : Reached plan checks x := by
  induction h with
  | enter => exact .refl
  | move _ hmove ih => exact ih.move hmove

/-- Whatever is reached is reached along a trail. -/
theorem Reached.exists_trailed (h : Reached plan checks x) : ∃ t, Trailed plan checks x t := by
  induction h with
  | refl => exact ⟨_, .enter⟩
  | tail _ hmove ih =>
    obtain ⟨t, ht⟩ := ih
    exact ⟨_, ht.move hmove⟩

/-! ## Justified states -/

variable {semantics : Semantics} {history : List Deed} {d : Deed} {v : Value} {c : Constraint}
  {s s' : State}

/-- A suspicion has a cause: a deed made the value suspect, and none since has cleared it. -/
def Caused (semantics : Semantics) (history : List Deed) (v : Value) (c : Constraint) : Prop :=
  ∃ earlier d later, history = earlier ++ d :: later ∧ d.Brings semantics v c ∧
    ∀ e ∈ later, ¬e.Clears semantics v c

/-- What an instruction brings is caused. -/
theorem Caused.of_brings (h : d.Brings semantics v c) : Caused semantics (history ++ [d]) v c :=
  ⟨history, d, [], rfl, h, fun _ he => nomatch he⟩

/-- What is caused stays so, unless an instruction clears it. -/
theorem Caused.append (h : Caused semantics history v c) (hd : ¬d.Clears semantics v c) :
    Caused semantics (history ++ [d]) v c := by
  obtain ⟨earlier, e, later, rfl, hbrings, hlater⟩ := h
  refine ⟨earlier, e, later ++ [d], by simp, hbrings, fun e' he' => ?_⟩
  rcases List.mem_append.1 he' with he' | he'
  · exact hlater e' he'
  · exact List.mem_singleton.1 he' ▸ hd

/-- All suspicions in a state have a cause. -/
def State.Justified (semantics : Semantics) (history : List Deed) (s : State) : Prop :=
  ∀ v c, c.isSuspect = true → s.holds v c = true → Caused semantics history v c

namespace State.Justified

/-- Without new suspicions a state stays justified. -/
theorem of_holds (h : s.Justified semantics history)
    (hless : ∀ v c, c.isSuspect = true → s'.holds v c = true → s.holds v c = true) :
    s'.Justified semantics history :=
  fun v c hc hheld => h v c hc (hless v c hc hheld)

theorem of_facts_empty (h : s.facts = .empty) : s.Justified semantics history := by
  intro v c hc hheld
  simp [holds, constraint, v.intrinsic_of_isSuspect hc, recorded, h] at hheld

theorem departing (h : s.Justified semantics history) (plan : Plan) (index : Nat) :
    ∀ t ∈ (Stage.leaving (plan.departures index s)).states, t.Justified semantics history :=
  Plan.departures_induction (fun _ => h) fun _ _ hassume =>
    of_holds (s := { s with stack := s.stack.drop 1 }) h fun _ _ hc hheld =>
      holds_of_assume_truth hc hassume hheld

theorem raising (h : s.Justified semantics history) (plan : Plan) (index : Nat) :
    ∀ t ∈ (Stage.leaving (plan.handlers index s)).states, t.Justified semantics history :=
  Plan.handlers_induction h

theorem arriving (h : s.Justified semantics history) (plan : Plan) (run : Run) (block : Nat) :
    (run.arriving plan block s).state.Justified semantics history :=
  h.of_holds fun _ _ hc hheld => Run.holds_of_arriving plan run block hc hheld

/-- A step is one more deed. -/
theorem step {run run' : Run} {point : Point} {i : Instruction} {l : List Value}
    (h : s.Justified plan.setting.semantics history)
    (heffects : plan.setting.effects = .standard) (hrun : run.Standard) (hl : Ledger l)
    (ht : run.supply.Tracks l) (hs : s.DrawnFrom l)
    (hstep : run.step plan point i s = (some s', run')) :
    s'.Justified plan.setting.semantics (history ++ [⟨i, s, s'⟩]) := by
  obtain ⟨σ, j, new, -, hissues, hnext⟩ := Run.step_issues hrun hstep
  have hs' : s'.DrawnFrom (l ++ new) := (hnext s' rfl).2 l hl (hissues.ledger hl ht hs).1 hs
  intro v c hc hheld
  rcases Run.step_brings heffects hrun hc (hs'.known_of_holds hc hheld) hstep hheld with
    hbrings | ⟨hheld, hclears⟩
  · exact .of_brings hbrings
  · exact (h v c hc hheld).append hclears

end State.Justified

/-- The states of a situation are justified by its trail. -/
structure Trail.Justifies (plan : Plan) (x : Situation) (t : Trail) : Prop where
  /-- The states of the stage are justified by what has been done. -/
  stage : ∀ s ∈ x.stage.states, s.Justified plan.setting.semantics t.current
  /-- Each node is justified by what was done on the way to it. -/
  worklist : List.Forall₂ (fun node history => node.state.Justified plan.setting.semantics history)
    x.run.worklist.toList t.waiting

/-- Every move keeps the states of a situation justified. -/
theorem Trail.Justifies.move {l : List Value} (h : t.Justifies plan x)
    (heffects : plan.setting.effects = .standard) (hdrawn : x.Drawn l) (hmove : Move plan x y) :
    (t.advance plan x).Justifies plan y := by
  obtain ⟨current, waiting⟩ := t
  have hstepping : ∀ {point : Point} {i : Instruction} {rest : List Instruction} {s s' : State}
      {run' : Run}, x.stage = .executing point (i :: rest) s →
      (x.run.count .countStep).step plan point i s = (some s', run') →
      s'.Justified plan.setting.semantics (current ++ [⟨i, s, s'⟩]) ∧
        run'.worklist = x.run.worklist := by
    intro point i rest s s' run' hstage hstep
    have hs : s ∈ x.stage.states := hstage ▸ List.mem_cons_self
    have hrun : (x.run.count .countStep).Standard := hdrawn.standard
    exact ⟨(h.stage s hs).step heffects hrun hdrawn.ledger hdrawn.tracks (hdrawn.stage s hs) hstep,
      (Run.step_fields hstep).1⟩
  cases hmove with
  | @take run node rest _ hpop =>
    -- the node and its deeds stand first in their lists
    have hwaiting := h.worklist
    rw [Queue.toList_of_pop? hpop] at hwaiting
    cases hwaiting with
    | cons hnode hrest => exact ⟨List.forall_mem_singleton.2 hnode, hrest⟩
  | finish => exact ⟨(h.stage _ List.mem_cons_self).departing plan _, h.worklist⟩
  | prune _ hstep =>
    simp only [advance, hstep]
    refine ⟨by simp [Stage.states], ?_⟩
    have hlist := (Run.step_fields hstep).1
    simp only [Run.count, hlist]
    exact h.worklist
  | raise _ hstep _ =>
    obtain ⟨hs', hlist⟩ := hstepping rfl hstep
    simp only [advance, hstep]
    exact ⟨hs'.raising plan _, hlist ▸ h.worklist⟩
  | proceed _ hstep _ =>
    obtain ⟨hs', hlist⟩ := hstepping rfl hstep
    simp only [advance, hstep]
    exact ⟨List.forall_mem_singleton.2 hs', hlist ▸ h.worklist⟩
  | @depart run d rest =>
    have hrest : ∀ s ∈ (Stage.leaving rest).states,
        s.Justified plan.setting.semantics current :=
      fun s hs => h.stage s (List.mem_append_right _ hs)
    cases d with
    | blocked => exact ⟨hrest, h.worklist⟩
    | into block s =>
      have hs := h.stage s (List.mem_append_left _ List.mem_cons_self)
      simp only [advance, Run.depart]
      rcases Run.enter_cases plan run block s with ⟨hvisited, hlist, -⟩ | ⟨hvisited, hlist, -⟩
      · simp only [hvisited, if_true]
        exact ⟨hrest, hlist ▸ h.worklist⟩
      · simp only [hvisited, Bool.false_eq_true, if_false]
        refine ⟨hrest, ?_⟩
        rw [hlist]
        exact List.rel_append h.worklist (.cons (hs.arriving plan run block) .nil)
  | settle => exact ⟨by simp [Stage.states], h.worklist⟩

/-- Along every trail suspicions have a cause. -/
theorem Trailed.justifies (hchecks : ∀ c ∈ checks, c.Standard)
    (heffects : plan.setting.effects = .standard) (h : Trailed plan checks x t) :
    t.Justifies plan x := by
  induction h with
  | enter =>
    obtain ⟨-, hfacts⟩ := Run.bindParameters_bare plan.procedure.parameters
    refine ⟨fun s hs => ?_, .nil⟩
    obtain rfl : s = (Run.bindParameters plan.procedure.parameters .start).1 := by
      simpa [Situation.entering, Stage.states, Departure.states, Run.start] using hs
    exact .of_facts_empty hfacts
  | move hx hmove ih =>
    obtain ⟨l, hdrawn, -⟩ := hx.reached.coherent hchecks
    exact ih.move heffects hdrawn hmove

/-! ## Reports -/

/-- A report has the diagnostics it had and the new one. -/
theorem Report.mem_add {r : Report} {d e : Diagnostic} (h : d ∈ (r.add e).diagnostics) :
    d ∈ r.diagnostics ∨ d = e := by
  unfold add at h
  split at h
  · exact .inl h
  · simpa using h

/-- What a check reports before an instruction, and why. -/
theorem Check.Standard.reports {check : Check} (hcheck : check.Standard) {moment : Moment}
    {site : Site} {j : Journal} {d : Diagnostic} (hnew : d ∉ j.report.diagnostics)
    (hd : d ∈ (check.hook moment site s j).2.report.diagnostics) :
    moment = .before ∧ (∃ message, d = site.diagnostic message) ∧
      (check = Rule.nullDereference ∨
        (check = Rule.weakSalt ∧ ∃ salt c, Rule.takesSalt site = true ∧
          site.argument s Rule.saltArgument = some salt ∧
          (c = .saltSize .short ∨ c = .byteArray .constant) ∧ s.holds salt c = true) ∨
        (check = Rule.repeatedDispose ∧ ∃ object, Rule.callsDispose site = true ∧
          site.receiver s = some object ∧ s.holds object (.disposal .disposed) = true)) := by
  have hsame : ∀ {verdict : Verdict}, check.hook moment site s j ≠ (verdict, j) := by
    intro verdict heq
    rw [heq] at hd
    exact hnew hd
  have hadded : ∀ {verdict : Verdict} {message : String},
      check.hook moment site s j = (verdict, j.add (site.diagnostic message)) →
        ∃ message, d = site.diagnostic message := by
    intro verdict message heq
    rw [heq] at hd
    exact ⟨message, (Report.mem_add hd).resolve_left hnew⟩
  cases moment with
  | after =>
    cases hcheck with
    | nullDereference | repeatedDispose => exact absurd rfl hsame
    | weakSalt =>
      rcases Rule.afterCreation_eq site s j with heq | ⟨_, -, -, heq⟩ <;> exact absurd heq hsame
  | before =>
    refine ⟨rfl, ?_⟩
    cases hcheck with
    | nullDereference =>
      rcases Rule.beforeDereference_eq site s j with heq | ⟨_, -, ⟨-, _, heq⟩ | ⟨-, heq⟩⟩
      · exact absurd heq hsame
      · exact ⟨hadded heq, .inl rfl⟩
      · exact absurd heq hsame
    | repeatedDispose =>
      rcases Rule.beforeDispose_eq site s j with
        heq | ⟨object, hcalls, hobject, ⟨hheld, _, heq⟩ | heq⟩
      · exact absurd heq hsame
      · exact ⟨hadded heq, .inr (.inr ⟨rfl, object, hcalls, hobject, hheld⟩)⟩
      · exact absurd heq hsame
    | weakSalt =>
      rcases Rule.beforeDerivation_eq site s j with
        heq | ⟨salt, c, htakes, hsalt, hc, hheld, _, heq⟩
      · exact absurd heq hsame
      · exact ⟨hadded heq, .inr (.inl ⟨rfl, salt, c, htakes, hsalt, hc, hheld⟩)⟩

/-- A diagnostic about an instruction follows from what has been done before. A weak salt has been
made as an array and not been filled since, and what is disposed again has been disposed before. -/
structure Diagnostic.Follows (semantics : Semantics) (history : List Deed) (i : Instruction)
    (s : State) (d : Diagnostic) : Prop where
  /-- It is about the instruction. -/
  node : d.node = i.node
  /-- The salt, which is the second argument of a call, is predictable or short for a cause. -/
  salt : d.rule = Rule.weakSaltId → ∃ salt c, (i.arguments s)[1]? = some salt ∧
    (c = .saltSize .short ∨ c = .byteArray .constant) ∧ Caused semantics history salt c
  /-- The object, on which `Dispose()` is called, has been disposed for a cause. -/
  object : d.rule = Rule.repeatedDisposeId → ∃ object, i.Disposes semantics s object ∧
    Caused semantics history object (.disposal .disposed)

/-- Where every rule has one check at most, a check is called before an instruction with the
suspicions of the state that its rule is about. -/
theorem Run.holds_of_call {slots : List Slot} {point : Point} {i : Instruction} {j : Journal}
    (hslots : ∀ slot ∈ slots, slot.check.Standard)
    (hone : ∀ rule, (slots.map (·.check.rule)).count rule ≤ 1) {call : HookCall}
    (hcall : call ∈ callsOf plan .before point i slots j s) :
    call.state.stack = s.stack ∧ ∀ v c, c.isSuspect = true →
      (c = .disposal .disposed → call.check.rule = Rule.repeatedDisposeId) →
      call.state.holds v c = true → s.holds v c = true := by
  refine callsOf_induction (P := fun t => t.stack = s.stack ∧ ∀ v c, c.isSuspect = true →
    (c = .disposal .disposed → call.check.rule = Rule.repeatedDisposeId) →
    t.holds v c = true → s.holds v c = true) (hone call.check.rule) ?_
    ⟨rfl, fun v c _ _ hheld => hheld⟩ hcall rfl
  rintro slot hslot hother hinterested t j t' ⟨hstack, ht⟩ hhook
  have hadjusts : t.AdjustsTo t' := (hslots slot hslot).adjusts (Prod.ext hhook rfl)
  refine ⟨hadjusts.stack.trans hstack, fun v c hc hrule hheld => ?_⟩
  rcases (hslots slot hslot).holds_of_before hc hinterested hhook hheld with
    hheld | ⟨hcheck, hdisposed, -⟩
  · exact ht v c hc hrule hheld
  · -- only the check that is being called could have disposed of the object, and it stands once
    exact absurd ((congrArg Check.rule hcheck).trans (hrule hdisposed).symm) hother

/-- Before an instruction in a justified state the checks report what follows from its history. -/
theorem Diagnostic.follows_of_call {slots : List Slot} {point : Point} {i : Instruction}
    {j : Journal} (hslots : ∀ slot ∈ slots, slot.check.Standard)
    (hone : ∀ rule, (slots.map (·.check.rule)).count rule ≤ 1)
    (hs : s.Justified plan.setting.semantics history) {call : HookCall}
    (hcall : call ∈ Run.callsOf plan .before point i slots j s) {d : Diagnostic}
    (hreports : call.Reports d) : d.Follows plan.setting.semantics history i s := by
  obtain ⟨⟨slot, hslot, hcheck⟩, hinterested, -, hsite⟩ := Run.mem_callsOf hcall
  have hstandard : call.check.Standard := hcheck ▸ hslots slot hslot
  obtain ⟨hstack, hholds⟩ := Run.holds_of_call hslots hone hcall
  obtain ⟨-, ⟨message, rfl⟩, hwhy⟩ := hstandard.reports hreports.1 hreports.2
  rw [hsite] at hwhy ⊢
  refine ⟨rfl, fun (hrule : call.check.rule = _) => ?_, fun (hrule : call.check.rule = _) => ?_⟩
  · rcases hwhy with hnull | ⟨-, salt, c, htakes, hsalt, hc, hheld⟩ | ⟨hdispose, -⟩
    · exact absurd (hnull ▸ hrule) (by decide)
    · rw [Site.argument_eq htakes, Instruction.arguments_congr hstack] at hsalt
      have hsuspect : c.isSuspect = true := by rcases hc with rfl | rfl <;> rfl
      have hother : c = .disposal .disposed → call.check.rule = Rule.repeatedDisposeId := by
        rcases hc with rfl | rfl <;> exact fun h => nomatch h
      exact ⟨salt, c, hsalt, hc, hs salt c hsuspect (hholds salt c hsuspect hother hheld)⟩
    · exact absurd (hdispose ▸ hrule) (by decide)
  · rcases hwhy with hnull | ⟨hsalt, -⟩ | ⟨hdispose, object, hcalls, hobject, hheld⟩
    · exact absurd (hnull ▸ hrule) (by decide)
    · exact absurd (hsalt ▸ hrule) (by decide)
    · have hdisposes := Site.disposes hcalls hobject (hdispose ▸ hinterested)
      exact ⟨object, (Instruction.disposes_congr hstack _ i).1 hdisposes,
        hs object _ rfl (hholds object _ rfl (fun _ => hrule) hheld)⟩

/-- What a step from a justified state reports follows from its history. -/
theorem Run.follows_of_step {run : Run} {point : Point} {i : Instruction} (hrun : run.Standard)
    (hone : ∀ rule, (run.slots.map (·.check.rule)).count rule ≤ 1)
    (hs : s.Justified plan.setting.semantics history) {d : Diagnostic}
    (hd : d ∈ (run.step plan point i s).2.journal.report.diagnostics) :
    d ∈ run.journal.report.diagnostics ∨ d.Follows plan.setting.semantics history i s := by
  rcases reports_of_step hd with hd | ⟨call, hcall, hreports⟩
  · exact .inl hd
  · have hbefore : call ∈ callsOf plan .before point i run.slots run.journal s →
        d.Follows plan.setting.semantics history i s :=
      fun hcall => Diagnostic.follows_of_call hrun hone hs hcall hreports
    rcases step_calls plan run point i s with ⟨-, hcalls⟩ | ⟨j, t, -, hcalls⟩
    · exact .inr (hbefore (hcalls ▸ hcall))
    · rcases List.mem_append.1 (hcalls ▸ hcall) with hcall | hcall
      · exact .inr (hbefore hcall)
      · -- after an instruction nothing is reported
        obtain ⟨⟨slot, hslot, hcheck⟩, -, hmoment, -⟩ := mem_callsOf hcall
        have hstandard : call.check.Standard := hcheck ▸ forall_check_of_eq
          (callChecks_checks plan .before point i run.slots run.journal s) hrun slot hslot
        cases hmoment.symm.trans (hstandard.reports hreports.1 hreports.2).1

/-- On the way to a situation an instruction was about to be executed; the diagnostic is about it
and follows from what had been done on the path by then. -/
def Diagnostic.Founded (plan : Plan) (checks : List Check) (x : Situation) (d : Diagnostic) :
    Prop :=
  ∃ y u point i rest s, Trailed plan checks y u ∧ Leads plan y x ∧
    y.stage = .executing point (i :: rest) s ∧ d.Follows plan.setting.semantics u.current i s

/-- A diagnostic stays founded as the machine moves on. -/
theorem Diagnostic.Founded.move {d : Diagnostic} (h : d.Founded plan checks x)
    (hmove : Move plan x y) : d.Founded plan checks y := by
  obtain ⟨z, u, point, i, rest, s, hz, hleads, hfollows⟩ := h
  exact ⟨z, u, point, i, rest, s, hz, hleads.tail hmove, hfollows⟩

/-- Whatever an exploration has reported followed from what had been done on the path at hand. -/
theorem Trailed.founded (hchecks : ∀ c ∈ checks, c.Standard)
    (hone : ∀ rule, (checks.map Check.rule).count rule ≤ 1)
    (heffects : plan.setting.effects = .standard) (h : Trailed plan checks x t) :
    ∀ d ∈ x.run.journal.report.diagnostics, d.Founded plan checks x := by
  induction h with
  | enter => exact fun d hd => (nomatch hd)
  | @move x y t hx hmove ih =>
    intro d hd
    have hearlier : d ∈ x.run.journal.report.diagnostics → d.Founded plan checks y :=
      fun hd => (ih d hd).move hmove
    have hslots := hx.reached.slots_eq hchecks
    have hrules : x.run.slots.map (·.check.rule) = checks.map Check.rule := by
      rw [hslots, Run.start, List.map_map]
      rfl
    obtain ⟨l, hdrawn, -⟩ := hx.reached.coherent hchecks
    have hstepping : ∀ {point i rest s o run'}, x.stage = .executing point (i :: rest) s →
        (x.run.count .countStep).step plan point i s = (o, run') →
        d ∈ run'.journal.report.diagnostics → d.Founded plan checks y := by
      intro point i rest s o run' hstage hstep hd
      have hs : s.Justified plan.setting.semantics t.current :=
        (hx.justifies hchecks heffects).stage s (hstage ▸ List.mem_cons_self)
      have hrun : (x.run.count .countStep).Standard := hdrawn.standard
      rcases Run.follows_of_step hrun (fun rule => hrules ▸ hone rule) hs (by rwa [hstep]) with
        hd | hfollows
      · exact hearlier hd
      · exact ⟨x, t, point, i, rest, s, hx, .single hmove, hstage, hfollows⟩
    cases hmove with
    | take | finish | settle => exact hearlier hd
    | prune _ hstep | raise _ hstep _ | proceed _ hstep _ => exact hstepping rfl hstep hd
    | @depart run departure rest =>
      cases departure with
      | blocked => exact hearlier hd
      | into block s =>
        rw [Run.depart, Run.journal_enter] at hd
        exact hearlier hd

/-- Each rule has one check at most among those chosen from the standard registry. -/
theorem Registry.standard_count_le_one (settings : Settings) (sink : Sink) (rule : String) :
    ((standard.enabled settings sink).map Check.rule).count rule ≤ 1 := by
  have hnodup : ([Rule.weakSalt, Rule.nullDereference, Rule.repeatedDispose].map
      Check.rule).Nodup := by decide
  rw [standard_enabled_eq]
  exact ((List.filter_sublist.map Check.rule).count_le rule).trans
    (List.nodup_iff_count_le_one.1 hnodup rule)

/-- No report without a cause. Along the way to every state of an exploration with standard effects
and checks, a value is suspect only if a deed made it so and none since has cleared it: a
predictable or short array was made and not filled, an object was disposed. Each report of a weak
salt or of a repeated disposal was made at an instruction of a path on which its salt or its object
had become suspect by then. -/
theorem reports_have_causes (heffects : plan.setting.effects = .standard) (settings : Settings)
    (sink : Sink) (hx : Reached plan (Registry.standard.enabled settings sink) x) :
    (∃ t, Trailed plan (Registry.standard.enabled settings sink) x t) ∧
      ∀ t, Trailed plan (Registry.standard.enabled settings sink) x t →
        (∀ s ∈ x.stage.states, s.Justified plan.setting.semantics t.current) ∧
        List.Forall₂
          (fun node history => node.state.Justified plan.setting.semantics history)
          x.run.worklist.toList t.waiting ∧
        ∀ d ∈ x.run.journal.report.diagnostics,
          d.Founded plan (Registry.standard.enabled settings sink) x := by
  have hchecks : ∀ c ∈ Registry.standard.enabled settings sink, c.Standard :=
    fun c hc => Registry.standard_enabled hc
  have hone := Registry.standard_count_le_one settings sink
  refine ⟨hx.exists_trailed, fun t ht => ?_⟩
  have hjustifies := ht.justifies hchecks heffects
  exact ⟨hjustifies.stage, hjustifies.worklist, ht.founded hchecks hone heffects⟩

namespace SaltedKey

/-- Both defects have been reported. -/
def hasBoth (x : Situation) : Bool :=
  x.run.journal.report.diagnostics.map (·.rule) == [Rule.weakSaltId, Rule.repeatedDisposeId]

end SaltedKey

open SaltedKey in
/-- The key is derived from a salt that was made as a short array, and it is disposed when it has
been disposed before. -/
theorem reports_have_causes_saltedKey :
    (∃ (y : Situation) (u : Trail) (i : Instruction) (s : State) (salt : Value) (c : Constraint),
        Trailed sample.plan sample.checks y u ∧ y.stage.states = [s] ∧
          (i.arguments s)[1]? = some salt ∧ (c = .saltSize .short ∨ c = .byteArray .constant) ∧
          Caused sample.plan.setting.semantics u.current salt c) ∧
      ∃ (y : Situation) (u : Trail) (i : Instruction) (s : State) (object : Value),
        Trailed sample.plan sample.checks y u ∧ y.stage.states = [s] ∧
          i.Disposes sample.plan.setting.semantics s object ∧
          Caused sample.plan.setting.semantics u.current object (.disposal .disposed) := by
  have hboth : ((Situation.entering sample.plan (.start sample.checks)).after sample.plan 55).any
      hasBoth = true := by decide +kernel
  obtain ⟨x, hafter, hrules⟩ := (Option.any_eq_true _ _).1 hboth
  have hrules : x.run.journal.report.diagnostics.map (·.rule) =
      [Rule.weakSaltId, Rule.repeatedDisposeId] := beq_iff_eq.1 hrules
  have heffects : sample.plan.setting.effects = .standard := by rw [Sample.setting_plan]; rfl
  obtain ⟨⟨t, ht⟩, hall⟩ := reports_have_causes heffects sample.settings (.withDisabled [])
    (Reached.of_after hafter)
  obtain ⟨-, -, hfounded⟩ := hall t ht
  have hrule : ∀ rule ∈ [Rule.weakSaltId, Rule.repeatedDisposeId],
      ∃ d ∈ x.run.journal.report.diagnostics, d.rule = rule :=
    fun rule hrule => List.mem_map.1 (hrules ▸ hrule)
  obtain ⟨d, hd, hsalt⟩ := hrule Rule.weakSaltId (by simp)
  obtain ⟨e, he, hobject⟩ := hrule Rule.repeatedDisposeId (by simp)
  obtain ⟨y, u, point, i, rest, s, hy, -, hstage, hfollows⟩ := hfounded d hd
  obtain ⟨z, w, point', i', rest', s', hz, -, hstage', hfollows'⟩ := hfounded e he
  obtain ⟨salt, c, hargument, hc, hcaused⟩ := hfollows.salt hsalt
  obtain ⟨object, hdisposes, hcaused'⟩ := hfollows'.object hobject
  exact ⟨⟨y, u, i, s, salt, c, hy, by rw [hstage]; rfl, hargument, hc, hcaused⟩,
    z, w, i', s', object, hz, by rw [hstage']; rfl, hdisposes, hcaused'⟩

end Pathwise
