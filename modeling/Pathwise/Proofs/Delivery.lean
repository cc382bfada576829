import Pathwise.Analysis
import Pathwise.Proofs.Whereabouts

/-!
# What an analysis delivers

The checks of this library report nothing but diagnostics about the instruction at hand, and a
report takes each defect once. So the report of a run has no defect twice and is about instructions
that control can come to. An analysis delivers the whole report of a completed run, sorted, and
nothing of a run that was given up.
-/

namespace Pathwise

namespace Diagnostic

variable {a b : Diagnostic} {ds : List Diagnostic}

/-- Two diagnostics are about the same defect if they have the same rule and the same key. -/
def SameDefect (a b : Diagnostic) : Prop := a.rule = b.rule ∧ a.key = b.key

/-- The order tells all diagnostics apart. -/
theorem eq_of_compare (h : compare a b = .eq) : a = b := by
  have hlex : (compare a.rule b.rule).then ((compare a.node b.node).then
      ((compare a.span b.span).then ((compare a.message b.message).then
        (compare a.key b.key)))) = .eq := h
  simp only [Ordering.then_eq_eq] at hlex
  obtain ⟨hrule, hnode, hspan, hmessage, hkey⟩ := hlex
  cases a
  cases b
  congr
  · exact Std.LawfulEqCmp.eq_of_compare hrule
  · exact Std.LawfulEqCmp.eq_of_compare hnode
  · exact Std.LawfulEqCmp.eq_of_compare hspan
  · exact Std.LawfulEqCmp.eq_of_compare hmessage
  · exact Std.LawfulEqCmp.eq_of_compare hkey

/-- Diagnostics that compare as equal tell of the same defect. -/
theorem sameDefect_of_compare (h : compare a b = .eq) : a.SameDefect b :=
  eq_of_compare h ▸ ⟨rfl, rfl⟩

theorem sorted_perm (ds : List Diagnostic) : (sorted ds).Perm ds := List.mergeSort_perm ds _

/-- Diagnostics are sorted in increasing order. -/
theorem sorted_le (ds : List Diagnostic) :
    (sorted ds).Pairwise fun a b => (compare a b).isLE = true := by
  refine List.pairwise_mergeSort (fun a b c hab hbc => ?_) (fun a b => ?_) ds
  · exact Std.TransCmp.isLE_trans hab hbc
  · have hswap : compare b a = (compare a b).swap := Std.OrientedCmp.eq_swap
    rw [hswap]
    cases compare a b <;> rfl

/-- Sorted diagnostics of different defects increase strictly. -/
theorem sorted_increasing (h : ds.Pairwise fun a b => ¬a.SameDefect b) :
    (sorted ds).Pairwise fun a b => compare a b = .lt := by
  have hne : (sorted ds).Pairwise fun a b => ¬a.SameDefect b :=
    h.perm (sorted_perm ds).symm fun hab hba => hab ⟨hba.1.symm, hba.2.symm⟩
  refine ((sorted_le ds).and hne).imp fun {a b} hab => ?_
  cases hcompare : compare a b with
  | lt => rfl
  | eq => exact absurd (sameDefect_of_compare hcompare) hab.2
  | gt => simp [hcompare] at hab

/-- Diagnostics can be put in order in one way only. -/
theorem eq_of_perm {es : List Diagnostic}
    (hds : ds.Pairwise fun a b => (compare a b).isLE = true)
    (hes : es.Pairwise fun a b => (compare a b).isLE = true) (h : ds.Perm es) : ds = es :=
  h.eq_of_pairwise
    (fun _ _ _ _ hab hba => eq_of_compare (Std.OrientedCmp.isLE_antisymm hab hba)) hds hes

/-- In whatever order diagnostics are found, they are sorted alike. -/
theorem sorted_eq_of_perm {es : List Diagnostic} (h : ds.Perm es) : sorted ds = sorted es :=
  eq_of_perm (sorted_le ds) (sorted_le es)
    ((sorted_perm ds).trans (h.trans (sorted_perm es).symm))

/-- Leaving diagnostics out and sorting the rest is sorting first. -/
theorem sorted_filter (p : Diagnostic → Bool) (ds : List Diagnostic) :
    (sorted ds).filter p = sorted (ds.filter p) :=
  eq_of_perm ((sorted_le ds).filter p) (sorted_le (ds.filter p))
    (((sorted_perm ds).filter p).trans (sorted_perm _).symm)

end Diagnostic

/-! ## Reports -/

/-- A report has no defect twice, and all its diagnostics have a property. -/
structure Report.Holds (P : Diagnostic → Prop) (r : Report) : Prop where
  /-- No two diagnostics are about the same defect. -/
  distinct : r.diagnostics.Pairwise fun a b => ¬a.SameDefect b
  /-- Each diagnostic has the property. -/
  each : ∀ d ∈ r.diagnostics, P d

/-- A property of all diagnostics of a report is kept if the new one has it. -/
theorem Report.Holds.add {P : Diagnostic → Prop} {r : Report} (h : r.Holds P) {d : Diagnostic}
    (hd : P d) : (r.add d).Holds P := by
  unfold Report.add
  split
  · exact h
  · next hnew =>
    have hother : ∀ a ∈ r.diagnostics, ¬a.SameDefect d := by
      intro a ha hsame
      refine hnew (List.any_eq_true.2 ⟨a, ha, ?_⟩)
      rw [hsame.1, hsame.2, beq_self_eq_true, beq_self_eq_true, Bool.and_self]
    refine ⟨List.pairwise_append.2 ⟨h.distinct, List.pairwise_singleton _ _, ?_⟩, fun a ha => ?_⟩
    · intro a ha b hb
      exact List.mem_singleton.1 hb ▸ hother a ha
    · rcases List.mem_append.1 ha with hold | hnew
      · exact h.each a hold
      · exact List.mem_singleton.1 hnew ▸ hd

namespace Run

variable (plan : Plan) (moment : Moment) (point : Point) (i : Instruction) {P : Diagnostic → Prop}

/-- The diagnostics that a check can report about an instruction have a property. -/
def Tells (P : Diagnostic → Prop) (plan : Plan) (point : Point) (i : Instruction) (slot : Slot) :
    Prop :=
  slot.check.Standard ∧ ∀ message,
    P ((⟨slot.check.rule, point, i, plan.setting.semantics⟩ : Site).diagnostic message)

/-- It is kept by checks that tell of nothing else. -/
theorem callChecks_holds {slots : List Slot} (hslots : ∀ slot ∈ slots, Tells P plan point i slot)
    {j : Journal} (h : j.report.Holds P) (s : State) :
    (callChecks plan moment point i slots j s).2.1.report.Holds P := by
  induction slots generalizing j s with
  | nil => exact h
  | cons slot rest ih =>
    have hrest : ∀ other ∈ rest, Tells P plan point i other :=
      fun other hother => hslots other (List.mem_cons_of_mem _ hother)
    obtain ⟨hstandard, hP⟩ := hslots slot List.mem_cons_self
    rw [callChecks]
    split
    · generalize hsite : (⟨slot.check.rule, point, i, plan.setting.semantics⟩ : Site) = site at hP
      have hhook : (slot.check.hook moment site s j).2.report.Holds P := by
        rcases hstandard.journal_cases moment site s j with hsame | ⟨message, hadd⟩
        · rw [hsame]
          exact h
        · rw [hadd]
          exact h.add (hP message)
      dsimp only
      split
      · next heq =>
        rw [heq] at hhook
        exact ih hrest hhook _
      · next heq =>
        rw [heq] at hhook
        exact hhook
      · next heq =>
        rw [heq] at hhook
        exact ih hrest hhook _
    · exact ih hrest h s

/-- So it is by a step. -/
theorem step_holds {run run' : Run} {s : State} {o : Option State}
    (hslots : ∀ slot ∈ run.slots, Tells P plan point i slot) (h : run.journal.report.Holds P)
    (hstep : run.step plan point i s = (o, run')) :
    run'.slots = run.slots ∧ run'.journal.report.Holds P := by
  have hbefore := callChecks_holds plan .before point i hslots h s
  have hstandard : run.Standard := fun slot hslot => (hslots slot hslot).1
  rw [step, checked] at hstep
  rcases callChecks_cases plan .before point i hstandard run.journal s with
    ⟨j, heq⟩ | ⟨j, s₁, heq, -⟩
  · simp only [heq] at hstep hbefore
    obtain ⟨-, rfl⟩ := Prod.mk.inj hstep
    exact ⟨rfl, hbefore⟩
  · simp only [heq, checked] at hstep hbefore
    obtain ⟨-, rfl⟩ := Prod.mk.inj hstep
    refine ⟨?_, callChecks_holds plan .after point i hslots hbefore _⟩
    rcases callChecks_cases plan .after point i hstandard j
        (plan.setting.execute i run.supply s₁).1 with ⟨j', heq'⟩ | ⟨j', s', heq', -⟩
    · rw [heq']
    · rw [heq']

end Run

/-! ## What is reported in a run -/

/-- A diagnostic comes from one of the checks and is about an instruction of a reachable block. -/
structure Diagnostic.Concerns (plan : Plan) (checks : List Check) (d : Diagnostic) : Prop where
  /-- It has the rule of one of the checks. -/
  rule : ∃ c ∈ checks, d.rule = c.rule
  /-- It has the node and the place of an instruction. -/
  place : ∃ block, plan.Reachable block ∧
    ∃ i ∈ plan.instructions block, d.node = i.node ∧ d.span = i.span

/-- The checks of a run are given ones, and what they have reported concerns the plan. -/
structure Run.Reporting (plan : Plan) (checks : List Check) (run : Run) : Prop where
  /-- The checks are given ones. -/
  slots : ∀ slot ∈ run.slots, slot.check ∈ checks
  /-- The report concerns the plan. -/
  report : run.journal.report.Holds (Diagnostic.Concerns plan checks)

namespace Run.Reporting

variable {plan : Plan} {checks : List Check} {x y : Situation} {run run' : Run}

/-- An instruction of a reachable block is executed. -/
theorem step (h : run.Reporting plan checks) (hchecks : ∀ c ∈ checks, c.Standard) {point : Point}
    {i : Instruction} {rest : List Instruction} {s : State} {o : Option State}
    (hplaced : (Stage.executing point (i :: rest) s).Placed plan)
    (hstep : (run.count .countStep).step plan point i s = (o, run')) :
    run'.Reporting plan checks := by
  obtain ⟨hblock, done, hdone⟩ := hplaced
  have hi : i ∈ plan.instructions point.block := by simp [hdone]
  have htells : ∀ slot ∈ (run.count .countStep).slots,
      Tells (Diagnostic.Concerns plan checks) plan point i slot := by
    intro slot hslot
    have hcheck := h.slots slot hslot
    exact ⟨hchecks _ hcheck, fun message => ⟨⟨_, hcheck, rfl⟩, _, hblock, i, hi, rfl, rfl⟩⟩
  obtain ⟨hslots, hreport⟩ := step_holds plan point i htells h.report hstep
  exact ⟨hslots ▸ h.slots, hreport⟩

theorem depart (h : run.Reporting plan checks) (d : Departure) :
    (run.depart plan d).Reporting plan checks := by
  cases d with
  | blocked => exact ⟨h.slots, h.report⟩
  | into b s =>
    obtain ⟨hslots, -⟩ := enter_fields plan run b s
    refine ⟨?_, ?_⟩
    · rw [Run.depart, hslots]
      exact h.slots
    · rw [Run.depart, journal_enter]
      exact h.report

/-- Every move of the machine keeps it. -/
theorem move (h : x.run.Reporting plan checks) (hchecks : ∀ c ∈ checks, c.Standard)
    (hx : x.Placed plan) (hmove : Move plan x y) : y.run.Reporting plan checks := by
  cases hmove with
  | take => exact ⟨h.slots, h.report⟩
  | finish | settle => exact h
  | prune _ hstep =>
    have hnext := h.step hchecks hx.stage hstep
    exact ⟨hnext.slots, hnext.report⟩
  | raise _ hstep _ | proceed _ hstep _ => exact h.step hchecks hx.stage hstep
  | depart => exact h.depart _

end Run.Reporting

/-- Whatever has been reported at some time in a run concerns its plan. -/
theorem Reached.reporting {plan : Plan} {checks : List Check} (hchecks : ∀ c ∈ checks, c.Standard)
    {x : Situation} (hx : Reached plan checks x) : x.run.Reporting plan checks := by
  induction hx with
  | refl =>
    refine ⟨fun slot hslot => ?_, List.Pairwise.nil, fun d hd => ?_⟩
    · obtain ⟨c, hc, rfl⟩ := List.mem_map.1 hslot
      exact hc
    · cases hd
  | tail hleads hmove ih => exact ih.move hchecks (Reached.placed hleads) hmove

/-! ## Delivery -/

/-- Diagnostics are emitted behind those that have been delivered. -/
theorem Sink.emitAll_eq (sink : Sink) (ds : List Diagnostic) :
    sink.emitAll ds = { sink with delivered := sink.delivered ++ ds } := by
  unfold emitAll
  induction ds generalizing sink with
  | nil => simp
  | cons d ds ih =>
    rw [List.foldl_cons, ih]
    simp [emit]

/-- The checks chosen from the standard registry are about rules that both the settings and the sink
want. -/
theorem Registry.standard_wanted {settings : Settings} {sink : Sink} {c : Check}
    (h : c ∈ standard.enabled settings sink) :
    settings.isEnabled c.rule = true ∧ sink.isEnabled c.rule = true := by
  rw [standard_enabled_eq] at h
  obtain ⟨-, hwanted⟩ := List.mem_filter.1 h
  simpa using hwanted

namespace Analysis

variable {semantics : Semantics} {settings : Settings} {p : Procedure} {sink : Sink}
  {polls : Option Polls}

/-- What a completed exploration with checks of the standard registry has reported: no defect twice,
wanted rules only, and instructions of blocks to which edges lead from the entry. -/
theorem report_of_completed {plan : Plan} {run : Run}
    (hplan : Plan.prepare p ⟨semantics, .standard⟩ settings polls = .ok plan)
    (hrun : (Run.start (Registry.standard.enabled settings sink)).explore plan =
      (.completed, run)) :
    run.journal.report.Holds fun d =>
      settings.isEnabled d.rule = true ∧ sink.isEnabled d.rule = true ∧
        ∃ entry index block, p.flow.entry = some entry ∧ p.flow.Passes entry index ∧
          (p.flow.Built → p.flow.graph.Reaches entry index) ∧
          p.flow.block index = .ok block ∧ ∃ i ∈ block.instructions,
            d.node = i.node ∧ d.span = i.span := by
  have hprepared := Plan.prepared hplan
  obtain ⟨hend, -⟩ := Reached.of_completed hrun
  have hreport := (hend.reporting fun c hc => Registry.standard_enabled hc).report
  refine ⟨hreport.distinct, fun d hd => ?_⟩
  obtain ⟨⟨c, hc, hrule⟩, index, hindex, i, hi, hnode, hspan⟩ := hreport.each d hd
  obtain ⟨hsettings, hsink⟩ := Registry.standard_wanted hc
  refine ⟨hrule ▸ hsettings, hrule ▸ hsink, plan.entry, index, ?_⟩
  unfold Plan.Reachable at hindex
  unfold Plan.instructions Plan.instructionsOf at hi
  rw [hprepared.procedure] at hindex hi
  split at hi
  · next block hblock =>
    exact ⟨block, hprepared.entry, hindex, fun hbuilt => hbuilt.sound.reaches hindex, hblock, i, hi,
      hnode, hspan⟩
  · cases hi

/-- What an analysis with the standard registry delivers. The diagnostics increase strictly and no
two of them are about the same defect; each has a rule that settings and sink want, and the node and
the place of an instruction in a block to which edges lead from the entry. The sink gets exactly
these, in this order. If the exploration was completed they are all that it reported; if not, there
are none and the sink stays as it was. -/
theorem diagnostics_all_or_nothing (semantics : Semantics) (settings : Settings) (p : Procedure)
    (sink : Sink) (polls : Option Polls) :
    let result := analyse ⟨semantics, .standard, settings⟩ p sink polls
    let delivered := result.exploration.diagnostics
    delivered.Pairwise (fun a b => compare a b = .lt) ∧
      delivered.Pairwise (fun a b => ¬(a.rule = b.rule ∧ a.key = b.key)) ∧
      (∀ d ∈ delivered, settings.isEnabled d.rule = true ∧ sink.isEnabled d.rule = true ∧
        ∃ entry index block, p.flow.entry = some entry ∧ p.flow.Passes entry index ∧
          (p.flow.Built → p.flow.graph.Reaches entry index) ∧
          p.flow.block index = .ok block ∧ ∃ i ∈ block.instructions,
            d.node = i.node ∧ d.span = i.span) ∧
      result.sink = { sink with delivered := sink.delivered ++ delivered } ∧
      (result.exploration.status = .completed → ∃ plan run,
        Plan.prepare p ⟨semantics, .standard⟩ settings polls = .ok plan ∧
        (Run.start (Registry.standard.enabled settings sink)).explore plan = (.completed, run) ∧
        delivered.Perm run.diagnostics) ∧
      (result.exploration.status ≠ .completed → delivered = [] ∧ result.sink = sink) := by
  dsimp only
  unfold analyse
  dsimp only
  cases hplan : Plan.prepare p ⟨semantics, .standard⟩ settings polls with
  | error e => simp
  | ok plan =>
    obtain ⟨status, run, hrun⟩ : ∃ status run,
        (Run.start (Registry.standard.enabled settings sink)).explore plan = (status, run) :=
      ⟨_, _, rfl⟩
    simp only [hrun]
    by_cases hstatus : status = .completed
    · subst hstatus
      have hreport := report_of_completed hplan hrun
      have hperm := Diagnostic.sorted_perm run.diagnostics
      refine ⟨Diagnostic.sorted_increasing hreport.distinct, ?_, ?_, sink.emitAll_eq _,
        fun _ => ⟨plan, run, rfl, hrun, hperm⟩, fun hnot => absurd rfl hnot⟩
      · exact hreport.distinct.perm hperm.symm fun hab hba => hab ⟨hba.1.symm, hba.2.symm⟩
      · intro d hd
        exact hreport.each d (hperm.mem_iff.1 hd)
    · have hnone : deliverable status run.diagnostics = [] := by
        cases status with
        | completed => exact absurd rfl hstatus
        | incomplete _ | skipped _ => rfl
      simp [hnone, hstatus, Sink.emitAll_eq]

end Analysis

end Pathwise
