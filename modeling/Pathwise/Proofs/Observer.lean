import Pathwise.Proofs.Delivery
import Pathwise.Proofs.Lockstep
import Pathwise.Proofs.Marking
import Pathwise.Proofs.Sample

/-!
# The rule on salts only observes

An exploration with the rule on salts and one without it stay in step: the states of the one are
those of the other with marks. A mark can make two states differ that would be the same without it,
so that a node would be explored that is a duplicate for the other exploration. That marks are made
once and only undone rules this out.
-/

namespace Pathwise

/-! ## What is told besides a rule -/

/-- The report without the diagnostics of a rule. -/
def Report.without (r : Report) (rule : String) : Report := ⟨r.diagnostics.filter (·.rule != rule)⟩

/-- The journal without the diagnostics of a rule. -/
def Journal.without (j : Journal) (rule : String) : Journal :=
  { j with report := j.report.without rule }

namespace Journal

variable {rule : String} {d : Diagnostic}

/-- A diagnostic of the rule that is left out makes no difference. -/
theorem without_add_self (j : Journal) (hd : d.rule = rule) :
    (j.add d).without rule = j.without rule := by
  unfold without add
  congr 1
  unfold Report.without Report.add
  split
  · rfl
  · simp [List.filter_append, hd]

/-- A diagnostic of another rule is kept. -/
theorem without_add_of_ne (j : Journal) (hd : d.rule ≠ rule) :
    (j.add d).without rule = (j.without rule).add d := by
  have hhas : (j.report.without rule).has d.rule d.key = j.report.has d.rule d.key := by
    unfold Report.has Report.without
    rw [List.any_filter]
    refine congrArg (j.report.diagnostics.any ·) (funext fun a => ?_)
    by_cases ha : a.rule = d.rule
    · simp [ha, hd]
    · simp [ha]
  unfold without add
  congr 1
  dsimp only
  rw [Report.add, Report.add, hhas]
  split
  · rfl
  · simp [Report.without, List.filter_append, hd]

end Journal

/-! ## The other checks do not notice marks -/

/-- The verdict without marks. -/
def Verdict.unmarked : Verdict → Verdict
  | .goOn s => .goOn s.unmarked
  | .stop => .stop
  | .failed message => .failed message

/-- A verdict without marks is made from the state without marks. -/
theorem Verdict.unmarked_ofOption (o : Option State) :
    (ofOption o).unmarked = ofOption (o.map State.unmarked) := by
  cases o <;> rfl

/-- The check answers the same without marks and without what the rule on salts has told. -/
def Check.Blind (c : Check) : Prop :=
  ∀ moment site s j, site.rule ≠ Rule.weakSaltId →
    c.hook moment site s.unmarked (j.without Rule.weakSaltId) =
      ((c.hook moment site s j).1.unmarked, (c.hook moment site s j).2.without Rule.weakSaltId)

namespace Rule

/-- The check for null dereferences does not see marks. -/
theorem nullDereference_blind : nullDereference.Blind := by
  intro moment site s j hrule
  cases moment with
  | after => rfl
  | before =>
    change beforeDereference site s.unmarked _ =
      ((beforeDereference site s j).1.unmarked, (beforeDereference site s j).2.without weakSaltId)
    have hreceiver : site.receiver s.unmarked = site.receiver s := rfl
    unfold beforeDereference
    rw [hreceiver]
    split
    · rfl
    · next object _ =>
      rw [State.holds_unmarked s object rfl]
      split
      · exact Prod.ext rfl (j.without_add_of_ne hrule).symm
      · rw [State.assume_unmarked object s rfl, ← Verdict.unmarked_ofOption]

/-- Nor does the check for repeated disposal. -/
theorem repeatedDispose_blind : repeatedDispose.Blind := by
  intro moment site s j hrule
  cases moment with
  | after => rfl
  | before =>
    change beforeDispose site s.unmarked _ =
      ((beforeDispose site s j).1.unmarked, (beforeDispose site s j).2.without weakSaltId)
    have hreceiver : site.receiver s.unmarked = site.receiver s := rfl
    unfold beforeDispose
    split
    · rfl
    · rw [hreceiver]
      split
      · rfl
      · next object _ =>
        split
        · rfl
        · rw [State.holds_unmarked s object rfl]
          split
          · exact Prod.ext rfl (j.without_add_of_ne hrule).symm
          · rw [← State.unmarked_overwrite s object rfl]
            rfl

end Rule

/-- A check other than the one for weak salts, which does not notice marks. -/
structure Check.Other (c : Check) : Prop where
  /-- It is one of this library. -/
  standard : c.Standard
  /-- It does not notice marks. -/
  blind : c.Blind
  /-- It is for another rule. -/
  rule : c.rule ≠ Rule.weakSaltId

/-- The check for null dereferences has another rule and does not see marks. -/
theorem Rule.nullDereference_other : nullDereference.Other :=
  ⟨.nullDereference, nullDereference_blind, by decide⟩

/-- So it is with the check for repeated disposal. -/
theorem Rule.repeatedDispose_other : repeatedDispose.Other :=
  ⟨.repeatedDispose, repeatedDispose_blind, by decide⟩

/-- Other checks, called on a state without marks, do what they do with marks. -/
theorem Run.callChecks_unmarked (plan : Plan) (moment : Moment) (point : Point) (i : Instruction)
    {slots : List Slot} (hslots : ∀ slot ∈ slots, slot.check.Other) (j : Journal) (s : State) :
    callChecks plan moment point i slots (j.without Rule.weakSaltId) s.unmarked =
      ((callChecks plan moment point i slots j s).1,
        (callChecks plan moment point i slots j s).2.1.without Rule.weakSaltId,
        (callChecks plan moment point i slots j s).2.2.map State.unmarked) := by
  induction slots generalizing j s with
  | nil => rfl
  | cons slot rest ih =>
    have hrest := ih fun other hother => hslots other (List.mem_cons_of_mem _ hother)
    obtain ⟨-, hblind, hrule⟩ := hslots slot List.mem_cons_self
    rw [callChecks, callChecks]
    split
    · dsimp only
      rw [hblind moment ⟨slot.check.rule, point, i, plan.setting.semantics⟩ s j hrule]
      cases slot.check.hook moment ⟨slot.check.rule, point, i, plan.setting.semantics⟩ s j with
      | mk verdict j' =>
        cases verdict with
        | goOn t => simp only [Verdict.unmarked, hrest]
        | stop => rfl
        | failed => simp only [Verdict.unmarked, hrest]
    · simp only [hrest]

/-! ## The rule on salts changes marks only -/

namespace Rule

/-- Before a derivation the check for weak salts leaves the state and reports under its own rule. -/
theorem beforeDerivation_unnoticed (site : Site) (hrule : site.rule = weakSaltId) (s : State)
    (j : Journal) :
    ∃ j', beforeDerivation site s j = (.goOn s, j') ∧
      j'.without weakSaltId = j.without weakSaltId := by
  have hadd : ∀ message, (j.add (site.diagnostic message)).without weakSaltId =
      j.without weakSaltId := fun _ => j.without_add_self hrule
  unfold beforeDerivation
  split
  · exact ⟨j, rfl, rfl⟩
  · split
    · exact ⟨j, rfl, rfl⟩
    · split
      · exact ⟨_, rfl, hadd _⟩
      · split
        · exact ⟨_, rfl, hadd _⟩
        · exact ⟨j, rfl, rfl⟩

end Rule

namespace State.NewOnTop

variable {s : State} {id : Nat} {held : ConstraintSet}

/-- A new value takes a mark of a domain in which nothing is known, and nothing else changes. -/
theorem mark (h : s.NewOnTop id held) {c : Constraint} (hc : c.isMark = true)
    (hnone : held.get? c.domain = none) :
    ∃ t, assume (.fresh id) c s = some t ∧ t.NewOnTop id (held.insert c) ∧
      t.unmarked = s.unmarked := by
  have htruth : c.domain ≠ .truth := by
    intro hd
    rw [Constraint.isMark_of_domain (by rw [hd]; rfl)] at hc
    cases hc
  refine ⟨s.record (.fresh id) c, ?_, ⟨h.top, h.known, ?_⟩, unmarked_record_mark hc h.fact hnone⟩
  · rw [assume_eq, h.known, h.constraint_eq, hnone]
    exact spread_of_not_truth htruth _ _
  · rw [facts_record, h.recorded_eq]
    exact if_pos rfl

/-- To mark a new array changes marks only. -/
theorem markArray (h : s.NewOnTop id held) (hcontent : held.byteArray = none)
    (hsize : held.saltSize = none) (semantics : Semantics) (dimensions : List NodeId) :
    ∃ t, Rule.markArray semantics dimensions s = some t ∧ t.unmarked = s.unmarked := by
  obtain ⟨t, hconstant, ht, hunmarked⟩ :=
    h.mark (c := .byteArray .constant) rfl (congrArg (Option.map _) hcontent)
  obtain ⟨t', hshort, -, hunmarked'⟩ :=
    ht.mark (c := .saltSize .short) rfl (congrArg (Option.map _) hsize)
  unfold Rule.markArray
  simp only [h.top, hconstant, Option.bind_eq_bind, Option.bind_some]
  split
  · split
    · exact ⟨t', hshort, hunmarked'.trans hunmarked⟩
    · exact ⟨t, rfl, hunmarked⟩
  · exact ⟨t, rfl, hunmarked⟩

end State.NewOnTop

/-- After a creation the check for weak salts changes marks only, and reports nothing. -/
theorem Rule.afterCreation_unnoticed (site : Site) {s : State} (j : Journal)
    (hnew : ∀ dimensions, site.instruction.operation = .arrayCreation dimensions →
      ∃ id, s.NewOnTop id (ConstraintSet.empty.insert (.nullability .notNull))) :
    ∃ t, afterCreation site s j = (.goOn t, j) ∧ t.unmarked = s.unmarked := by
  unfold afterCreation
  split
  · next dimensions hcreation =>
    split
    · obtain ⟨id, h⟩ := hnew dimensions hcreation
      obtain ⟨t, hmark, ht⟩ := h.markArray rfl rfl site.semantics dimensions
      exact ⟨t, by rw [hmark]; rfl, ht⟩
    · exact ⟨s, rfl, rfl⟩
  · exact ⟨s, rfl, rfl⟩

/-! ## Runs without the rule -/

/-- The queue with a function applied to every item. -/
def Queue.map {α β : Type} (f : α → β) (q : Queue α) : Queue β := ⟨q.front.map f, q.back.map f⟩

/-- The first item of a queue is the image of the first item. -/
theorem Queue.pop?_map {α β : Type} (f : α → β) (q : Queue α) :
    (q.map f).pop? = q.pop?.map fun (a, rest) => (f a, rest.map f) := by
  obtain ⟨front, back⟩ := q
  cases front with
  | cons a front => rfl
  | nil =>
    simp only [map, pop?, List.map_nil, ← List.map_reverse]
    cases back.reverse <;> rfl

/-- The node without marks. -/
def Node.unmarked (node : Node) : Node := ⟨node.point, node.state.unmarked⟩

/-- A run whose first check is that for weak salts, as it is without the check. -/
def Run.unmarked (run : Run) : Run :=
  { run with
    slots := run.slots.tail
    journal := run.journal.without Rule.weakSaltId
    worklist := run.worklist.map Node.unmarked
    visited := run.visited.mapValues (List.map Fingerprint.unmarked) }

/-- The next node without marks is the next node, without its marks. -/
theorem Run.pop?_unmarked (run : Run) : run.unmarked.worklist.pop? =
    run.worklist.pop?.map fun (node, rest) => (node.unmarked, rest.map Node.unmarked) :=
  Queue.pop?_map _ _

/-- The states in which a block has been reached lose their marks one by one. -/
theorem Run.visited_unmarked (run : Run) (block : Nat) : run.unmarked.visited.get? block =
    (run.visited.get? block).map (List.map Fingerprint.unmarked) :=
  SortedMap.get?_mapValues run.visited _ block

/-- The first check is that for weak salts, and the others do not notice marks. -/
def Run.Watched (run : Run) : Prop :=
  ∃ others, run.slots = ⟨Rule.weakSalt, true⟩ :: others ∧ ∀ slot ∈ others, slot.check.Other

namespace Run

variable {run : Run} {s : State} {l : List Value}

/-- A watched run has checks of this library. -/
theorem Watched.standard (h : run.Watched) : run.Standard := by
  obtain ⟨others, hslots, hothers⟩ := h
  intro slot hslot
  rw [hslots] at hslot
  rcases List.mem_cons.1 hslot with rfl | hslot
  · exact .weakSalt
  · exact (hothers slot hslot).standard

/-- The other checks answer as they would without the check for weak salts, if that only changes
marks. -/
theorem callChecks_watched (plan : Plan) (moment : Moment) (point : Point) (i : Instruction)
    {others : List Slot} (hothers : ∀ slot ∈ others, slot.check.Other) {j : Journal}
    (hhook : ∃ t j', Rule.weakSalt.hook moment
      ⟨Rule.weakSaltId, point, i, plan.setting.semantics⟩ s j = (.goOn t, j') ∧
        t.unmarked = s.unmarked ∧ j'.without Rule.weakSaltId = j.without Rule.weakSaltId) :
    ∃ others' j' o,
      callChecks plan moment point i (⟨Rule.weakSalt, true⟩ :: others) j s =
        (⟨Rule.weakSalt, true⟩ :: others', j', o) ∧
      callChecks plan moment point i others (j.without Rule.weakSaltId) s.unmarked =
        (others', j'.without Rule.weakSaltId, o.map State.unmarked) := by
  rw [callChecks]
  split
  · obtain ⟨t, j', hanswer, ht, hj⟩ := hhook
    have hrule : Rule.weakSalt.rule = Rule.weakSaltId := rfl
    dsimp only
    rw [hrule, hanswer, ← ht, ← hj, callChecks_unmarked plan moment point i hothers j' t]
    exact ⟨_, _, _, rfl, rfl⟩
  · rw [callChecks_unmarked plan moment point i hothers j s]
    exact ⟨_, _, _, rfl, rfl⟩

/-- If the check for weak salts goes unnoticed, the others do what they do without it. -/
theorem checked_unmarked (h : run.Watched) (plan : Plan) (moment : Moment) (point : Point)
    (i : Instruction)
    (hhook : ∃ t j', Rule.weakSalt.hook moment
      ⟨Rule.weakSaltId, point, i, plan.setting.semantics⟩ s run.journal = (.goOn t, j') ∧
        t.unmarked = s.unmarked ∧
          j'.without Rule.weakSaltId = run.journal.without Rule.weakSaltId) :
    run.unmarked.checked plan moment point i s.unmarked =
      ((run.checked plan moment point i s).1.map State.unmarked,
        (run.checked plan moment point i s).2.unmarked) := by
  obtain ⟨others, hslots, hothers⟩ := h
  have hunmarked : run.unmarked.slots = others := by
    unfold unmarked
    rw [hslots]
    rfl
  obtain ⟨others', j', o, hwatched, hunwatched⟩ :=
    callChecks_watched plan moment point i hothers hhook
  have hjournal : run.unmarked.journal = run.journal.without Rule.weakSaltId := rfl
  unfold checked
  rw [hunmarked, hjournal, hslots, hwatched, hunwatched]
  rfl

/-- A step does what it would do without the check for weak salts. -/
theorem step_unmarked {plan : Plan} (heffects : plan.setting.effects = .standard) (h : run.Watched)
    (hl : Ledger l) (ht : run.supply.Tracks l) (hs : s.DrawnFrom l) (point : Point)
    (i : Instruction) :
    run.unmarked.step plan point i s.unmarked =
      ((run.step plan point i s).1.map State.unmarked, (run.step plan point i s).2.unmarked) := by
  have hbefore : run.unmarked.checked plan .before point i s.unmarked =
      ((run.checked plan .before point i s).1.map State.unmarked,
        (run.checked plan .before point i s).2.unmarked) := by
    obtain ⟨j, hanswer, hj⟩ := Rule.beforeDerivation_unnoticed
      ⟨Rule.weakSaltId, point, i, plan.setting.semantics⟩ rfl s run.journal
    exact checked_unmarked h plan .before point i ⟨s, j, hanswer, rfl, hj⟩
  rw [step, step, hbefore]
  rcases callChecks_cases plan .before point i h.standard run.journal s with
    ⟨j, heq⟩ | ⟨j, s₁, heq, hs₁⟩
  · have hchecked : run.checked plan .before point i s = (none, { run with journal := j }) := by
      simp only [checked, heq]
    rw [hchecked]
    rfl
  · have hchecked : run.checked plan .before point i s = (some s₁, { run with journal := j }) := by
      simp only [checked, heq]
    have hwatched : Watched { run with
        supply := (plan.setting.execute i run.supply s₁).2, journal := j } := h
    have hnew : ∀ dimensions, i.operation = .arrayCreation dimensions →
        ∃ id, (plan.setting.execute i run.supply s₁).1.NewOnTop id
          (ConstraintSet.empty.insert (.nullability .notNull)) := by
      intro _ hcreation
      rw [Setting.execute_eq]
      exact ⟨_, Setting.newOnTop hcreation hl ht (hs₁.drawnFrom hl hs) _⟩
    obtain ⟨t, hanswer, ht⟩ := Rule.afterCreation_unnoticed
      ⟨Rule.weakSaltId, point, i, plan.setting.semantics⟩ j hnew
    have hafter := checked_unmarked hwatched plan .after point i ⟨t, j, hanswer, ht, rfl⟩
    rw [hchecked]
    dsimp only [Option.map_some]
    have hsupply : (unmarked { run with journal := j }).supply = run.supply := rfl
    rw [hsupply, Setting.execute_unmarked heffects i run.supply s₁]
    exact hafter

/-- As many nodes can be reached without marks as with them. -/
theorem reach_unmarked (plan : Plan) (run : Run) : run.unmarked.reach plan = run.reach plan := by
  have hlist : run.unmarked.worklist.toList = run.worklist.toList.map Node.unmarked := by
    simp [unmarked, Queue.map, Queue.toList]
  have hnode : ∀ node : Node, plan.reach node.unmarked.state = plan.reach node.state :=
    fun node => plan.reach_unmarked node.state
  unfold reach
  rw [hlist, List.foldl_map]
  simp only [hnode]

/-- A block counts as reached in a state if it counts as reached in that state with some marks. -/
theorem hasVisited_unmarked (run : Run) (block : Nat) (f : Fingerprint) :
    run.unmarked.hasVisited block f = true ↔
      ∃ g, run.hasVisited block g = true ∧ g.unmarked = f := by
  unfold hasVisited
  rw [visited_unmarked]
  cases run.visited.get? block with
  | none => simp
  | some states => simp

/-- Control arrives without marks as it does with them. -/
theorem arriving_unmarked (plan : Plan) (run : Run) (block : Nat) (s : State) :
    run.unmarked.arriving plan block s.unmarked = (run.arriving plan block s).unmarked := by
  have hwidens : Widens plan run.unmarked block ↔ Widens plan run block := Iff.rfl
  have hsupply : run.unmarked.supply = run.supply := rfl
  unfold arriving Node.unmarked
  simp only [hwidens, hsupply, ← State.unmarked_clean, widen_unmarked]
  congr 1
  split <;> rfl

/-- An arrival is counted without marks as it is with them. -/
theorem counting_unmarked (plan : Plan) (run : Run) (block : Nat) (s : State) :
    run.unmarked.counting plan block s.unmarked = (run.counting plan block s).unmarked := by
  have hwidens : Widens plan run.unmarked block ↔ Widens plan run block := Iff.rfl
  have hsupply : run.unmarked.supply = run.supply := rfl
  unfold counting
  simp only [hwidens, hsupply, ← State.unmarked_clean, widen_unmarked]
  rfl

/-- A node met without marks is the node met with them, if marks tell no two states apart. -/
theorem meet_unmarked {run : Run} {node : Node}
    (h : run.unmarked.hasVisited node.point.block node.state.fingerprint.unmarked =
      run.hasVisited node.point.block node.state.fingerprint) :
    run.unmarked.meet node.unmarked = (run.meet node).unmarked := by
  have hpoint : node.unmarked.point = node.point := rfl
  have hfingerprint : node.unmarked.state.fingerprint = node.state.fingerprint.unmarked :=
    node.state.fingerprint_unmarked
  have hinsert : run.unmarked.visited.insert node.point.block
        (node.state.fingerprint.unmarked ::
          (run.unmarked.visited.get? node.point.block).getD []) =
      (run.visited.insert node.point.block
        (node.state.fingerprint :: (run.visited.get? node.point.block).getD [])).mapValues
          (List.map Fingerprint.unmarked) := by
    rw [SortedMap.mapValues_insert, visited_unmarked]
    cases run.visited.get? node.point.block <;> rfl
  unfold meet
  dsimp only
  rw [hpoint, hfingerprint, h, hinsert]
  split <;> rfl

end Run

/-! ## Two explorations in step -/

/-- The stage without marks. -/
def Stage.unmarked : Stage → Stage
  | .idle => .idle
  | .executing point rest s => .executing point rest s.unmarked
  | .leaving departures => .leaving (departures.map Departure.unmarked)

/-- The situation as it is without the check for weak salts. -/
def Situation.unmarked (x : Situation) : Situation := ⟨x.run.unmarked, x.stage.unmarked⟩

section Watching

variable {plan : Plan} {others : List Check} {x : Situation}

/-- Together with the check for weak salts, the others are checks of this library. -/
theorem Check.Other.standard_cons (hothers : ∀ c ∈ others, c.Other) :
    ∀ c ∈ Rule.weakSalt :: others, c.Standard := by
  intro c hc
  rcases List.mem_cons.1 hc with rfl | hc
  · exact .weakSalt
  · exact (hothers c hc).standard

/-- A run with the check for weak salts in front stays one. -/
theorem Reached.watched (hothers : ∀ c ∈ others, c.Other)
    (hx : Reached plan (Rule.weakSalt :: others) x) : x.run.Watched := by
  refine ⟨others.map (⟨·, true⟩), hx.slots_eq (Check.Other.standard_cons hothers), ?_⟩
  intro slot hslot
  obtain ⟨c, hc, rfl⟩ := List.mem_map.1 hslot
  exact hothers c hc

/-- What is a duplicate without the check for weak salts is a duplicate with it. -/
theorem Reached.hasVisited_unmarked (heffects : plan.setting.effects = .standard)
    (hothers : ∀ c ∈ others, c.Other) {run : Run} {block : Nat} {s : State} {rest : List Departure}
    (hx : Reached plan (Rule.weakSalt :: others) ⟨run, .leaving (.into block s :: rest)⟩) :
    run.unmarked.hasVisited block (run.arriving plan block s).state.fingerprint.unmarked =
      run.hasVisited block (run.arriving plan block s).state.fingerprint := by
  obtain ⟨b, hkept, hvisited⟩ :=
    (MarkBook.invariant heffects).kept_reached (Check.Other.standard_cons hothers) hx
  have hs : s.MarkedBy b := hkept.stage s (List.mem_append_left _ List.mem_cons_self)
  obtain ⟨b', hb, -, harriving⟩ := hs.arriving plan hkept.tracks block
  obtain ⟨t, ht⟩ := Run.exists_clean_arriving plan run block s
  rw [Bool.eq_iff_iff, Run.hasVisited_unmarked]
  constructor
  · rintro ⟨g, hg, heq⟩
    obtain ⟨node, hmet, -, rfl, hnode⟩ := hvisited block g hg
    obtain ⟨u, hu⟩ := hmet.exists_clean
    have hnode : node.state.MarkedBy b' := State.MarkedBy.grow hb hnode
    rw [ht] at harriving heq ⊢
    rw [hu] at hnode heq hg
    exact hnode.eq_of_unmarked harriving heq ▸ hg
  · intro h
    exact ⟨_, h, rfl⟩

/-- Control departs without marks as it does with them. -/
theorem Reached.depart_unmarked (heffects : plan.setting.effects = .standard)
    (hothers : ∀ c ∈ others, c.Other) {run : Run} {d : Departure} {rest : List Departure}
    (hx : Reached plan (Rule.weakSalt :: others) ⟨run, .leaving (d :: rest)⟩) :
    run.unmarked.depart plan d.unmarked = (run.depart plan d).unmarked := by
  cases d with
  | blocked => rfl
  | into block s =>
    have hvisited := hx.hasVisited_unmarked heffects hothers
    change run.unmarked.enter plan block s.unmarked = (run.enter plan block s).unmarked
    rw [Run.enter_eq, Run.enter_eq, Run.arriving_unmarked, Run.counting_unmarked]
    exact Run.meet_unmarked hvisited

/-- An instruction is executed as it would be without the check for weak salts. -/
theorem Reached.executing_unmarked (heffects : plan.setting.effects = .standard)
    (hothers : ∀ c ∈ others, c.Other) {run : Run} {point : Point} {i : Instruction}
    {rest : List Instruction} {s : State}
    (hx : Reached plan (Rule.weakSalt :: others) ⟨run, .executing point (i :: rest) s⟩) :
    (Situation.unmarked ⟨run, .executing point (i :: rest) s⟩).next plan =
      (Situation.next plan ⟨run, .executing point (i :: rest) s⟩).map Situation.unmarked := by
  obtain ⟨b, hkept, -⟩ :=
    (MarkBook.invariant heffects).kept_reached (Check.Other.standard_cons hothers) hx
  have hs : s.MarkedBy b := hkept.stage s List.mem_cons_self
  have hwatched : (run.count .countStep).Watched := hx.watched hothers
  have hstep := Run.step_unmarked heffects hwatched b.ledger hkept.tracks hs.drawn point i
  have hcount : run.unmarked.count .countStep = (run.count .countStep).unmarked := rfl
  have hsteps : (run.count .countStep).unmarked.statistics.steps =
      (run.count .countStep).statistics.steps := rfl
  simp only [Situation.next, Situation.unmarked, Stage.unmarked, hcount, hsteps, hstep]
  split
  · rfl
  · generalize (run.count .countStep).step plan point i s = r
    obtain ⟨o, run'⟩ := r
    cases o with
    | none => rfl
    | some t =>
      dsimp only [Option.map_some]
      split
      · exact congrArg (fun ds => some (Situation.mk run'.unmarked (.leaving ds)))
          (plan.handlers_unmarked point.block t)
      · rfl

/-- Every move is the move that would be made without the check for weak salts. -/
theorem Situation.next_unmarked (heffects : plan.setting.effects = .standard)
    (hothers : ∀ c ∈ others, c.Other) (hx : Reached plan (Rule.weakSalt :: others) x) :
    x.unmarked.next plan = (x.next plan).map unmarked := by
  obtain ⟨run, stage⟩ := x
  cases stage with
  | idle =>
    have hcancelled : run.unmarked.isCancelled plan = run.isCancelled plan := rfl
    simp only [next, unmarked, Stage.unmarked, hcancelled, run.pop?_unmarked]
    split
    · rfl
    · cases run.worklist.pop? <;> rfl
  | executing point instructions s =>
    cases instructions with
    | nil =>
      exact congrArg (fun ds => some (Situation.mk run.unmarked (.leaving ds)))
        (plan.departures_unmarked point.block s)
    | cons i rest => exact hx.executing_unmarked heffects hothers
  | leaving departures =>
    cases departures with
    | nil => rfl
    | cons d rest =>
      exact congrArg (fun run => some (Situation.mk run (.leaving (rest.map Departure.unmarked))))
        (hx.depart_unmarked heffects hothers)

end Watching

/-- The same plan with other rules wanted. -/
def Plan.wanting (plan : Plan) (rules : Option (SortedSet String)) : Plan :=
  { plan with settings := { plan.settings with enabledChecks := rules } }

/-- Which rules are wanted plays no part in the preparation. -/
theorem Plan.prepare_wanting (p : Procedure) (x : Setting) (settings : Settings)
    (rules : Option (SortedSet String)) (polls : Option Polls) :
    prepare p x { settings with enabledChecks := rules } polls =
      (prepare p x settings polls).map (·.wanting rules) := by
  rw [prepare_under p x settings]
  cases hplan : prepare p x settings polls with
  | error e => rfl
  | ok plan => simp only [Except.map, under, wanting, (prepared hplan).settings]

/-- The rules that are wanted decide which checks there are and nothing else. -/
theorem Situation.next_wanting (plan : Plan) (rules : Option (SortedSet String)) (x : Situation) :
    x.next (plan.wanting rules) = x.next plan := by
  have hstep : ∀ run point i s,
      Run.step (plan.wanting rules) run point i s = Run.step plan run point i s :=
    fun run point i s => Run.step_congr point i (by rfl) run s
  obtain ⟨run, stage⟩ := x
  cases stage with
  | idle => rfl
  | executing point instructions s =>
    cases instructions with
    | nil => rfl
    | cons i rest =>
      simp only [next, hstep]
      rfl
  | leaving departures => cases departures <;> rfl

/-- An exploration with the check for weak salts is in step with one without it. -/
theorem inStep_unmarked {plan : Plan} {others : List Check}
    (heffects : plan.setting.effects = .standard) (hothers : ∀ c ∈ others, c.Other)
    (rules : Option (SortedSet String)) :
    InStep plan (plan.wanting rules)
      fun x y => Reached plan (Rule.weakSalt :: others) x ∧ y = x.unmarked := by
  refine ⟨rfl, rfl, ?_, ?_, ?_⟩
  · rintro ⟨run, stage⟩ _ ⟨-, rfl⟩
    refine ⟨rfl, (Run.reach_unmarked plan run).symm, rfl, ?_, ?_⟩
    · simp only [Situation.unmarked, Run.pop?_unmarked, Option.isSome_map]
    · simp only [Situation.unmarked, Run.nextIsFree, Run.pop?_unmarked]
      cases run.worklist.pop? <;> rfl
  · rintro ⟨run, stage⟩ _ ⟨-, rfl⟩
    cases stage with
    | idle => exact .idle
    | executing => exact .executing
    | leaving => exact .leaving
  · rintro x _ ⟨hx, rfl⟩
    rw [Situation.next_wanting, Situation.next_unmarked heffects hothers hx]
    cases hnext : x.next plan with
    | none => exact .none
    | some y => exact .some ⟨hx.move (Move.iff_next.2 hnext), rfl⟩

/-- The procedure is entered without marks. -/
theorem Situation.entering_unmarked (plan : Plan) (others : List Check)
    (rules : Option (SortedSet String)) :
    (entering plan (.start (Rule.weakSalt :: others))).unmarked =
      entering (plan.wanting rules) (.start others) := by
  obtain ⟨-, hfacts⟩ := Run.bindParameters_bare plan.procedure.parameters
  have hstate : (Run.bindParameters plan.procedure.parameters .start).1.unmarked =
      (Run.bindParameters plan.procedure.parameters .start).1 := by
    unfold State.unmarked
    rw [hfacts]
    exact congrArg (State.mk _ _) hfacts.symm
  exact congrArg (fun s => Situation.mk _ (.leaving [.into plan.entry s])) hstate

/-- What an exploration with the check for weak salts comes to: all is as without the check but for
the diagnostics of its rule. -/
theorem explore_unmarked {plan : Plan} {others : List Check}
    (heffects : plan.setting.effects = .standard) (hothers : ∀ c ∈ others, c.Other)
    (rules : Option (SortedSet String)) :
    ((Run.start (Rule.weakSalt :: others)).explore plan).1 =
        ((Run.start others).explore (plan.wanting rules)).1 ∧
      ((Run.start (Rule.weakSalt :: others)).explore plan).2.finalStatistics =
        ((Run.start others).explore (plan.wanting rules)).2.finalStatistics ∧
      ((Run.start (Rule.weakSalt :: others)).explore plan).2.journal.without Rule.weakSaltId =
        ((Run.start others).explore (plan.wanting rules)).2.journal := by
  obtain ⟨hstatus, x, -, ⟨-, rfl⟩, hx, hy, hstatistics⟩ :=
    (inStep_unmarked heffects hothers rules).explore
      ⟨.refl, (Situation.entering_unmarked plan others rules).symm⟩
  refine ⟨hstatus, ?_, ?_⟩
  · unfold Run.finalStatistics
    rw [hstatistics, hx.supply, hy.supply]
    rfl
  · rw [hx.journal, hy.journal]
    rfl

/-! ## Analyses with the rule and without it -/

/-- Whether both the settings and the sink want a rule. -/
def Settings.wants (settings : Settings) (sink : Sink) (rule : String) : Bool :=
  settings.isEnabled rule && sink.isEnabled rule

/-- Where the rule on salts is wanted, its check comes first, and the other checks are those of an
analysis that does without it. -/
theorem Registry.standard_enabled_cons {settings settings' : Settings} {sink sink' : Sink}
    (hwith : settings.wants sink Rule.weakSaltId = true)
    (hwithout : settings'.wants sink' Rule.weakSaltId = false)
    (hothers : ∀ rule ∈ [Rule.nullDereferenceId, Rule.repeatedDisposeId],
      settings.wants sink rule = settings'.wants sink' rule) :
    standard.enabled settings sink = Rule.weakSalt :: standard.enabled settings' sink' ∧
      ∀ c ∈ standard.enabled settings' sink', c.Other := by
  have hwatched : standard.enabled settings sink = Rule.weakSalt ::
      [Rule.nullDereference, Rule.repeatedDispose].filter (settings.wants sink ·.rule) :=
    (standard_enabled_eq settings sink).trans (List.filter_cons_of_pos hwith)
  have hunwatched : standard.enabled settings' sink' =
      [Rule.nullDereference, Rule.repeatedDispose].filter (settings'.wants sink' ·.rule) :=
    (standard_enabled_eq settings' sink').trans
      (List.filter_cons_of_neg (Bool.eq_false_iff.1 hwithout))
  rw [hwatched, hunwatched]
  refine ⟨congrArg _ (List.filter_congr fun c hc => ?_), fun c hc => ?_⟩
  · exact hothers c.rule (List.mem_map_of_mem hc)
  · have hc := (List.mem_filter.1 hc).1
    simp only [List.mem_cons, List.not_mem_nil, or_false] at hc
    rcases hc with rfl | rfl
    · exact Rule.nullDereference_other
    · exact Rule.repeatedDispose_other

/-- A part of what is delivered is delivered from that part of what was found. -/
theorem Analysis.deliverable_filter (p : Diagnostic → Bool) (status : Status)
    (found : List Diagnostic) :
    (deliverable status found).filter p = deliverable status (found.filter p) := by
  unfold deliverable
  split
  · exact Diagnostic.sorted_filter p found
  · rfl

/-- The rule on salts only observes: whether it is wanted makes no difference to how an analysis
ends, to what is counted, to the notes, and to the diagnostics of the other rules. -/
theorem salt_rule_only_observes (semantics : Semantics) (settings : Settings)
    (rules : Option (SortedSet String)) (sink sink' : Sink) (p : Procedure) (polls : Option Polls)
    (hwith : settings.wants sink Rule.weakSaltId = true)
    (hwithout : { settings with enabledChecks := rules }.wants sink' Rule.weakSaltId = false)
    (hothers : ∀ rule ∈ [Rule.nullDereferenceId, Rule.repeatedDisposeId],
      settings.wants sink rule = { settings with enabledChecks := rules }.wants sink' rule) :
    let watched := Analysis.analyse ⟨semantics, .standard, settings⟩ p sink polls
    let unwatched := Analysis.analyse
      ⟨semantics, .standard, { settings with enabledChecks := rules }⟩ p sink' polls
    watched.exploration.status = unwatched.exploration.status ∧
      watched.exploration.statistics = unwatched.exploration.statistics ∧
      watched.notes = unwatched.notes ∧
      watched.exploration.diagnostics.filter (·.rule != Rule.weakSaltId) =
        unwatched.exploration.diagnostics := by
  obtain ⟨hchecks, hblind⟩ := Registry.standard_enabled_cons hwith hwithout hothers
  unfold Analysis.analyse
  dsimp only
  rw [hchecks, Plan.prepare_wanting p ⟨semantics, .standard⟩ settings rules polls]
  cases hplan : Plan.prepare p ⟨semantics, .standard⟩ settings polls with
  | error e => exact ⟨rfl, rfl, rfl, rfl⟩
  | ok plan =>
    have heffects : plan.setting.effects = .standard := by
      rw [(Plan.prepared hplan).setting]
    obtain ⟨hstatus, hstatistics, hjournal⟩ := explore_unmarked heffects hblind rules
    refine ⟨hstatus, hstatistics, congrArg List.reverse (congrArg Journal.notes hjournal :), ?_⟩
    dsimp only
    rw [Analysis.deliverable_filter, hstatus]
    exact congrArg (fun j : Journal => Analysis.deliverable _ j.report.diagnostics) hjournal

namespace SaltedKey

/-- The salt. -/
def salt : Symbol := ⟨"salt", .localVariable⟩

/-- The key. -/
def key : Symbol := ⟨"key", .localVariable⟩

/-- What the nodes mean. -/
def semantics : Semantics where
  symbol n :=
    if n.val ∈ [3, 10, 13] then some salt
    else if n.val ∈ [5, 6, 12, 16, 19] then some key
    else none
  typeOf n := if n.val = 2 then some "byte[]" else none
  method n :=
    if n.val = 11 then some ⟨"Rfc2898DeriveBytes", "Pbkdf2"⟩
    else if n.val = 14 then some ⟨"RandomNumberGenerator", "GetBytes"⟩
    else if n.val ∈ [17, 20] then some ⟨"Key", "Dispose"⟩
    else none
  constant n := if n.val = 1 then some (.integer 16) else none

/-- As long as there is no key, one is derived and only then the salt is filled with random bytes.
The key is disposed twice. -/
def blocks : List Block := [
  ⟨0, [⟨⟨1⟩, .literal (.integer 16), none⟩, ⟨⟨2⟩, .arrayCreation [⟨1⟩], none⟩,
    ⟨⟨3⟩, .assign, none⟩, ⟨⟨4⟩, .literal .null, none⟩, ⟨⟨5⟩, .assign, none⟩]⟩,
  ⟨1, [⟨⟨6⟩, .identifier, none⟩, ⟨⟨7⟩, .literal .null, none⟩, ⟨⟨8⟩, .binary .equals, none⟩]⟩,
  ⟨2, [⟨⟨9⟩, .literal (.string "password"), none⟩, ⟨⟨10⟩, .identifier, none⟩,
    ⟨⟨11⟩, .invocation [⟨9⟩, ⟨10⟩] false, none⟩, ⟨⟨12⟩, .assign, none⟩,
    ⟨⟨13⟩, .identifier, none⟩, ⟨⟨14⟩, .invocation [⟨13⟩] false, none⟩, ⟨⟨15⟩, .pop, none⟩]⟩,
  ⟨3, [⟨⟨16⟩, .identifier, none⟩, ⟨⟨17⟩, .invocation [] true, none⟩, ⟨⟨18⟩, .pop, none⟩,
    ⟨⟨19⟩, .identifier, none⟩, ⟨⟨20⟩, .invocation [] true, none⟩, ⟨⟨21⟩, .pop, none⟩]⟩]

/-- The edges between the blocks. -/
def edges : List FlowEdge :=
  [⟨0, 1, .jump⟩, ⟨1, 2, .whenTrue⟩, ⟨1, 3, .whenFalse⟩, ⟨2, 1, .jump⟩]

/-- Loops are widened when they are entered for the second time. -/
def sample : Sample := ⟨[], semantics, blocks, edges, 1⟩

/-- The analysis with all rules. -/
def watched : Analysed :=
  Analysis.analyse ⟨sample.semantics, .standard, sample.settings⟩ sample.procedure
    (.withDisabled []) none

/-- The rules besides that on salts. -/
def rules : Option (SortedSet String) :=
  some (.ofMembers [Rule.nullDereferenceId, Rule.repeatedDisposeId])

/-- The analysis with the other rules only. -/
def unwatched : Analysed :=
  Analysis.analyse ⟨sample.semantics, .standard, { sample.settings with enabledChecks := rules }⟩
    sample.procedure (.withDisabled []) none

/-- Both the salt and the repeated disposal are reported, in this order. -/
theorem explored :
    ((Run.start sample.checks).explore sample.plan).1 = .completed ∧
      ((Run.start sample.checks).explore sample.plan).2.finalStatistics.widenings = 2 ∧
      ((Run.start sample.checks).explore sample.plan).2.diagnostics.Pairwise
        (fun a b => (compare a b).isLE = true) ∧
      ((Run.start sample.checks).explore sample.plan).2.diagnostics.map (·.rule) =
        [Rule.weakSaltId, Rule.repeatedDisposeId] := by
  decide +kernel

/-- An analysis delivers both. -/
theorem watched_eq :
    watched.exploration.status = .completed ∧ watched.exploration.statistics.widenings = 2 ∧
      watched.exploration.diagnostics.map (·.rule) =
        [Rule.weakSaltId, Rule.repeatedDisposeId] := by
  obtain ⟨hstatus, hwidenings, hsorted, hrules⟩ := explored
  unfold watched
  rw [sample.exploration_eq (by decide +kernel), hstatus]
  dsimp only [Analysis.deliverable]
  rw [Diagnostic.sorted, List.mergeSort_of_pairwise hsorted]
  exact ⟨rfl, hwidenings, hrules⟩

end SaltedKey

open SaltedKey in
/-- The first key is derived with a salt that is too short. Without the rule that reports this the
loop is widened as often, and the repeated disposal behind it is all that is reported. -/
theorem salt_rule_only_observes_saltedKey :
    (sample.settings.wants (.withDisabled []) Rule.weakSaltId = true ∧
      { sample.settings with enabledChecks := rules }.wants (.withDisabled [])
        Rule.weakSaltId = false ∧
      ∀ rule ∈ [Rule.nullDereferenceId, Rule.repeatedDisposeId],
        sample.settings.wants (.withDisabled []) rule =
          { sample.settings with enabledChecks := rules }.wants (.withDisabled []) rule) ∧
      watched.exploration.diagnostics.map (·.rule) = [Rule.weakSaltId, Rule.repeatedDisposeId] ∧
      unwatched.exploration.status = .completed ∧
      unwatched.exploration.statistics.widenings = 2 ∧
      unwatched.exploration.diagnostics.map (·.rule) = [Rule.repeatedDisposeId] := by
  have hwith : sample.settings.wants (.withDisabled []) Rule.weakSaltId = true := by decide +kernel
  have hwithout : { sample.settings with enabledChecks := rules }.wants (.withDisabled [])
      Rule.weakSaltId = false := by decide +kernel
  have hothers : ∀ rule ∈ [Rule.nullDereferenceId, Rule.repeatedDisposeId],
      sample.settings.wants (.withDisabled []) rule =
        { sample.settings with enabledChecks := rules }.wants (.withDisabled []) rule := by
    decide +kernel
  obtain ⟨hcompleted, hwidenings, hrules⟩ := watched_eq
  refine ⟨⟨hwith, hwithout, hothers⟩, hrules, ?_⟩
  unfold watched at hcompleted hwidenings hrules
  unfold unwatched
  obtain ⟨hstatus, hstatistics, -, hdiagnostics⟩ := salt_rule_only_observes
    sample.semantics sample.settings rules (.withDisabled []) (.withDisabled []) sample.procedure
    none hwith hwithout hothers
  rw [← hstatus, ← hstatistics, ← hdiagnostics]
  refine ⟨hcompleted, hwidenings, ?_⟩
  have hfilter := congrArg (List.filter (· != Rule.weakSaltId)) hrules
  rw [List.filter_map] at hfilter
  exact hfilter

end Pathwise
