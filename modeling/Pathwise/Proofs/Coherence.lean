import Pathwise.Proofs.Lasting

/-!
# All values of a run come from one ledger

Every move of a run with the checks of this library extends its ledger at the end, if at all, and
all states at hand stay drawn from it: those on the worklist, those of the current stage, and those
that were met before. So the identities in two states of a run can be compared, and two nodes of
one block with the same fingerprint have the same state.
-/

namespace Pathwise

variable {plan : Plan} {checks : List Check} {l : List Value}

theorem Outline.apply_drawnFrom {o : Outline} {s : State} (hs : s.DrawnFrom l)
    (ho : ∀ v, o.Mentions v → v ∈ l) : (o.apply s).DrawnFrom l := by
  refine apply_induction (P := fun t => t.DrawnFrom l) (fun x v hv => ?_) (fun w hw t ht => ?_)
    (fun v hv t ht => ?_) hs
  · exact hs.bind x (ho v (.inl ⟨x, hv⟩))
  · exact ht.overwrite (ho w.1 (.inr (.inl ⟨w.2, hw⟩)))
  · exact ht.push (ho v (.inr (.inr hv)))

namespace Run

variable {run run' : Run} {s : State}

/-- A step makes what the instruction issues, and nothing else comes in sight. -/
theorem step_issues {point : Point} {i : Instruction} {o : Option State} (hrun : run.Standard)
    (h : run.step plan point i s = (o, run')) :
    ∃ σ j new, run' = { run with supply := σ, journal := j } ∧ Issues s run.supply new σ ∧
      ∀ s', o = some s' → (∀ v, s'.InSight v → s.InSight v ∨ v ∈ new) ∧
        ∀ l, Ledger l → Ledger (l ++ new) → s.DrawnFrom l → s'.DrawnFrom (l ++ new) := by
  obtain ⟨new, hissues, hmentions⟩ := plan.setting.outline_drawsOn run.supply s i
  rcases step_cases plan point i hrun s with
    ⟨σ, j, hstep, hσ⟩ | ⟨s₁, s', j, hstep, hs₁, hs'⟩
  · obtain ⟨rfl, rfl⟩ := Prod.mk.inj (h.symm.trans hstep)
    rcases hσ with rfl | rfl
    · exact ⟨_, j, [], rfl, .nothing, by simp⟩
    · exact ⟨_, j, new, rfl, hissues, by simp⟩
  · obtain ⟨rfl, rfl⟩ := Prod.mk.inj (h.symm.trans hstep)
    refine ⟨_, j, new, rfl, hissues, fun t heq => ?_⟩
    obtain rfl := Option.some.inj heq
    refine ⟨fun v hv => ?_, fun l hl hl' hs => ?_⟩
    · refine Outline.inSight_apply
        (t := { s₁ with stack := s₁.stack.drop i.operation.operandCount }) hissues hmentions
        hs₁.bindings (fun w hw => ?_) (hs'.inSight hv)
      exact hs₁.stack ▸ List.mem_of_mem_drop hw
    · have hgrow : l <+: l ++ new := List.prefix_append _ _
      refine hs'.drawnFrom hl' (Outline.apply_drawnFrom ?_ fun v hv => ?_)
      · exact ((hs₁.drawnFrom hl hs).mono hgrow).drop _
      · rcases hmentions v hv with hv | hv
        · exact List.mem_append_left _ (hv.mem hl hs)
        · exact List.mem_append_right _ hv

end Run

/-! ## Fingerprints -/

/-- Lists whose images agree are equal if something takes the images back. -/
theorem eq_of_map_eq_map {α β : Type} {f : α → β} (g : β → α) {as bs : List α}
    (ha : ∀ a ∈ as, g (f a) = a) (hb : ∀ b ∈ bs, g (f b) = b) (h : as.map f = bs.map f) :
    as = bs := by
  have hback : ∀ cs : List α, (∀ c ∈ cs, g (f c) = c) → (cs.map f).map g = cs := by
    intro cs hcs
    rw [List.map_map]
    exact (List.map_congr_left hcs).trans (List.map_id' cs)
  rw [← hback as ha, h, hback bs hb]

/-- Among states drawn from one ledger the fingerprint tells states apart: the ledger takes each
identity back to its value. -/
theorem State.eq_of_fingerprint {s t : State} (hl : Ledger l) (hs : s.DrawnFrom l)
    (ht : t.DrawnFrom l) (h : s.fingerprint = t.fingerprint) : s = t := by
  have hvalue : ∀ v ∈ l, l[v.id]?.getD .unknown = v := by
    intro v hv
    rw [hl.getElem?_id hv, Option.getD_some]
  have hbinding : ∀ s : State, s.DrawnFrom l → ∀ e ∈ s.bindings.entries,
      (e.1, l[e.2.id]?.getD .unknown) = e := by
    intro s hs e he
    rw [hvalue _ (hs.lookup_mem (SortedMap.get?_eq_some_iff.2 he))]
  have hfact : ∀ s : State, s.DrawnFrom l → ∀ e ∈ s.facts.entries,
      (e.1, Fact.mk (l[e.1]?.getD .unknown) e.2.held) = e := by
    intro s hs e he
    obtain ⟨hmem, hid, _⟩ := hs.fact_mem (SortedMap.get?_eq_some_iff.2 he)
    rw [← hid, hvalue _ hmem, hid]
  have hbindings : s.bindings.entries = t.bindings.entries :=
    eq_of_map_eq_map (fun e : Nat × Symbol => (e.2, l[e.1]?.getD .unknown)) (hbinding s hs)
      (hbinding t ht) (congrArg Fingerprint.bindings h)
  have hstack : s.stack = t.stack :=
    eq_of_map_eq_map (fun i : Nat => l[i]?.getD .unknown) (fun v hv => hvalue v (hs.stack_mem hv))
      (fun v hv => hvalue v (ht.stack_mem hv)) (congrArg Fingerprint.stack h)
  have hfacts : s.facts.entries = t.facts.entries :=
    eq_of_map_eq_map (fun e : Nat × ConstraintSet => (e.1, Fact.mk (l[e.1]?.getD .unknown) e.2))
      (hfact s hs) (hfact t ht) (congrArg Fingerprint.facts h)
  refine State.ext_get? (SortedMap.eq_of_entries hbindings) hstack fun i => ?_
  rw [SortedMap.eq_of_entries hfacts]

/-! ## The invariant -/

/-- All values of a situation come from one ledger. -/
structure Situation.Drawn (x : Situation) (l : List Value) : Prop where
  /-- The ledger is one. -/
  ledger : Ledger l
  /-- The supply goes with it. -/
  tracks : x.run.supply.Tracks l
  /-- The checks are those of this library. -/
  standard : x.run.Standard
  /-- The states of the stage are drawn from it. -/
  stage : ∀ s ∈ x.stage.states, s.DrawnFrom l
  /-- The states on the worklist are drawn from it. -/
  worklist : ∀ node ∈ x.run.worklist.toList, node.state.DrawnFrom l

/-- That all values come from one ledger is an invariant of explorations with the checks of this
library. -/
def Ledger.invariant (plan : Plan) : Invariant plan (List Value) :=
  (State.DrawnFrom.lasting plan.setting).invariant.restrict (C := Check.Standard) fun _ hc =>
    hc.keeps id (fun hl hv hassume hs => hs.assume hl hv hassume) fun _ hv hs => hs.overwrite hv

namespace Situation

variable {x y : Situation}

theorem drawn_iff_kept : x.Drawn l ↔ (Ledger.invariant plan).Kept x l :=
  ⟨fun h => ⟨⟨h.ledger, h.tracks⟩, h.standard, h.stage, h.worklist⟩,
    fun h => ⟨h.tracks.1, h.tracks.2, h.admits, h.stage, h.worklist⟩⟩

/-- Every move extends the ledger and stays within it. -/
theorem Drawn.move (h : x.Drawn l) (hmove : Move plan x y) : ∃ ext, y.Drawn (l ++ ext) := by
  obtain ⟨_, ⟨ext, rfl⟩, hy, -⟩ := (drawn_iff_kept.1 h).move hmove
  exact ⟨ext, drawn_iff_kept.2 hy⟩

theorem Drawn.leads (h : x.Drawn l) (hleads : Leads plan x y) : ∃ l', l <+: l' ∧ y.Drawn l' := by
  obtain ⟨l', hgrows, hy⟩ := (drawn_iff_kept.1 h).leads hleads
  exact ⟨l', hgrows, drawn_iff_kept.2 hy⟩

/-- An exploration starts from one ledger. -/
theorem entering_drawn (plan : Plan) (hchecks : ∀ c ∈ checks, c.Standard) :
    ∃ l, Drawn (.entering plan (.start checks)) l := by
  obtain ⟨l, hl⟩ := (Ledger.invariant plan).kept_entering hchecks
  exact ⟨l, drawn_iff_kept.2 hl⟩

end Situation

/-- All values of a situation come from one ledger, those of the nodes met before included. -/
structure Situation.Coherent (plan : Plan) (checks : List Check) (x : Situation) (l : List Value) :
    Prop extends x.Drawn l where
  /-- What counts as visited is the fingerprint of a node that was met. -/
  visited : ∀ block f, x.run.hasVisited block f = true →
    ∃ node, Met plan checks node ∧ node.point.block = block ∧ node.state.fingerprint = f ∧
      node.state.DrawnFrom l

/-- All values of whatever an exploration reaches come from one ledger. -/
theorem Reached.coherent (hchecks : ∀ c ∈ checks, c.Standard) {x : Situation}
    (hx : Reached plan checks x) : ∃ l, x.Coherent plan checks l := by
  obtain ⟨l, hkept, hvisited⟩ := (Ledger.invariant plan).kept_reached hchecks hx
  exact ⟨l, Situation.drawn_iff_kept.2 hkept, hvisited⟩

/-- Checks of this library are all called as long as the exploration goes on. -/
theorem Reached.slots_eq (hchecks : ∀ c ∈ checks, c.Standard) {x : Situation}
    (hx : Reached plan checks x) : x.run.slots = (Run.start checks).slots := by
  induction hx with
  | refl => rfl
  | @tail y z hy hmove ih =>
    have hstandard : (y.run.count .countStep).Standard := by
      intro slot hslot
      have hslot : slot ∈ y.run.slots := hslot
      rw [ih] at hslot
      obtain ⟨c, hc, rfl⟩ := List.mem_map.1 hslot
      exact hchecks c hc
    cases hmove with
    | take | finish | settle => exact ih
    | prune _ hstep | raise _ hstep _ | proceed _ hstep _ =>
      obtain ⟨σ, j, new, rfl, -⟩ := Run.step_issues hstandard hstep
      exact ih
    | @depart run d rest =>
      cases d with
      | blocked => exact ih
      | into block s => exact (Run.enter_fields plan run block s).1.trans ih

end Pathwise
