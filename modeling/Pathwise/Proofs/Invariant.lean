import Pathwise.Proofs.Calls

/-!
# What every state of a run satisfies

An invariant is a property of states, relative to a book in which the run keeps what its states
have in common: the values made so far, for one. It is enough to say what a step, a departure and an
arrival do to the property. Whatever an exploration reaches then satisfies it, all states by one
book, and the books of two situations continue one another.
-/

namespace Pathwise

/-- A property of states, by a book, that is kept by whatever a run does. -/
structure Invariant (plan : Plan) (B : Type) where
  /-- A book is continued by another. -/
  Continued : B → B → Prop
  /-- A book goes with a supply. -/
  Tracks : B → Supply → Prop
  /-- A state has the property. -/
  Holds : B → State → Prop
  /-- What is known of the states that pass through a check. -/
  Seen : B → State → Prop
  /-- A check keeps the property. -/
  Admits : Check → Prop
  /-- A book is continued by itself. -/
  refl : ∀ b, Continued b b
  /-- What continues a continued book continues the book. -/
  trans : ∀ {b b' b'' : B}, Continued b b' → Continued b' b'' → Continued b b''
  /-- What holds by a book holds by what continues it. -/
  grow : ∀ {b b' : B} {s : State}, Continued b b' → Holds b s → Holds b' s
  /-- It holds when the procedure is entered. -/
  entering : ∃ b, Tracks b (Run.bindParameters plan.procedure.parameters .start).2 ∧
    Holds b (Run.bindParameters plan.procedure.parameters .start).1
  /-- Steps keep it. -/
  step : ∀ {b : B} {run run' : Run} {point : Point} {i : Instruction} {s : State}
      {o : Option State},
    (∀ slot ∈ run.slots, Admits slot.check) → Tracks b run.supply → Holds b s →
    run.step plan point i s = (o, run') →
      ∃ b', Continued b b' ∧ Tracks b' run'.supply ∧ (∀ s', o = some s' → Holds b' s') ∧
        ∀ c ∈ run.stepCalls plan point i s, ∀ t ∈ c.states, Seen b' t
  /-- Departures keep it. -/
  departing : ∀ {b : B} {σ : Supply} {index : Nat} {s : State}, Tracks b σ → Holds b s →
    ∀ t ∈ (Stage.leaving (plan.departures index s)).states, Holds b t
  /-- Departures by an exception keep it. -/
  raising : ∀ {b : B} {index : Nat} {s : State}, Holds b s →
    ∀ t ∈ (Stage.leaving (plan.handlers index s)).states, Holds b t
  /-- Arrivals keep it. -/
  arriving : ∀ {b : B} {run : Run} {s : State}, Tracks b run.supply → Holds b s → ∀ block : Nat,
    ∃ b', Continued b b' ∧ Tracks b' (run.counting plan block s).supply ∧
      Holds b' (run.arriving plan block s).state

namespace Invariant

variable {plan : Plan} {B : Type} {I : Invariant plan B} {b : B} {x y : Situation}
  {run run' : Run} {stage stage' : Stage} {checks : List Check}

/-- All states of a situation satisfy an invariant by one book. -/
structure Kept (I : Invariant plan B) (x : Situation) (b : B) : Prop where
  /-- The book goes with the supply. -/
  tracks : I.Tracks b x.run.supply
  /-- The checks keep the invariant. -/
  admits : ∀ slot ∈ x.run.slots, I.Admits slot.check
  /-- The states of the stage. -/
  stage : ∀ s ∈ x.stage.states, I.Holds b s
  /-- The states on the worklist. -/
  worklist : ∀ node ∈ x.run.worklist.toList, I.Holds b node.state

/-- The same invariant for fewer checks. -/
def restrict (I : Invariant plan B) {C : Check → Prop} (h : ∀ c, C c → I.Admits c) :
    Invariant plan B :=
  { I with
    Admits := C
    step := fun hslots => I.step fun slot hslot => h slot.check (hslots slot hslot) }

namespace Kept

/-- The part that does not depend on what changes. -/
theorem extend (h : I.Kept ⟨run, stage⟩ b) {b' : B} (hb : I.Continued b b')
    (htracks : I.Tracks b' run'.supply)
    (hslots : run'.slots.map Slot.check = run.slots.map Slot.check)
    (hstage : ∀ s ∈ stage'.states, I.Holds b' s)
    (hworklist : ∀ node ∈ run'.worklist.toList,
      node ∈ run.worklist.toList ∨ I.Holds b' node.state) : I.Kept ⟨run', stage'⟩ b' where
  tracks := htracks
  admits := Run.forall_check_of_eq hslots h.admits
  stage := hstage
  worklist := by
    intro node hnode
    rcases hworklist node hnode with hnode | hnode
    · exact I.grow hb (h.worklist node hnode)
    · exact hnode

/-- What a step of an instruction keeps. -/
theorem executing {point : Point} {i : Instruction} {rest : List Instruction} {s : State}
    {o : Option State} (h : I.Kept ⟨run, .executing point (i :: rest) s⟩ b)
    (hbudget : run.statistics.steps < plan.settings.maxSteps)
    (hstep : (run.count .countStep).step plan point i s = (o, run')) :
    ∃ b', I.Continued b b' ∧ (∀ s', o = some s' → I.Holds b' s') ∧
      (∀ c ∈ Situation.calls plan ⟨run, .executing point (i :: rest) s⟩, ∀ t ∈ c.states,
        I.Seen b' t) ∧
      ∀ {stage' : Stage}, (∀ s' ∈ stage'.states, I.Holds b' s') → I.Kept ⟨run', stage'⟩ b' := by
  have hadmits : ∀ slot ∈ (run.count .countStep).slots, I.Admits slot.check := h.admits
  obtain ⟨b', hb, htracks, hholds, hseen⟩ :=
    I.step hadmits h.tracks (h.stage s List.mem_cons_self) hstep
  have hslots : run'.slots.map Slot.check = run.slots.map Slot.check := by
    have hslots := Run.step_checks plan (run.count .countStep) point i s
    rw [hstep] at hslots
    exact hslots
  have hworklist : run'.worklist = run.worklist := (Run.step_fields hstep).1
  refine ⟨b', hb, hholds, ?_, fun hstage => ?_⟩
  · rw [Situation.calls_executing hbudget]
    exact hseen
  · exact h.extend hb htracks hslots hstage fun node hnode => .inl (hworklist ▸ hnode)

/-- Every move keeps an invariant. -/
theorem move (h : I.Kept x b) (hmove : Move plan x y) :
    ∃ b', I.Continued b b' ∧ I.Kept y b' ∧ ∀ c ∈ x.calls plan, ∀ t ∈ c.states, I.Seen b' t := by
  have hrefl := I.refl b
  have hnone : ∀ {b' : B}, ∀ c ∈ ([] : List HookCall), ∀ t ∈ c.states, I.Seen b' t :=
    fun c hc => (nomatch hc)
  cases hmove with
  | @take run node rest _ hpop =>
    have hlist := Queue.toList_of_pop? hpop
    refine ⟨b, hrefl, h.extend hrefl h.tracks rfl ?_ ?_, hnone⟩
    · have hnode := h.worklist node (hlist ▸ List.mem_cons_self)
      simpa [Stage.states] using hnode
    · exact fun other hother => .inl (hlist ▸ List.mem_cons_of_mem _ hother)
  | @finish run point s =>
    have hs : I.Holds b s := h.stage s List.mem_cons_self
    exact ⟨b, hrefl, h.extend hrefl h.tracks rfl (I.departing h.tracks hs) fun _ => .inl, hnone⟩
  | prune hbudget hstep =>
    obtain ⟨b', hb, -, hseen, hkept⟩ := h.executing hbudget hstep
    have hidle : I.Kept ⟨_, .idle⟩ b' := hkept (by simp [Stage.states])
    exact ⟨b', hb, ⟨hidle.tracks, hidle.admits, hidle.stage, hidle.worklist⟩, hseen⟩
  | raise hbudget hstep _ =>
    obtain ⟨b', hb, hs', hseen, hkept⟩ := h.executing hbudget hstep
    exact ⟨b', hb, hkept (I.raising (hs' _ rfl)), hseen⟩
  | proceed hbudget hstep _ =>
    obtain ⟨b', hb, hs', hseen, hkept⟩ := h.executing hbudget hstep
    exact ⟨b', hb, hkept (by simpa [Stage.states] using hs' _ rfl), hseen⟩
  | @depart run d rest =>
    have hrest : ∀ b', I.Continued b b' → ∀ s ∈ (Stage.leaving rest).states, I.Holds b' s :=
      fun b' hb s hs => I.grow hb (h.stage s (List.mem_append_right _ hs))
    cases d with
    | blocked => exact ⟨b, hrefl, h.extend hrefl h.tracks rfl (hrest b hrefl) fun _ => .inl, hnone⟩
    | into block s =>
      have hs : I.Holds b s := h.stage s (List.mem_append_left _ List.mem_cons_self)
      obtain ⟨b', hb, htracks, harriving⟩ := I.arriving h.tracks hs block
      obtain ⟨hslots, hsupply, -⟩ := Run.enter_fields plan run block s
      refine ⟨b', hb, h.extend hb (hsupply ▸ htracks) (congrArg _ hslots) (hrest b' hb) ?_, hnone⟩
      intro node hnode
      rcases Run.enter_cases plan run block s with ⟨-, hlist, -⟩ | ⟨-, hlist, -⟩
      · exact .inl (hlist ▸ hnode)
      · rcases List.mem_append.1 (hlist ▸ hnode) with hnode | hnode
        · exact .inl hnode
        · obtain rfl := List.mem_singleton.1 hnode
          exact .inr harriving
  | settle =>
    exact ⟨b, hrefl, h.extend hrefl h.tracks rfl (by simp [Stage.states]) fun _ => .inl, hnone⟩

theorem leads (h : I.Kept x b) (hleads : Leads plan x y) :
    ∃ b', I.Continued b b' ∧ I.Kept y b' := by
  induction hleads with
  | refl => exact ⟨b, I.refl b, h⟩
  | tail _ hmove ih =>
    obtain ⟨b', hb, hy⟩ := ih
    obtain ⟨b'', hb', hz, -⟩ := hy.move hmove
    exact ⟨b'', I.trans hb hb', hz⟩

end Kept

theorem kept_entering (I : Invariant plan B) (hchecks : ∀ c ∈ checks, I.Admits c) :
    ∃ b, I.Kept (.entering plan (.start checks)) b := by
  obtain ⟨b, htracks, hholds⟩ := I.entering
  refine ⟨b, htracks, fun slot hslot => ?_, fun s hs => ?_, fun node hnode => nomatch hnode⟩
  · obtain ⟨c, hc, rfl⟩ := List.mem_map.1 hslot
    exact hchecks c hc
  · obtain rfl : s = (Run.bindParameters plan.procedure.parameters .start).1 := by
      simpa [Situation.entering, Stage.states, Departure.states, Run.start] using hs
    exact hholds

/-- Whatever an exploration reaches satisfies the invariant, and so did all nodes met before. -/
theorem kept_reached (I : Invariant plan B) (hchecks : ∀ c ∈ checks, I.Admits c)
    (hx : Reached plan checks x) :
    ∃ b, I.Kept x b ∧ ∀ block f, x.run.hasVisited block f = true →
      ∃ node, Met plan checks node ∧ node.point.block = block ∧ node.state.fingerprint = f ∧
        I.Holds b node.state := by
  induction hx with
  | refl =>
    obtain ⟨b, hb⟩ := I.kept_entering hchecks
    refine ⟨b, hb, fun block f hf => ?_⟩
    simp [Situation.entering, Run.start, Run.hasVisited] at hf
  | @tail y z hy hmove ih =>
    obtain ⟨b, hkept, hvisited⟩ := ih
    obtain ⟨b', hb, hz, -⟩ := hkept.move hmove
    refine ⟨b', hz, fun block f hf => ?_⟩
    rcases hmove.visited_cases hf with hf | ⟨node, hnode, hblock, hfingerprint⟩
    · obtain ⟨node, hmet, hblock, hfingerprint, hholds⟩ := hvisited block f hf
      exact ⟨node, hmet, hblock, hfingerprint, I.grow hb hholds⟩
    · have hreached : Reached plan checks z := Reached.move hy hmove
      exact ⟨node, ⟨z, hreached, hnode⟩, hblock, hfingerprint, hz.worklist node hnode⟩

end Invariant

/-- Of two situations of an exploration the one leads to the other. -/
theorem Reached.total {plan : Plan} {checks : List Check} {x y : Situation}
    (hx : Reached plan checks x) (hy : Reached plan checks y) : Leads plan x y ∨ Leads plan y x :=
  Relation.ReflTransGen.total_of_right_unique (fun _ _ _ => Move.unique) hx hy

/-- All nodes that are met satisfy the invariant, any two of them by one book. -/
theorem Invariant.met_pair {plan : Plan} {B : Type} (I : Invariant plan B) {checks : List Check}
    (hchecks : ∀ c ∈ checks, I.Admits c) {node node' : Node} (h : Met plan checks node)
    (h' : Met plan checks node') :
    ∃ b σ, I.Tracks b σ ∧ I.Holds b node.state ∧ I.Holds b node'.state := by
  have hlater : ∀ {x y : Situation} {n m : Node}, Reached plan checks x → Leads plan x y →
      n ∈ x.run.worklist.toList → m ∈ y.run.worklist.toList →
      ∃ b σ, I.Tracks b σ ∧ I.Holds b n.state ∧ I.Holds b m.state := by
    intro x y n m hx hleads hn hm
    obtain ⟨b, hkept, -⟩ := I.kept_reached hchecks hx
    obtain ⟨b', hb, hkept'⟩ := hkept.leads hleads
    exact ⟨b', _, hkept'.tracks, I.grow hb (hkept.worklist n hn), hkept'.worklist m hm⟩
  obtain ⟨x, hx, hnode⟩ := h
  obtain ⟨y, hy, hnode'⟩ := h'
  rcases hx.total hy with hleads | hleads
  · exact hlater hx hleads hnode hnode'
  · obtain ⟨b, σ, htracks, hm, hn⟩ := hlater hy hleads hnode' hnode
    exact ⟨b, σ, htracks, hn, hm⟩

end Pathwise
