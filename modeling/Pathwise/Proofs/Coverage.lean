import Pathwise.Proofs.FlowGraph
import Pathwise.Proofs.Simulation
import Pathwise.Proofs.Widening

/-!
# A completed exploration covers every execution

Whenever an execution of the procedure arrives at a block, a completed exploration has met a node
of that block whose state describes the memory. The proof goes along the execution: the instructions
of a block are followed step by step, the edge that is taken is among the departures, and on arrival
the state is cleaned or widened, or it was met before. Two things are asked for. Comparisons have to
compare like with like, since that a value is not true counts as its being false. And no widening
may capture a value, since it would then lose memories.
-/

namespace Pathwise

variable {plan : Plan} {checks : List Check} {ν : Valuation} {s : State} {m m' m'' : Memory}

/-- A node of a block has been met whose state follows a memory. -/
def Covers (plan : Plan) (checks : List Check) (block : Nat) (m : Memory) : Prop :=
  ∃ node ν, Met plan checks node ∧ node.point.block = block ∧ node.state.Follows ν m

/-- No widening of the exploration captures a value. -/
def NeverCaptures (plan : Plan) (checks : List Check) : Prop :=
  ∀ run block s rest, Reached plan checks ⟨run, .leaving (.into block s :: rest)⟩ →
    run.Widens plan block → s.clean.CapturesNothing block (plan.assignedAt block)

/-! ## Arrivals -/

theorem State.Follows.clean (h : s.Follows ν m) : s.clean.Follows ν m :=
  ⟨h.models.clean, h.typed⟩

theorem State.Follows.clearStack (h : s.Follows ν m) :
    s.clearStack.Follows ν { m with stack := [] } where
  models := h.models.clearStack
  typed := by
    rintro v ⟨r, hr, hpart⟩
    refine h.typed ⟨r, ?_, hpart⟩
    rcases mem_roots.1 hr with hr | hr
    · exact mem_roots.2 (.inl hr)
    · cases hr

/-- A widened state follows what the state before followed, unless something is captured. -/
theorem State.WidenedAs.follows {header : Nat} {symbols : List Symbol} {l : List Value} {t : State}
    (hw : WidenedAs header symbols l s t) (hl : Ledger l) (hs : s.DrawnFrom l) (ht : t.DrawnFrom l)
    (hnothing : s.CapturesNothing header symbols) (h : s.Follows ν m) :
    t.clean.Follows (ν.rebase l header symbols m.store) m := by
  have hfits := h.models.fitsSurvivors hl hs hnothing
  refine ⟨hw.models_rebase hl hs ht hfits, fun hv => ?_⟩
  rcases hw.survives_of_live hv with hv | ⟨x, _, id, rfl⟩
  · exact (h.typed hv.live).congr fun u hu => (hfits.rebase_id hl hs (hv.part hu)).symm
  · exact Value.wellTyped_of_operands_nil rfl

/-- Control arrives with a state that follows what the departing state followed. -/
theorem Run.arriving_follows {run : Run} {block : Nat} {l : List Value} (hl : Ledger l)
    (ht : run.supply.Tracks l) (hs : s.DrawnFrom l)
    (hnothing : run.Widens plan block → s.clean.CapturesNothing block (plan.assignedAt block))
    (h : s.Follows ν m) : ∃ ν', (run.arriving plan block s).state.Follows ν' m := by
  simp only [arriving]
  split
  · next hwidens =>
    obtain ⟨ext, t, hl', _, ht, heq, hw⟩ := widen_spec plan block hl ht hs.clean
    have hs' := hs.clean.mono (List.prefix_append l ext)
    exact ⟨_, heq ▸ hw.follows hl' hs' ht (hnothing hwidens) h.clean⟩
  · exact ⟨ν, h.clean⟩

/-- The node with which control arrives is met, or its state was met before. -/
theorem Reached.covers {run : Run} {block : Nat} {rest : List Departure}
    (hchecks : ∀ c ∈ checks, c.Standard) (hcapture : NeverCaptures plan checks)
    (hx : Reached plan checks ⟨run, .leaving (.into block s :: rest)⟩) (h : s.Follows ν m) :
    Covers plan checks block m := by
  obtain ⟨l, hl⟩ := hx.coherent hchecks
  have hs : s.DrawnFrom l := hl.stage s (List.mem_append_left _ List.mem_cons_self)
  obtain ⟨ν', hfollows⟩ :=
    Run.arriving_follows hl.ledger hl.tracks hs (hcapture run block s rest hx) h
  rcases Run.enter_cases plan run block s with ⟨hvisited, -, -⟩ | ⟨-, hlist, -⟩
  · obtain ⟨node, hmet, hblock, hfingerprint, hdrawn⟩ := hl.visited block _ hvisited
    obtain ⟨ext, hl', _, harriving⟩ :=
      (State.DrawnFrom.lasting plan.setting).arriving hl.ledger hl.tracks hs block
    have hsame : node.state = (run.arriving plan block s).state :=
      State.eq_of_fingerprint hl' (hdrawn.mono (List.prefix_append l ext)) harriving hfingerprint
    exact ⟨node, ν', hmet, hblock, hsame ▸ hfollows⟩
  · refine ⟨run.arriving plan block s, ν', ⟨_, hx.move .depart, ?_⟩, rfl, hfollows⟩
    exact hlist ▸ List.mem_append_right _ List.mem_cons_self

/-! ## Edges -/

theorem State.Follows.pop {d : Datum} {rest : List Datum} (h : s.Follows ν m)
    (hstack : m.stack = d :: rest) :
    s.pop.1.datum ν = d ∧ s.pop.2.Follows ν { m with stack := rest } := by
  have hpeek := h.models.peek (n := 0) (by simp [hstack])
  have hdrop := h.drop 1
  rw [hstack] at hpeek hdrop
  rw [pop_eq]
  exact ⟨(Option.some.inj hpeek).symm, hdrop⟩

/-- The side of a branch that goes with the condition is never refused. -/
theorem Departure.follows_ofBranch {l : List Value} {d : Datum} {rest : List Datum} (tail : Nat)
    (truth : Truth) (hl : Ledger l) (hs : s.DrawnFrom l) (h : s.Follows ν m)
    (hstack : m.stack = d :: rest) (hd : (Constraint.truth truth).TrueOf d) :
    ∃ s', ofBranch tail truth s.pop.1 s.pop.2 = .into tail s' ∧
      s'.Follows ν { m with stack := rest } := by
  obtain ⟨hcondition, hpopped⟩ := h.pop hstack
  have hdrawn : s.pop.2.DrawnFrom l := by
    rw [State.pop_eq]
    exact hs.drop 1
  have hoffers : s.Offers s.pop.1 := by
    rw [State.pop_eq]
    exact s.offers_peek 0
  obtain ⟨s', hassume, hfits⟩ := State.Fits.assume (c := .truth truth) hl ⟨hpopped.models, hdrawn⟩
    (hoffers.mem hl hs) (h.offers_typed hoffers) (.inr rfl) (hcondition ▸ hd)
  refine ⟨s', by rw [ofBranch, hassume], hfits.models, fun hv => hpopped.typed ?_⟩
  obtain ⟨hbindings, hk⟩ := State.bindings_stack_assume hassume
  unfold State.Live State.roots at hv ⊢
  rwa [hbindings, hk] at hv

/-- The two sides of a branch to one block have the same tail. -/
theorem Run.tail_eq_of_sameTarget {edges : List FlowEdge} {e e' : FlowEdge}
    (h : sameTarget edges = true) (he : e ∈ edges) (he' : e' ∈ edges)
    (hbranch : e.label.isBranch = true) (hbranch' : e'.label.isBranch = true) :
    e.tail = e'.tail := by
  unfold sameTarget at h
  split at h
  · next a b htails =>
    have hmem : ∀ e ∈ edges, e.label.isBranch = true → e.tail ∈ [a, b] := fun e he hbranch =>
      htails ▸ List.mem_map.2 ⟨e, List.mem_filter.2 ⟨he, hbranch⟩, rfl⟩
    obtain rfl : a = b := beq_iff_eq.1 h
    have htail := hmem e he hbranch
    have htail' := hmem e' he' hbranch'
    simp_all
  · cases h

/-- The edge that is taken is among the departures, or another one to the same block. -/
theorem Takes.departs {block : Nat} {e : FlowEdge} {l : List Value} {b : Block}
    (hshape : FlowGraph.malformation? b (plan.edgesOut block) = none)
    (he : e ∈ plan.edgesOut block) (htakes : Takes e m m') (hl : Ledger l) (hs : s.DrawnFrom l)
    (h : s.Follows ν m) :
    ∃ s', .into e.tail s' ∈ plan.departures block s ∧ s'.Follows ν m' := by
  have hmem : ∀ {e' : FlowEdge} {d : Departure}, e' ∈ plan.edgesOut block →
      Departure.ofEdge (Run.sameTarget (plan.edgesOut block)) s e' = some d →
      d ∈ plan.departures block s := fun he' hd => List.mem_filterMap.2 ⟨_, he', hd⟩
  -- a merged branch departs through its first side, whatever the condition
  have hmerged : ∀ {d : Datum} {rest : List Datum}, e.label.isBranch = true → m.stack = d :: rest →
      Run.sameTarget (plan.edgesOut block) = true →
      ∃ s', .into e.tail s' ∈ plan.departures block s ∧ s'.Follows ν { m with stack := rest } := by
    intro d rest hbranch hstack hsame
    obtain ⟨e', he', hlabel'⟩ : ∃ e' ∈ plan.edgesOut block, e'.label = .whenTrue := by
      rcases FlowGraph.malformation?_eq_none hshape with hnone | ⟨-, hexists, -⟩
      · simp [hnone e he] at hbranch
      · exact hexists
    refine ⟨s.pop.2, hmem he' ?_, (h.pop hstack).2⟩
    rw [Departure.ofEdge, hlabel', if_pos hsame,
      Run.tail_eq_of_sameTarget hsame he he' hbranch (by simp [hlabel', Transfer.isBranch])]
  cases htakes with
  | jump hlabel => exact ⟨s, hmem he (by rw [Departure.ofEdge, hlabel]), h⟩
  | exceptional hlabel =>
    exact ⟨s.clearStack, hmem he (by rw [Departure.ofEdge, hlabel]), h.clearStack⟩
  | whenTrue hlabel hstack =>
    by_cases hsame : Run.sameTarget (plan.edgesOut block) = true
    · exact hmerged (by simp [hlabel, Transfer.isBranch]) hstack hsame
    · obtain ⟨s', hbranch, hs'⟩ := Departure.follows_ofBranch e.tail .holds hl hs h hstack rfl
      exact ⟨s', hmem he (by simp [Departure.ofEdge, hlabel, hsame, hbranch]), hs'⟩
  | whenFalse hlabel hstack =>
    by_cases hsame : Run.sameTarget (plan.edgesOut block) = true
    · exact hmerged (by simp [hlabel, Transfer.isBranch]) hstack hsame
    · obtain ⟨s', hbranch, hs'⟩ := Departure.follows_ofBranch e.tail .fails hl hs h hstack rfl
      exact ⟨s', hmem he (by simp [Departure.ofEdge, hlabel, hsame, hbranch]), hs'⟩

/-! ## Blocks -/

namespace Reached

variable {run end' : Run} {point : Point} {i : Instruction} {rest : List Instruction}

/-- A completed exploration is within its bounds. -/
theorem steps_lt (hend : (Run.start checks).explore plan = (.completed, end'))
    (hx : Reached plan checks ⟨run, .executing point (i :: rest) s⟩) :
    run.statistics.steps < plan.settings.maxSteps := by
  obtain ⟨y, hy⟩ := hx.exists_move hend (by simp)
  cases hy with
  | prune hbudget _ | raise hbudget _ _ | proceed hbudget _ _ => exact hbudget

/-- An instruction that can be performed is followed. -/
theorem step_follows (heffects : plan.setting.effects = .standard)
    (hchecks : ∀ c ∈ checks, c.Standard)
    (hx : Reached plan checks ⟨run, .executing point (i :: rest) s⟩) (h : s.Follows ν m)
    (hp : Performs plan.setting Datum.Alike i m m') :
    ∃ s' run' ν', (run.count .countStep).step plan point i s = (some s', run') ∧
      s'.Follows ν' m' := by
  obtain ⟨l, hl⟩ := hx.coherent hchecks
  have hstandard : (run.count .countStep).Standard := hl.standard
  exact Run.step_follows point heffects hstandard hl.ledger hl.tracks
    (hl.stage s List.mem_cons_self) h hp

/-- Instructions that can be performed one after the other are followed. -/
theorem executes_follows {before after : List Instruction}
    (heffects : plan.setting.effects = .standard) (hchecks : ∀ c ∈ checks, c.Standard)
    (hend : (Run.start checks).explore plan = (.completed, end'))
    (hexecutes : Executes plan.setting Datum.Alike before m m')
    (hx : Reached plan checks ⟨run, .executing point (before ++ after) s⟩) (h : s.Follows ν m) :
    ∃ run' point' s' ν', Reached plan checks ⟨run', .executing point' after s'⟩ ∧
      point'.block = point.block ∧ s'.Follows ν' m' := by
  induction hexecutes generalizing run point s ν with
  | nil => exact ⟨run, point, s, ν, hx, rfl, h⟩
  | cons hperforms hraise _ ih =>
    obtain ⟨s', run', ν', hstep, hs'⟩ := hx.step_follows heffects hchecks h hperforms
    obtain ⟨run₁, point₁, s₁, ν₁, hreached, hblock, hs₁⟩ :=
      ih (hx.move (.proceed (hx.steps_lt hend) hstep hraise)) hs'
    exact ⟨run₁, point₁, s₁, ν₁, hreached, hblock, hs₁⟩

end Reached

/-- When a block is covered, its execution is followed from the start. -/
theorem Covers.executing {run : Run} {block : Nat}
    (hend : (Run.start checks).explore plan = (.completed, run)) (h : Covers plan checks block m) :
    ∃ run' point s ν, Reached plan checks ⟨run', .executing point (plan.instructions block) s⟩ ∧
      point.block = block ∧ s.Follows ν m := by
  obtain ⟨node, ν, hmet, hblock, hfollows⟩ := h
  obtain ⟨x, hx, hmem⟩ := id hmet
  obtain ⟨_, _, _, rfl⟩ := hx.exists_arriving hmem
  obtain ⟨run', hreached⟩ := Reached.explored hend hmet
  exact ⟨run', _, _, ν, hblock ▸ hreached, hblock, hfollows⟩

/-- The procedure is entered with a state that follows every store. -/
theorem Run.bindParameters_follows (parameters : List Symbol) (store : Symbol → Datum) :
    ∃ ν, (bindParameters parameters .start).1.Follows ν ⟨store, []⟩ := by
  suffices hall : ∃ l ν, Ledger l ∧ (bindParameters parameters .start).2.Tracks l ∧
      (bindParameters parameters .start).1.DrawnFrom l ∧
      (bindParameters parameters .start).1.Follows ν ⟨store, []⟩ by
    obtain ⟨_, ν, -, -, -, h⟩ := hall
    exact ⟨ν, h⟩
  refine bindParameters_induction (P := fun s σ => ∃ l ν, Ledger l ∧ σ.Tracks l ∧ s.DrawnFrom l ∧
    s.Follows ν ⟨store, []⟩) ?_ ?_ parameters
  · refine ⟨_, fun _ => .null, .start, Supply.start_tracks, State.empty_drawnFrom,
      ⟨?_, rfl, ?_⟩, ?_⟩
    · intro x v hv
      simp [State.empty, State.lookup] at hv
    · intro i f c hf
      simp [State.empty] at hf
    · rintro v ⟨r, hr, -⟩
      cases hr
  · rintro s σ x ⟨l, ν, hl, ht, hs, h⟩
    obtain ⟨hl', ht'⟩ := (Outline.issues_fresh s σ).ledger hl ht hs
    have hs' := hs.mono (List.prefix_append l [Value.fresh σ.next])
    have hfresh : Value.fresh σ.next ∈ l ++ [Value.fresh σ.next] :=
      List.mem_append_right _ List.mem_cons_self
    refine ⟨_, ν.set σ.next (store x), hl', ht', hs'.bind x hfresh, ?_⟩
    have hnext : ν.set σ.next (store x) σ.next = store x := if_pos rfl
    have hcarries : Outline.Carries ⟨some (x, .fresh σ.next), [], none, σ⟩ (ν.set σ.next (store x))
        ⟨store, []⟩ ⟨store, []⟩ := by
      refine ⟨by simp, fun hv => ?_, by simp, ?_⟩
      · obtain ⟨-, rfl⟩ := Prod.mk.inj (Option.some.inj hv)
        exact Value.wellTyped_of_operands_nil rfl
      · simp only [Outline.act, Value.datum, hnext]
        exact Memory.set_store ⟨store, []⟩ x
    refine hcarries.follows hl' hs' (fun v hv => ?_) (h.congr hl hs (ν.set_agreesOn hl ht _))
    obtain rfl : Value.fresh σ.next = v := by simpa [Outline.Mentions] using hv
    exact hfresh

/-- Every block at which an execution arrives is covered. -/
theorem Arrives.covered {p : Procedure} {semantics : Semantics} {settings : Settings}
    {polls : Option Polls} {run : Run} {block : Nat} (hbuilt : p.flow.Built)
    (hplan : plan.Prepared p ⟨semantics, .standard⟩ settings polls)
    (hchecks : ∀ c ∈ checks, c.Standard)
    (hend : (Run.start checks).explore plan = (.completed, run))
    (hcapture : NeverCaptures plan checks) (h : Arrives plan Datum.Alike block m) :
    Covers plan checks block m := by
  have heffects : plan.setting.effects = .standard := by rw [hplan.setting]
  induction h with
  | entry store =>
    obtain ⟨ν, hν⟩ := Run.bindParameters_follows plan.procedure.parameters store
    exact Reached.covers hchecks hcapture .refl hν
  | @leave b m m' m'' e _ hexecutes he htakes ih =>
    obtain ⟨run₁, point, s, ν, hx, rfl, hs⟩ := ih.executing hend
    rw [← List.append_nil (plan.instructions point.block)] at hx
    obtain ⟨run₂, point', s', ν', hx', hblock, hs'⟩ :=
      hx.executes_follows heffects hchecks hend hexecutes hs
    obtain ⟨l, hl⟩ := hx'.coherent hchecks
    obtain ⟨_, -, -, hshape⟩ := hplan.shape hbuilt he
    obtain ⟨s'', hdeparts, hs''⟩ :=
      htakes.departs hshape he hl.ledger (hl.stage s' List.mem_cons_self) hs'
    obtain ⟨run₃, rest, hx''⟩ := Reached.departs (hx'.move .finish) (hblock ▸ hdeparts)
    exact hx''.covers hchecks hcapture hs''
  | @raise b m m' m'' e before after i _ hsplit hexecutes hraise hperforms he hlabel ih =>
    obtain ⟨run₁, point, s, ν, hx, rfl, hs⟩ := ih.executing hend
    obtain ⟨run₂, point', s', ν', hx', hblock, hs'⟩ :=
      Reached.executes_follows heffects hchecks hend hexecutes (hsplit ▸ hx) hs
    obtain ⟨s'', run₃, ν'', hstep, hs''⟩ := hx'.step_follows heffects hchecks hs' hperforms
    have hdeparts : .into e.tail s''.clearStack ∈ plan.handlers point'.block s'' :=
      List.mem_filterMap.2 ⟨e, hblock ▸ he, by rw [Departure.ofHandler, if_pos hlabel]⟩
    obtain ⟨run₄, rest, hx''⟩ :=
      Reached.departs (hx'.move (.raise (hx'.steps_lt hend) hstep hraise)) hdeparts
    exact hx''.covers hchecks hcapture hs''.clearStack

/-- Whenever an execution that compares like with like arrives at a block, a completed exploration
without captures has met a node of that block whose state describes the memory. -/
theorem executions_covered {p : Procedure} {semantics : Semantics} {settings : Settings}
    {polls : Option Polls} {run : Run} {block : Nat} (hbuilt : p.flow.Built)
    (hplan : Plan.prepare p ⟨semantics, .standard⟩ settings polls = .ok plan)
    (hchecks : ∀ c ∈ checks, c.Standard)
    (hend : (Run.start checks).explore plan = (.completed, run))
    (hcapture : NeverCaptures plan checks) (h : Arrives plan Datum.Alike block m) :
    ∃ node, Met plan checks node ∧ node.point.block = block ∧ node.state.Describes m := by
  obtain ⟨node, ν, hmet, hblock, hfollows⟩ :=
    h.covered hbuilt (Plan.prepared hplan) hchecks hend hcapture
  exact ⟨node, hmet, hblock, ν, hfollows.models⟩

/-! ## A loop that is left when a variable is no longer null -/

namespace RetryLoop

/-- The variable of the loop. -/
def x : Symbol := ⟨"x", .localVariable⟩

/-- What the nodes name. -/
def semantics : Semantics where
  symbol n := if n.val ∈ [2, 3, 7, 8] then some x else none
  typeOf _ := none
  method _ := none
  constant _ := none

/-- As long as `x` is null it gets a new value; then it is dereferenced. -/
def blocks : List Block := [
  ⟨0, [⟨⟨1⟩, .literal .null, none⟩, ⟨⟨2⟩, .assign, none⟩]⟩,
  ⟨1, [⟨⟨3⟩, .identifier, none⟩, ⟨⟨4⟩, .literal .null, none⟩, ⟨⟨5⟩, .binary .equals, none⟩]⟩,
  ⟨2, [⟨⟨6⟩, .invocation [] false, none⟩, ⟨⟨7⟩, .assign, none⟩]⟩,
  ⟨3, [⟨⟨8⟩, .identifier, none⟩, ⟨⟨9⟩, .memberAccess, none⟩, ⟨⟨10⟩, .pop, none⟩]⟩]

/-- The edges between the blocks. -/
def edges : List FlowEdge :=
  [⟨0, 1, .jump⟩, ⟨1, 2, .whenTrue⟩, ⟨1, 3, .whenFalse⟩, ⟨2, 1, .jump⟩]

/-- The loop is widened when it is entered for the second time. -/
def sample : Sample := ⟨[], semantics, blocks, edges, 1⟩

/-- Where the loop is widened, only its own variables are bound, so nothing can be captured. -/
def bindsAssignedOnly : Situation → Bool
  | ⟨run, .leaving (.into block s :: _)⟩ =>
    !decide (run.Widens sample.plan block) ||
      s.stack.isEmpty && s.bindings.keys.all (· ∈ sample.plan.assignedAt block)
  | _ => true

theorem neverCaptures : NeverCaptures sample.plan sample.checks := by
  have halways : (Situation.entering sample.plan (.start sample.checks)).always sample.plan
      bindsAssignedOnly 100 = true := by
    decide +kernel
  intro run block s rest hx hwidens
  have hbinds := Reached.of_always halways hx
  simp only [bindsAssignedOnly, hwidens, decide_true, Bool.not_true, Bool.false_or,
    Bool.and_eq_true, List.isEmpty_iff, List.all_eq_true, decide_eq_true_eq] at hbinds
  rintro y _ id (⟨z, r, hz, hlookup, _⟩ | ⟨r, hr, _⟩)
  · exact absurd (hbinds.2 z (SortedMap.mem_keys.2 ⟨r, hlookup⟩)) hz
  · rw [State.stack_clean, hbinds.1] at hr
    cases hr

/-- The header of the loop compares the variable with null. -/
theorem executes_header (store : Symbol → Datum) (halike : (store x).Alike .null) :
    Executes sample.plan.setting Datum.Alike (sample.plan.instructions 1) ⟨store, []⟩
      ⟨store, [.bool (store x = .null)]⟩ := by
  have hinstructions : sample.plan.instructions 1 = [⟨⟨3⟩, .identifier, none⟩,
      ⟨⟨4⟩, .literal .null, none⟩, ⟨⟨5⟩, .binary .equals, none⟩] := by
    decide +kernel
  have hsymbol : sample.plan.setting.semantics.symbol ⟨3⟩ = some x := by decide +kernel
  have hread : ∀ y, sample.plan.setting.semantics.symbol ⟨3⟩ = some y → store x = store y := by
    intro y hy
    rw [Option.some.inj (hsymbol.symm.trans hy)]
  rw [hinstructions]
  exact .cons (.push (Nat.zero_le _) hread) (by decide)
    (.cons (.push (Nat.zero_le _) rfl) (by decide)
    (.cons (.push (Nat.le_refl 2) ⟨store x, .null, rfl, halike, rfl⟩) (by decide) .nil))

/-- Once round the loop: the variable is null at first, and then another object than the one whose
code runs. -/
theorem arrives : Arrives sample.plan Datum.Alike 3
    (((⟨fun _ => .null, []⟩ : Memory).set x .null).set x (.object 1)) := by
  have hassign : sample.plan.instructions 0 =
      [⟨⟨1⟩, .literal .null, none⟩, ⟨⟨2⟩, .assign, none⟩] := by
    decide +kernel
  have hreassign : sample.plan.instructions 2 =
      [⟨⟨6⟩, .invocation [] false, none⟩, ⟨⟨7⟩, .assign, none⟩] := by
    decide +kernel
  have hsymbol : sample.plan.setting.semantics.symbol ⟨2⟩ = some x := by decide +kernel
  have hsymbol' : sample.plan.setting.semantics.symbol ⟨7⟩ = some x := by decide +kernel
  have hfirst : Arrives sample.plan Datum.Alike 1
      ((⟨fun _ => .null, []⟩ : Memory).set x .null) := by
    refine .leave (e := ⟨0, 1, .jump⟩) (.entry fun _ => .null) ?_ (by decide +kernel) (.jump rfl)
    exact hassign ▸ .cons (.push (Nat.zero_le _) rfl) (by decide)
      (.cons (.assign rfl rfl hsymbol) (by decide) .nil)
  have hbody : Arrives sample.plan Datum.Alike 2 ((⟨fun _ => .null, []⟩ : Memory).set x .null) :=
    .leave (e := ⟨1, 2, .whenTrue⟩) hfirst (executes_header _ rfl) (by decide +kernel)
      (.whenTrue rfl rfl)
  have hagain : Arrives sample.plan Datum.Alike 1
      (((⟨fun _ => .null, []⟩ : Memory).set x .null).set x (.object 1)) := by
    refine .leave (e := ⟨2, 1, .jump⟩) hbody ?_ (by decide +kernel) (.jump rfl)
    exact hreassign ▸ .cons (.push (Nat.zero_le _) (by simp [Yields])) (by decide)
      (.cons (.assign rfl rfl hsymbol') (by decide) .nil)
  exact .leave (e := ⟨1, 3, .whenFalse⟩) hagain (executes_header _ rfl) (by decide +kernel)
    (.whenFalse rfl rfl)

end RetryLoop

/-- The loop is left once the variable is another object, and this is covered. -/
theorem executions_covered_loop :
    ∃ node, Met RetryLoop.sample.plan RetryLoop.sample.checks node ∧ node.point.block = 3 ∧
      node.state.Describes
        (((⟨fun _ => .null, []⟩ : Memory).set RetryLoop.x .null).set RetryLoop.x (.object 1)) := by
  have hplan := Sample.prepare_eq (x := RetryLoop.sample) (by decide +kernel)
  have hend := Sample.explore_eq (x := RetryLoop.sample) (by decide +kernel)
  exact executions_covered RetryLoop.sample.built hplan (fun c hc => Registry.standard_enabled hc)
    hend RetryLoop.neverCaptures RetryLoop.arrives

/-! ## A value that is neither true nor false -/

namespace NotTrue

/-- The parameter. -/
def x : Symbol := ⟨"x", .parameter⟩

/-- What the nodes name. -/
def semantics : Semantics where
  symbol n := if n.val ∈ [1, 4] then some x else none
  typeOf _ := none
  method _ := none
  constant _ := none

/-- Unless `x` is true or false, null is dereferenced. -/
def blocks : List Block := [
  ⟨0, [⟨⟨1⟩, .identifier, none⟩, ⟨⟨2⟩, .literal (.bool true), none⟩,
    ⟨⟨3⟩, .binary .notEquals, none⟩]⟩,
  ⟨1, [⟨⟨4⟩, .identifier, none⟩, ⟨⟨5⟩, .literal (.bool false), none⟩,
    ⟨⟨6⟩, .binary .equals, none⟩]⟩,
  ⟨2, []⟩,
  ⟨3, [⟨⟨7⟩, .literal .null, none⟩, ⟨⟨8⟩, .memberAccess, none⟩, ⟨⟨9⟩, .pop, none⟩]⟩]

/-- The edges between the blocks. -/
def edges : List FlowEdge :=
  [⟨0, 1, .whenTrue⟩, ⟨0, 2, .whenFalse⟩, ⟨1, 2, .whenTrue⟩, ⟨1, 3, .whenFalse⟩]

/-- There is no loop. -/
def sample : Sample := ⟨[x], semantics, blocks, edges, 1⟩

/-- Whether nothing is widened and no node of the last block waits. -/
def avoidsLast : Situation → Bool
  | ⟨run, stage⟩ =>
    run.worklist.toList.all (·.point.block != 3) &&
      match stage with
      | .leaving (.into block _ :: _) => !decide (run.Widens sample.plan block)
      | _ => true

theorem avoidsLast_of_reached {y : Situation} (h : Reached sample.plan sample.checks y) :
    avoidsLast y = true := by
  have halways : (Situation.entering sample.plan (.start sample.checks)).always sample.plan
      avoidsLast 100 = true := by
    decide +kernel
  exact Reached.of_always halways h

theorem arrives : Arrives sample.plan (fun _ _ => True) 3 ⟨fun _ => .null, []⟩ := by
  have hfirst : sample.plan.instructions 0 = [⟨⟨1⟩, .identifier, none⟩,
      ⟨⟨2⟩, .literal (.bool true), none⟩, ⟨⟨3⟩, .binary .notEquals, none⟩] := by
    decide +kernel
  have hsecond : sample.plan.instructions 1 = [⟨⟨4⟩, .identifier, none⟩,
      ⟨⟨5⟩, .literal (.bool false), none⟩, ⟨⟨6⟩, .binary .equals, none⟩] := by
    decide +kernel
  have hmiddle : Arrives sample.plan (fun _ _ => True) 1 ⟨fun _ => .null, []⟩ := by
    refine .leave (e := ⟨0, 1, .whenTrue⟩) (.entry fun _ => .null) ?_ (by decide +kernel)
      (.whenTrue (m := ⟨fun _ => .null, [.bool true]⟩) rfl rfl)
    exact hfirst ▸ .cons (.push (Nat.zero_le _) fun _ _ => rfl) (by decide)
      (.cons (.push (Nat.zero_le _) rfl) (by decide)
        (.cons (.push (Nat.le_refl 2) ⟨.null, .bool true, rfl, trivial, rfl⟩) (by decide) .nil))
  refine .leave (e := ⟨1, 3, .whenFalse⟩) hmiddle ?_ (by decide +kernel)
    (.whenFalse (m := ⟨fun _ => .null, [.bool false]⟩) rfl rfl)
  exact hsecond ▸ .cons (.push (Nat.zero_le _) fun _ _ => rfl) (by decide)
    (.cons (.push (Nat.zero_le _) rfl) (by decide)
      (.cons (.push (Nat.le_refl 2) ⟨.null, .bool false, rfl, trivial, rfl⟩) (by decide) .nil))

end NotTrue

/-- With a parameter that is null an execution gets past both comparisons, but the exploration takes
what is not true to be false and never meets the block behind them. It completes and widens
nothing. -/
theorem unlike_comparison_uncovered :
    ((Run.start NotTrue.sample.checks).explore NotTrue.sample.plan).1 = .completed ∧
      NeverCaptures NotTrue.sample.plan NotTrue.sample.checks ∧
      Arrives NotTrue.sample.plan (fun _ _ => True) 3 ⟨fun _ => .null, []⟩ ∧
      ¬∃ node, Met NotTrue.sample.plan NotTrue.sample.checks node ∧ node.point.block = 3 ∧
        node.state.Describes ⟨fun _ => .null, []⟩ := by
  refine ⟨by decide +kernel, fun run block s rest hx hwidens => ?_, NotTrue.arrives, ?_⟩
  · have havoids := NotTrue.avoidsLast_of_reached hx
    simp [NotTrue.avoidsLast, hwidens] at havoids
  · rintro ⟨node, ⟨y, hy, hnode⟩, hblock, -⟩
    have havoids := NotTrue.avoidsLast_of_reached hy
    simp only [NotTrue.avoidsLast, Bool.and_eq_true, List.all_eq_true] at havoids
    simpa [hblock] using havoids.1 node hnode

end Pathwise
