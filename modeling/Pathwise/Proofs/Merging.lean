import Pathwise.Proofs.Cleaning
import Pathwise.Proofs.Descent
import Pathwise.Proofs.Identity

/-!
# What widening merges

Widening at a loop header binds the variables of the loop one after the other, each to the value
that belongs to it there, forgets what was recorded about that value, and cleans the state at last.
What the variables held before leaves no trace: states that differ only in the variables of the
loop, in what is recorded about values that only these reach, and in what is recorded about the
values of the header become the same state, now or when the header is widened again. To widen a
second time changes nothing.
-/

namespace Pathwise

/-! ## The values of a header -/

namespace Supply

variable {σ σ' : Supply} {header : Nat} {symbols : List Symbol}

/-- The supply once it has handed out the values of some variables at a header. -/
def widenedAll (σ : Supply) (header : Nat) (symbols : List Symbol) : Supply :=
  symbols.foldl (fun σ y => (σ.widened header y).2) σ

theorem widened_of_canonical {y : Symbol} {v : Value} (h : σ.canonical? header y = some v) :
    σ.widened header y = (v, σ) := by
  rw [widened, h]

/-- Each of the variables has its value at the header then. -/
theorem canonical?_widenedAll (σ : Supply) (header : Nat) (symbols : List Symbol) :
    σ.Extends (σ.widenedAll header symbols) ∧
      ∀ y ∈ symbols, ((σ.widenedAll header symbols).canonical? header y).isSome = true := by
  induction symbols generalizing σ with
  | nil => exact ⟨.refl σ, by simp⟩
  | cons x rest ih =>
    obtain ⟨hextends, hkept⟩ := σ.widened_spec header x
    obtain ⟨hextends', hrest⟩ := ih (σ.widened header x).2
    refine ⟨hextends.trans hextends', fun y hy => ?_⟩
    rcases List.mem_cons.1 hy with rfl | hy
    · exact Option.isSome_iff_exists.2 ⟨_, hextends' header y _ hkept⟩
    · exact hrest y hy

/-- Values that are kept are handed out again. -/
theorem widenedAll_of_canonical
    (h : ∀ y ∈ symbols, (σ.canonical? header y).isSome = true) :
    σ.widenedAll header symbols = σ := by
  induction symbols with
  | nil => rfl
  | cons x rest ih =>
    obtain ⟨v, hv⟩ := Option.isSome_iff_exists.1 (h x List.mem_cons_self)
    rw [widenedAll, List.foldl_cons, widened_of_canonical hv]
    exact ih fun y hy => h y (List.mem_cons_of_mem x hy)

/-- All values of a state have been made by a supply. -/
def Made (σ : Supply) (s : State) : Prop := ∃ l, Ledger l ∧ σ.Tracks l ∧ s.DrawnFrom l

theorem Made.clean {s : State} (h : σ.Made s) : σ.Made s.clean := by
  obtain ⟨l, hl, ht, hs⟩ := h
  exact ⟨l, hl, ht, hs.clean⟩

end Supply

/-- The supply after widening does not depend on the state that is widened. -/
theorem Run.supply_widen (plan : Plan) (header : Nat) (s : State) (σ : Supply) :
    (Run.widen plan header s σ).2 = σ.widenedAll header (plan.assignedAt header) := by
  have hfold : ∀ (symbols : List Symbol) (s : State) (σ : Supply),
      (symbols.foldl (Run.widenVariable header) (s, σ)).2 = σ.widenedAll header symbols := by
    intro symbols
    induction symbols with
    | nil => exact fun s σ => rfl
    | cons y rest ih => exact fun s σ => ih _ _
  exact hfold (plan.assignedAt header) s σ

/-- All values of whatever an exploration reaches have been made by its supply. -/
theorem Reached.made {plan : Plan} {checks : List Check} {x : Situation} {s : State}
    (hchecks : ∀ c ∈ checks, c.MakesNoValues) (hx : Reached plan checks x) (hs : s ∈ x.states) :
    x.run.supply.Made s := by
  obtain ⟨l, hkept, -⟩ := (State.DrawnFrom.lasting plan.setting).invariant.kept_reached hchecks hx
  obtain ⟨hl, ht⟩ := hkept.tracks
  refine ⟨l, hl, ht, ?_⟩
  rcases List.mem_append.1 hs with hs | hs
  · exact hkept.stage s hs
  · obtain ⟨node, hnode, rfl⟩ := List.mem_map.1 hs
    exact hkept.worklist node hnode

/-! ## States that differ in a loop only -/

namespace State

variable {header : Nat} {symbols : List Symbol} {l l' : List Value} {s s' t t' : State} {v : Value}

/-- Two states differ in nothing but the variables of a loop, what is recorded about values that
these alone reach, and what is recorded about the values of the header. -/
structure SameOutside (header : Nat) (symbols : List Symbol) (s s' : State) : Prop where
  /-- The stacks are the same. -/
  stack : s'.stack = s.stack
  /-- The other variables have the same values. -/
  lookup : ∀ y, y ∉ symbols → s'.lookup y = s.lookup y
  /-- The same is recorded about what these variables and the stack hold, and about what it was made
  from, unless it is a value of the header. -/
  facts : ∀ v, s.Survives symbols v → (∀ x ∈ symbols, ∀ id, v ≠ .widened id header x) →
    s'.facts.get? v.id = s.facts.get? v.id

namespace WidenedAs

/-- What is recorded about a live value that is none of the header is what was. -/
theorem facts_of_live (hw : WidenedAs header symbols l s t) (hl : Ledger l) (ht : t.DrawnFrom l)
    (hv : t.Live v) (hother : ∀ x ∈ symbols, ∀ id, v ≠ .widened id header x) :
    t.facts.get? v.id = s.facts.get? v.id := by
  refine hw.kept v.id fun x hx hmem => ?_
  exact hother x hx _ (hl.eq_of_id (hv.mem hl ht) hmem rfl)

/-- Whatever is widened, the same state comes out if the states differ in the loop only and the
variables of the loop get the same values. -/
theorem clean_eq (hw : WidenedAs header symbols l s t) (hl : Ledger l) (ht : t.DrawnFrom l)
    (hw' : WidenedAs header symbols l' s' t') (hl' : Ledger l') (ht' : t'.DrawnFrom l')
    (hsame : s.SameOutside header symbols s')
    (hbound : ∀ y ∈ symbols, t'.lookup y = t.lookup y) : t'.clean = t.clean := by
  have hbindings : t'.bindings = t.bindings := by
    refine SortedMap.ext_get? fun y => ?_
    change t'.lookup y = t.lookup y
    by_cases hy : y ∈ symbols
    · exact hbound y hy
    · rw [hw'.other y hy, hw.other y hy, hsame.lookup y hy]
  have hstack : t'.stack = t.stack := by rw [hw'.stack, hw.stack, hsame.stack]
  have hroots : t'.roots = t.roots := by rw [roots, roots, hbindings, hstack]
  refine State.ext_get? hbindings hstack fun i => ?_
  rw [facts_clean, facts_clean, live, live, hroots]
  split
  · next hhas =>
    obtain ⟨v, hv, rfl⟩ := exists_live_of_has (s := t) hhas
    have hv' : t'.Live v := by rwa [Live, hroots]
    by_cases hheader : ∃ x ∈ symbols, ∃ id, v = .widened id header x
    · obtain ⟨x, hx, id, rfl⟩ := hheader
      exact (hw'.forgotten x hx id (hv'.mem hl' ht')).trans
        (hw.forgotten x hx id (hv.mem hl ht)).symm
    · have hother : ∀ x ∈ symbols, ∀ id, v ≠ .widened id header x :=
        fun x hx id hvalue => hheader ⟨x, hx, id, hvalue⟩
      have hsurvives := (hw.survives_of_live hv).resolve_right hheader
      rw [hw'.facts_of_live hl' ht' hv' hother, hw.facts_of_live hl ht hv hother]
      exact hsame.facts v hsurvives hother
  · rfl

/-- Widening changes nothing outside the loop. -/
theorem sameOutside (hw : WidenedAs header symbols l s t) (hl : Ledger l) (ht : t.DrawnFrom l) :
    s.SameOutside header symbols t.clean where
  stack := hw.stack
  lookup := hw.other
  facts := by
    intro v hv hother
    have hlive := hw.live_of_survives hv
    rw [facts_clean_of_live hl ht hlive, hw.facts_of_live hl ht hlive hother]

end WidenedAs

end State

/-! ## Widening at a header -/

namespace Run

variable {plan : Plan} {header : Nat} {s s' : State} {σ σ' : Supply}

/-- Widening binds the variables of the loop to their values at the header, of which nothing holds,
and leaves the other variables and the stack alone. -/
theorem widen_bound (plan : Plan) (header : Nat) (h : σ.Made s) :
    (∀ y ∈ plan.assignedAt header, ∃ v, (widen plan header s σ).1.lookup y = some v ∧
        (widen plan header s σ).2.canonical? header y = some v ∧
        (widen plan header s σ).1.facts.get? v.id = none ∧
        ∀ d, (widen plan header s σ).1.constraint v d = none) ∧
      (widen plan header s σ).1.stack = s.stack ∧
      ∀ y, y ∉ plan.assignedAt header → (widen plan header s σ).1.lookup y = s.lookup y := by
  obtain ⟨l, hl, hσ, hs⟩ := h
  obtain ⟨ext, t, hl', hσ', ht, heq, hw⟩ := widen_spec plan header hl hσ hs
  rw [heq]
  refine ⟨fun y hy => ?_, hw.stack, hw.other⟩
  obtain ⟨id, hid⟩ := hw.bound y hy
  have hmem := ht.lookup_mem hid
  have hnone : t.clean.facts.get? id = none := by
    rw [State.facts_clean, hw.forgotten y hy id hmem, ite_self]
  refine ⟨.widened id header y, hid, hσ'.canonical_eq hmem, hnone, fun d => ?_⟩
  have hrecorded : t.clean.recorded (.widened id header y) = .empty := by
    simp only [State.recorded, Value.id, hnone]
  have hintrinsic : (Value.widened id header y).intrinsic = .empty := rfl
  rw [State.constraint, hrecorded, hintrinsic, ConstraintSet.get?_empty, Option.or_none]

/-- What is widened has been made by the supply afterwards, and differs from what it was in the loop
only. -/
theorem widen_made (plan : Plan) (header : Nat) (h : σ.Made s) :
    (widen plan header s σ).2.Made (widen plan header s σ).1 ∧
      s.SameOutside header (plan.assignedAt header) (widen plan header s σ).1 := by
  obtain ⟨l, hl, hσ, hs⟩ := h
  obtain ⟨ext, t, hl', hσ', ht, heq, hw⟩ := widen_spec plan header hl hσ hs
  rw [heq]
  exact ⟨⟨l ++ ext, hl', hσ', ht.clean⟩, hw.sameOutside hl' ht⟩

/-- States that differ in the loop only become the same, if the variables have the same values at
the header. -/
theorem widen_eq (h : σ.Made s) (h' : σ'.Made s')
    (hsame : s.SameOutside header (plan.assignedAt header) s')
    (hcanonical : ∀ y ∈ plan.assignedAt header,
      (widen plan header s' σ').2.canonical? header y =
        (widen plan header s σ).2.canonical? header y) :
    (widen plan header s' σ').1 = (widen plan header s σ).1 := by
  obtain ⟨l, hl, hσ, hs⟩ := h
  obtain ⟨l', hl', hσ', hs'⟩ := h'
  obtain ⟨ext, t, hlt, hσt, ht, heq, hw⟩ := widen_spec plan header hl hσ hs
  obtain ⟨ext', t', hlt', hσt', ht', heq', hw'⟩ := widen_spec plan header hl' hσ' hs'
  rw [heq, heq']
  refine hw.clean_eq hlt ht hw' hlt' ht' hsame fun y hy => ?_
  obtain ⟨id, hid⟩ := hw.bound y hy
  obtain ⟨id', hid'⟩ := hw'.bound y hy
  rw [hid, hid', ← hσt.canonical_eq (ht.lookup_mem hid), ← hσt'.canonical_eq (ht'.lookup_mem hid'),
    hcanonical y hy]

/-- States that differ in the loop only are widened to the same state with the same supply. -/
theorem widen_eq_of_sameOutside (h : σ.Made s) (h' : σ.Made s')
    (hsame : s.SameOutside header (plan.assignedAt header) s') :
    widen plan header s' σ = widen plan header s σ := by
  have hsupply : (widen plan header s' σ).2 = (widen plan header s σ).2 := by
    rw [supply_widen, supply_widen]
  exact Prod.ext (widen_eq h h' hsame fun y _ => by rw [hsupply]) hsupply

/-- So they are when the second is widened later, with a supply that has kept the values of the
header. -/
theorem widen_eq_of_extends (h : σ.Made s) (h' : σ'.Made s')
    (hsame : s.SameOutside header (plan.assignedAt header) s')
    (hextends : (widen plan header s σ).2.Extends σ') :
    widen plan header s' σ' = ((widen plan header s σ).1, σ') := by
  have hkept : ∀ y ∈ plan.assignedAt header,
      σ'.canonical? header y = (widen plan header s σ).2.canonical? header y := by
    intro y hy
    have hsome := (σ.canonical?_widenedAll header (plan.assignedAt header)).2 y hy
    rw [← supply_widen plan header s σ] at hsome
    obtain ⟨v, hv⟩ := Option.isSome_iff_exists.1 hsome
    rw [hv, hextends header y v hv]
  have hsupply : (widen plan header s' σ').2 = σ' := by
    rw [supply_widen]
    refine Supply.widenedAll_of_canonical fun y hy => ?_
    rw [hkept y hy, supply_widen]
    exact (σ.canonical?_widenedAll header (plan.assignedAt header)).2 y hy
  exact Prod.ext (widen_eq h h' hsame fun y hy => by rw [hsupply, hkept y hy]) hsupply

end Run

/-- Widening at a header merges all states that differ in the loop only and whose values the supply
of the run has made, as it has those of all states of the situation, cleaned or not: they become the
same state, now or with a later supply that has kept the values of the header. In that state each
variable of the loop has its value at the header, of which nothing holds, the stack and the other
variables are as they were, and widening it again changes nothing. -/
theorem widening_merges {plan : Plan} {checks : List Check} {x : Situation}
    (hchecks : ∀ c ∈ checks, c.MakesNoValues) (hx : Reached plan checks x) (header : Nat) :
    (∀ s ∈ x.states, x.run.supply.Made s ∧ x.run.supply.Made s.clean) ∧
      ∀ s, x.run.supply.Made s →
        ∃ t σ, Run.widen plan header s x.run.supply = (t, σ) ∧
          (∀ s', x.run.supply.Made s' → s.SameOutside header (plan.assignedAt header) s' →
            Run.widen plan header s' x.run.supply = (t, σ)) ∧
          (∀ s' σ', σ'.Made s' → s.SameOutside header (plan.assignedAt header) s' →
            σ.Extends σ' → Run.widen plan header s' σ' = (t, σ')) ∧
          (∀ y ∈ plan.assignedAt header, ∃ v, t.lookup y = some v ∧
            σ.canonical? header y = some v ∧ t.facts.get? v.id = none ∧
            ∀ d, t.constraint v d = none) ∧
          t.stack = s.stack ∧
          (∀ y, y ∉ plan.assignedAt header → t.lookup y = s.lookup y) ∧
          Run.widen plan header t σ = (t, σ) := by
  have hmade : ∀ s ∈ x.states, x.run.supply.Made s := fun s hs => hx.made hchecks hs
  refine ⟨fun s hs => ⟨hmade s hs, (hmade s hs).clean⟩, fun s hs => ⟨_, _, rfl, ?_, ?_, ?_⟩⟩
  · intro s' hs' hsame
    exact Run.widen_eq_of_sameOutside hs hs' hsame
  · intro s' σ' hs' hsame hextends
    exact Run.widen_eq_of_extends hs hs' hsame hextends
  · obtain ⟨hbound, hstack, hother⟩ := Run.widen_bound plan header hs
    obtain ⟨hmade, hsame⟩ := Run.widen_made plan header hs
    exact ⟨hbound, hstack, hother, Run.widen_eq_of_extends hs hmade hsame (.refl _)⟩

/-- Where the inner loop is first widened it does not matter what `x` holds: a value of its own, as
it does, or null. -/
theorem widening_merges_nested :
    ∃ run s rest i,
      Reached NestedLoops.plan NestedLoops.checks ⟨run, .leaving (.into 2 s :: rest)⟩ ∧
      s.clean.lookup NestedLoops.x = some (.fresh i) ∧
      ∃ t σ, Run.widen NestedLoops.plan 2 s.clean run.supply = (t, σ) ∧
        Run.widen NestedLoops.plan 2 (s.clean.bind NestedLoops.x .null) run.supply = (t, σ) ∧
        t.lookup NestedLoops.y = s.clean.lookup NestedLoops.y ∧
        Run.widen NestedLoops.plan 2 t σ = (t, σ) := by
  obtain ⟨run, s, rest, i, hreached, -, hbindings, -⟩ := NestedLoops.exists_first
  have hlookup : s.clean.lookup NestedLoops.x = some (.fresh i) := by
    refine SortedMap.get?_eq_some_iff.2 ?_
    rw [hbindings]
    exact List.mem_cons_self
  obtain ⟨hstates, hmerges⟩ := widening_merges
    (fun c hc => (Registry.standard_enabled hc).makesNoValues) hreached 2
  obtain ⟨-, hclean⟩ :=
    hstates s (List.mem_append_left _ (List.mem_append_left _ List.mem_cons_self))
  obtain ⟨t, σ, heq, hmerged, -, -, -, hother, hagain⟩ := hmerges s.clean hclean
  have hbind : run.supply.Made (s.clean.bind NestedLoops.x .null) := by
    obtain ⟨l, hl, hσ, hs⟩ := hclean
    exact ⟨l, hl, hσ, hs.bind _ (hl.mem_of_shared (by simp [Value.sharedValues]))⟩
  have hx : NestedLoops.x ∈ NestedLoops.plan.assignedAt 2 := by decide +kernel
  have hy : NestedLoops.y ∉ NestedLoops.plan.assignedAt 2 := by decide +kernel
  have hsame : s.clean.SameOutside 2 (NestedLoops.plan.assignedAt 2)
      (s.clean.bind NestedLoops.x .null) := by
    refine ⟨rfl, fun z hz => ?_, fun _ _ _ => rfl⟩
    rw [State.lookup_bind, if_neg]
    rintro rfl
    exact hz hx
  exact ⟨run, s, rest, i, hreached, hlookup, t, σ, heq,
    hmerged _ hbind hsame, hother _ hy, hagain⟩

end Pathwise
