import Pathwise.Proofs.Coherence
import Pathwise.Proofs.Meaning
import Pathwise.Proofs.Sample

/-!
# What widening does to the memories described

At a loop header the variables of the loop are bound to values that belong to the header, the same
ones each time. Such a value may still be held from an earlier time by a variable that the loop
does not assign, by the stack, or by a condition made from it: it survives. The widened state then
describes those memories only in which what survives goes with the variable that the value belongs
to, and this is all that widening can lose.
-/

namespace Pathwise

namespace State

/-- A value survives the widening of some variables if another variable or the stack holds it or
something made from it. -/
def Survives (symbols : List Symbol) (s : State) (v : Value) : Prop :=
  (∃ y r, y ∉ symbols ∧ s.lookup y = some r ∧ v.Part r) ∨ ∃ r ∈ s.stack, v.Part r

/-- A valuation fits what survives a widening: the other variables, the stack, and the facts about
values other than those of the header. A surviving value of the header has to go with its
variable. -/
structure FitsSurvivors (ν : Valuation) (header : Nat) (symbols : List Symbol) (s : State)
    (m : Memory) : Prop where
  /-- The other variables hold the data of their values. -/
  lookup : ∀ {y v}, y ∉ symbols → s.lookup y = some v → v.datum ν = m.store y
  /-- The stacks agree. -/
  stack : s.stack.map (Value.datum ν) = m.stack
  /-- Facts about surviving values other than those of the header are true. -/
  facts : ∀ {v f c}, s.Survives symbols v → (∀ x ∈ symbols, ∀ id, v ≠ .widened id header x) →
    s.facts.get? v.id = some f → f.held.get? c.domain = some c → c.TrueOf (v.datum ν)
  /-- A surviving value of the header has the datum that its variable holds. -/
  captured : ∀ {x id}, x ∈ symbols → s.Survives symbols (.widened id header x) → ν id = m.store x

/-- Nothing is captured if a value of the header survives only where its variable is bound to it
already. -/
def CapturesNothing (header : Nat) (symbols : List Symbol) (s : State) : Prop :=
  ∀ x ∈ symbols, ∀ id, s.Survives symbols (.widened id header x) →
    s.lookup x = some (.widened id header x)

variable {ν : Valuation} {header : Nat} {symbols : List Symbol} {l : List Value} {s t : State}
  {m : Memory} {v : Value}

theorem Survives.part {u : Value} (h : s.Survives symbols v) (hu : u.Part v) :
    s.Survives symbols u := by
  rcases h with ⟨y, r, hy, hlookup, hv⟩ | ⟨r, hr, hv⟩
  · exact .inl ⟨y, r, hy, hlookup, hu.trans hv⟩
  · exact .inr ⟨r, hr, hu.trans hv⟩

theorem Survives.live (h : s.Survives symbols v) : s.Live v := by
  rcases h with ⟨y, r, _, hlookup, hv⟩ | ⟨r, hr, hv⟩
  · exact ⟨r, mem_roots.2 (.inl ⟨y, hlookup⟩), hv⟩
  · exact ⟨r, mem_roots.2 (.inr hr), hv⟩

theorem Models.fitsSurvivors (h : s.Models ν m) (hl : Ledger l) (hs : s.DrawnFrom l)
    (hnothing : s.CapturesNothing header symbols) : s.FitsSurvivors ν header symbols m where
  lookup := fun _ hx => h.lookup hx
  stack := h.stack
  facts := by
    intro v f c hv _ hf hc
    rw [← hs.value_eq hl (hv.live.mem hl hs) hf]
    exact h.facts hf hc
  captured := fun hx hsurvives => h.lookup (hnothing _ hx _ hsurvives)

end State

/-- The valuation that gives each value of a header the datum of its variable. -/
def Valuation.rebase (ν : Valuation) (l : List Value) (header : Nat) (symbols : List Symbol)
    (store : Symbol → Datum) : Valuation := fun i =>
  match l[i]? with
  | some (.widened _ h x) => if h = header ∧ x ∈ symbols then store x else ν i
  | _ => ν i

namespace State

variable {ν : Valuation} {header : Nat} {symbols : List Symbol} {l : List Value} {s t : State}
  {m : Memory} {v : Value} {σ : Supply}

theorem rebase_of_header (hl : Ledger l) {x : Symbol} {id : Nat} (hx : x ∈ symbols)
    (hmem : .widened id header x ∈ l) : ν.rebase l header symbols m.store id = m.store x := by
  have hfound : l[id]? = some (.widened id header x) := hl.getElem?_id hmem
  simp [Valuation.rebase, hfound, hx]

/-- What survives has the same datum as before. -/
theorem FitsSurvivors.rebase_id (h : s.FitsSurvivors ν header symbols m) (hl : Ledger l)
    (hs : s.DrawnFrom l) (hv : s.Survives symbols v) :
    ν.rebase l header symbols m.store v.id = ν v.id := by
  have hfound := hl.getElem?_id (hv.live.mem hl hs)
  unfold Valuation.rebase
  rw [hfound]
  cases v with
  | widened id k x =>
    dsimp only
    split
    · next hheader =>
      obtain ⟨rfl, hx⟩ := hheader
      exact (h.captured hx hv).symm
    · rfl
  | unknown | null | self | bool | fresh | equal | notEqual | not => rfl

theorem FitsSurvivors.datum_rebase (h : s.FitsSurvivors ν header symbols m) (hl : Ledger l)
    (hs : s.DrawnFrom l) (hv : s.Survives symbols v) :
    v.datum (ν.rebase l header symbols m.store) = v.datum ν :=
  Value.datum_congr fun _ hu => h.rebase_id hl hs (hv.part hu)

namespace WidenedAs

/-- What is live after widening survives or is a value of the header. -/
theorem survives_of_live (hw : WidenedAs header symbols l s t) (hv : t.Live v) :
    s.Survives symbols v ∨ ∃ x ∈ symbols, ∃ id, v = .widened id header x := by
  obtain ⟨r, hr, hpart⟩ := hv
  rcases mem_roots.1 hr with ⟨y, hy⟩ | hr
  · by_cases hsymbol : y ∈ symbols
    · obtain ⟨id, hid⟩ := hw.bound y hsymbol
      obtain rfl : r = .widened id header y := Option.some.inj (hy.symm.trans hid)
      exact .inr ⟨y, hsymbol, id, hpart.eq_of_operands_nil rfl⟩
    · exact .inl (.inl ⟨y, r, hsymbol, hw.other y hsymbol ▸ hy, hpart⟩)
  · exact .inl (.inr ⟨r, hw.stack ▸ hr, hpart⟩)

theorem live_of_survives (hw : WidenedAs header symbols l s t) (hv : s.Survives symbols v) :
    t.Live v := by
  rcases hv with ⟨y, r, hy, hlookup, hpart⟩ | ⟨r, hr, hpart⟩
  · exact ⟨r, mem_roots.2 (.inl ⟨y, by rw [hw.other y hy, hlookup]⟩), hpart⟩
  · exact ⟨r, mem_roots.2 (.inr (hw.stack ▸ hr)), hpart⟩

/-- A valuation that fits what survives makes the memory out of the widened state, once it gives the
values of the header the data of their variables. -/
theorem models_rebase (hw : WidenedAs header symbols l s t) (hl : Ledger l) (hs : s.DrawnFrom l)
    (ht : t.DrawnFrom l) (h : s.FitsSurvivors ν header symbols m) :
    t.clean.Models (ν.rebase l header symbols m.store) m where
  lookup := by
    intro y v hy
    by_cases hsymbol : y ∈ symbols
    · obtain ⟨id, hid⟩ := hw.bound y hsymbol
      obtain rfl : v = .widened id header y := Option.some.inj (hy.symm.trans hid)
      exact rebase_of_header hl hsymbol (ht.lookup_mem hid)
    · have hlookup : s.lookup y = some v := hw.other y hsymbol ▸ hy
      rw [h.datum_rebase hl hs (.inl ⟨y, v, hsymbol, hlookup, .refl v⟩)]
      exact h.lookup hsymbol hlookup
  stack := by
    rw [stack_clean, hw.stack, ← h.stack]
    exact List.map_congr_left fun v hv => h.datum_rebase hl hs (.inr ⟨v, hv, .refl v⟩)
  facts := by
    intro i f c hf hc
    obtain ⟨hf, hlive⟩ := live_of_facts_clean hl ht hf
    obtain ⟨hmem, rfl, _⟩ := ht.fact_mem hf
    have hother : ∀ x ∈ symbols, ∀ id, f.value ≠ .widened id header x := by
      intro x hx id hvalue
      have hnone := hw.forgotten x hx id (hvalue ▸ hmem)
      rw [hvalue] at hf
      cases hnone.symm.trans hf
    have hsurvives : s.Survives symbols f.value := by
      rcases hw.survives_of_live hlive with hsurvives | ⟨x, hx, id, hvalue⟩
      · exact hsurvives
      · exact absurd hvalue (hother x hx id)
    have hkept : s.facts.get? f.value.id = some f := by
      rw [← hw.kept, hf]
      intro x hx hheader
      exact hother x hx _ (hl.eq_of_id hmem hheader rfl)
    rw [h.datum_rebase hl hs hsurvives]
    exact h.facts hsurvives hother hkept hc

/-- A valuation that makes a memory out of the widened state fits what survives. -/
theorem fitsSurvivors (hw : WidenedAs header symbols l s t) (hl : Ledger l) (hσ : σ.Tracks l)
    (hs : s.DrawnFrom l) (ht : t.DrawnFrom l) (h : t.clean.Models ν m) :
    s.FitsSurvivors ν header symbols m where
  lookup := by
    intro y v hy hlookup
    exact h.lookup ((hw.other y hy).trans hlookup)
  stack := by
    rw [← h.stack, stack_clean, hw.stack]
  facts := by
    intro v f c hv hother hf hc
    have hmem := hv.live.mem hl hs
    have hkept : t.clean.facts.get? v.id = some f := by
      rw [facts_clean_of_live hl ht (hw.live_of_survives hv), hw.kept, hf]
      intro x hx hheader
      exact hother x hx _ (hl.eq_of_id hmem hheader rfl)
    rw [← hs.value_eq hl hmem hf]
    exact h.facts hkept hc
  captured := by
    intro x id hx hsurvives
    obtain ⟨id', hid'⟩ := hw.bound x hx
    have hsame := (hσ.canonical_eq (ht.lookup_mem hid')).symm.trans
      (hσ.canonical_eq (hsurvives.live.mem hl hs))
    obtain rfl : id' = id := by simpa using hsame
    exact h.lookup hid'

/-- The widened state describes exactly the memories that fit what survives. -/
theorem describes_iff (hw : WidenedAs header symbols l s t) (hl : Ledger l) (hσ : σ.Tracks l)
    (hs : s.DrawnFrom l) (ht : t.DrawnFrom l) :
    t.clean.Describes m ↔ ∃ ν, s.FitsSurvivors ν header symbols m :=
  ⟨fun ⟨ν, h⟩ => ⟨ν, hw.fitsSurvivors hl hσ hs ht h⟩,
    fun ⟨_, h⟩ => ⟨_, hw.models_rebase hl hs ht h⟩⟩

end WidenedAs

end State

/-- A variable that holds a value of the header and the variable that the value belongs to hold the
same datum in every memory that fits. -/
theorem State.FitsSurvivors.store_eq {ν : Valuation} {header : Nat} {symbols : List Symbol}
    {s : State} {m : Memory} {x y : Symbol} {id : Nat} (h : s.FitsSurvivors ν header symbols m)
    (hx : x ∈ symbols) (hy : y ∉ symbols) (hlookup : s.lookup y = some (.widened id header x)) :
    m.store y = m.store x := by
  have hsurvives : s.Survives symbols (.widened id header x) :=
    .inl ⟨y, _, hy, hlookup, .refl _⟩
  exact (h.lookup hy hlookup).symm.trans (h.captured hx hsurvives)

/-- The state with which control gets past a loop header in a run describes exactly the memories
that fit what survives. -/
theorem Reached.widen_describes_iff {plan : Plan} {checks : List Check} {run : Run} {header : Nat}
    {s : State} {rest : List Departure} {m : Memory} (hchecks : ∀ c ∈ checks, c.Standard)
    (hreached : Reached plan checks ⟨run, .leaving (.into header s :: rest)⟩) :
    (Run.widen plan header s.clean run.supply).1.Describes m ↔
      ∃ ν, s.clean.FitsSurvivors ν header (plan.assignedAt header) m := by
  obtain ⟨l, hl⟩ := hreached.coherent hchecks
  have hs : s.clean.DrawnFrom l := (hl.stage s (List.mem_append_left _ List.mem_cons_self)).clean
  obtain ⟨ext, t, hl', hσ, ht, heq, hw⟩ :=
    Run.widen_spec plan header hl.ledger hl.tracks hs
  rw [heq]
  exact hw.describes_iff hl' hσ (hs.mono (List.prefix_append l ext)) ht

/-- Widening at a loop header keeps every memory that the arriving state describes exactly if each
of them fits what survives; and it does so whenever nothing is captured. -/
theorem widening_keeps_described_iff {plan : Plan} {checks : List Check} {run : Run} {header : Nat}
    {s : State} {rest : List Departure} (hchecks : ∀ c ∈ checks, c.Standard)
    (hreached : Reached plan checks ⟨run, .leaving (.into header s :: rest)⟩) :
    ((∀ m, s.clean.Describes m → (Run.widen plan header s.clean run.supply).1.Describes m) ↔
        ∀ m, s.clean.Describes m →
          ∃ ν, s.clean.FitsSurvivors ν header (plan.assignedAt header) m) ∧
      (s.clean.CapturesNothing header (plan.assignedAt header) →
        ∀ m, s.clean.Describes m →
          (Run.widen plan header s.clean run.supply).1.Describes m) := by
  refine ⟨forall₂_congr fun m _ => hreached.widen_describes_iff hchecks, ?_⟩
  rintro hnothing m ⟨ν, hν⟩
  obtain ⟨l, hl⟩ := hreached.coherent hchecks
  have hs : s.clean.DrawnFrom l := (hl.stage s (List.mem_append_left _ List.mem_cons_self)).clean
  exact (hreached.widen_describes_iff hchecks).2 ⟨ν, hν.fitsSurvivors hl.ledger hs hnothing⟩

/-! ## Two nested loops that assign one variable -/

namespace NestedLoops

/-- The variable that both loops assign. -/
def x : Symbol := ⟨"x", .localVariable⟩

/-- The variable that only the outer loop assigns. -/
def y : Symbol := ⟨"y", .localVariable⟩

/-- What the nodes name. -/
def semantics : Semantics where
  symbol n :=
    if n.val ∈ [2, 6, 10, 14, 17, 18] then some x
    else if n.val ∈ [4, 11, 15, 19] then some y
    else none
  typeOf _ := none
  method _ := none
  constant _ := none

/-- An operation at a node. -/
def op (n : UInt32) (o : Operation) : Instruction := ⟨⟨n⟩, o, none⟩

/-- While `x` is null the inner loop at block 2 gives it a new value; the outer loop at block 1
copies `x` to `y`, as long as `y` is null, and gives `x` a new value, too. -/
def blocks : List Block := [
  ⟨0, [op 1 (.literal .null), op 2 .assign, op 3 (.literal .null), op 4 .assign,
    op 5 (.literal (.bool true))]⟩,
  ⟨1, []⟩,
  ⟨2, [op 6 .identifier, op 7 (.literal .null), op 8 (.binary .equals)]⟩,
  ⟨3, [op 9 (.invocation [] false), op 10 .assign]⟩,
  ⟨4, [op 11 .identifier, op 12 (.literal .null), op 13 (.binary .equals)]⟩,
  ⟨5, [op 14 .identifier, op 15 .assign, op 16 (.invocation [] false), op 17 .assign]⟩,
  ⟨6, [op 18 .identifier, op 19 .identifier, op 20 (.binary .equals)]⟩,
  ⟨7, []⟩,
  ⟨8, [op 21 (.literal .null), op 22 .memberAccess, op 23 .pop]⟩]

/-- The edges between the blocks. -/
def edges : List FlowEdge := [
  ⟨0, 2, .whenTrue⟩, ⟨0, 1, .whenFalse⟩, ⟨1, 2, .jump⟩, ⟨2, 3, .whenTrue⟩, ⟨2, 4, .whenFalse⟩,
  ⟨3, 2, .jump⟩, ⟨4, 5, .whenTrue⟩, ⟨4, 6, .whenFalse⟩, ⟨5, 1, .jump⟩, ⟨6, 7, .whenTrue⟩,
  ⟨6, 8, .whenFalse⟩]

/-- A loop is widened when it is entered for the second time. -/
def sample : Sample := ⟨[], semantics, blocks, edges, 1⟩

/-- The plan of its exploration. -/
def plan : Plan := sample.plan

/-- All checks of this library. -/
def checks : List Check := sample.checks

/-- Whether the inner loop is about to be widened while `y` holds a value of its header that is
known not to be null, and `x` holds another value. -/
def captures : Situation → Bool
  | ⟨run, .leaving (.into 2 s :: _)⟩ =>
    match s.clean.bindings.entries, s.clean.stack, s.clean.facts.entries with
    | [(a, .fresh i), (b, .widened j 2 c)], [], [(_, ⟨.widened k 2 d, held⟩)] =>
      run.Widens plan 2 ∧ a = x ∧ b = y ∧ c = x ∧ d = x ∧ i ≠ j ∧ k = j ∧
        held = { ConstraintSet.empty with nullability := some .notNull }
    | _, _, _ => false
  | _ => false

theorem captures_after :
    ((Situation.entering plan (.start checks)).after plan 58).any captures = true := by
  decide +kernel

theorem exists_capture :
    ∃ run s rest i j k, Reached plan checks ⟨run, .leaving (.into 2 s :: rest)⟩ ∧
      run.Widens plan 2 ∧ i ≠ j ∧
      s.clean.bindings.entries = [(x, .fresh i), (y, .widened j 2 x)] ∧ s.clean.stack = [] ∧
      s.clean.facts.entries =
        [(k, ⟨.widened j 2 x, { ConstraintSet.empty with nullability := some .notNull }⟩)] := by
  obtain ⟨z, hz, hcaptures⟩ := (Option.any_eq_true _ _).1 captures_after
  unfold captures at hcaptures
  split at hcaptures
  · next run s rest =>
    split at hcaptures
    · next a i b j c e k d held hbindings hstack hfacts =>
      obtain ⟨hwidens, rfl, rfl, rfl, rfl, hne, rfl, rfl⟩ := of_decide_eq_true hcaptures
      exact ⟨run, s, rest, i, k, e, .of_after hz, hwidens, hne, hbindings, hstack, hfacts⟩
    · cases hcaptures
  · cases hcaptures

/-- Whether the inner loop is about to be widened while `y` is null. -/
def firstWidening : Situation → Bool
  | ⟨run, .leaving (.into 2 s :: _)⟩ =>
    match s.clean.bindings.entries, s.clean.stack with
    | [(a, .fresh _), (b, .null)], [] => run.Widens plan 2 ∧ a = x ∧ b = y
    | _, _ => false
  | _ => false

theorem firstWidening_after :
    ((Situation.entering plan (.start checks)).after plan 24).any firstWidening = true := by
  decide +kernel

theorem exists_first :
    ∃ run s rest i, Reached plan checks ⟨run, .leaving (.into 2 s :: rest)⟩ ∧
      run.Widens plan 2 ∧ s.clean.bindings.entries = [(x, .fresh i), (y, .null)] ∧
      s.clean.stack = [] := by
  obtain ⟨z, hz, hfirst⟩ := (Option.any_eq_true _ _).1 firstWidening_after
  unfold firstWidening at hfirst
  split at hfirst
  · next run s rest =>
    split at hfirst
    · next a i b hbindings hstack =>
      obtain ⟨hwidens, rfl, rfl⟩ := of_decide_eq_true hfirst
      exact ⟨run, s, rest, i, .of_after hz, hwidens, hbindings, hstack⟩
    · cases hfirst
  · cases hfirst

end NestedLoops

/-- The first time that the inner loop is widened `y` is still null, so nothing is captured and
every memory is kept. -/
theorem widening_keeps_described_first :
    ∃ run s rest,
      Reached NestedLoops.plan NestedLoops.checks ⟨run, .leaving (.into 2 s :: rest)⟩ ∧
        run.Widens NestedLoops.plan 2 ∧
        s.clean.CapturesNothing 2 (NestedLoops.plan.assignedAt 2) ∧
        (∀ m, s.clean.Describes m →
          ∃ ν, s.clean.FitsSurvivors ν 2 (NestedLoops.plan.assignedAt 2) m) ∧
        ∀ m, s.clean.Describes m →
          (Run.widen NestedLoops.plan 2 s.clean run.supply).1.Describes m := by
  obtain ⟨run, s, rest, i, hreached, hwidens, hbindings, hstack⟩ := NestedLoops.exists_first
  have hnothing : s.clean.CapturesNothing 2 (NestedLoops.plan.assignedAt 2) := by
    rintro z _ id (⟨w, r, hw, hlookup, hpart⟩ | ⟨r, hr, _⟩)
    · have hmem := SortedMap.get?_eq_some_iff.1 hlookup
      simp only [hbindings, List.mem_cons, Prod.mk.injEq, List.not_mem_nil, or_false] at hmem
      rcases hmem with ⟨rfl, rfl⟩ | ⟨rfl, rfl⟩
      · exact absurd (by decide +kernel) hw
      · cases hpart.eq_of_operands_nil rfl
    · rw [hstack] at hr
      cases hr
  have hall := widening_keeps_described_iff (fun c hc => Registry.standard_enabled hc) hreached
  exact ⟨run, s, rest, hreached, hwidens, hnothing, hall.1.1 (hall.2 hnothing), hall.2 hnothing⟩

/-- When the outer of two nested loops is gone through again, `y` holds the value that `x` gets at
the header of the inner loop. That the two differ is described before widening but not after. -/
theorem widening_loses_described :
    ∃ run s rest m,
      Reached NestedLoops.plan NestedLoops.checks ⟨run, .leaving (.into 2 s :: rest)⟩ ∧
        run.Widens NestedLoops.plan 2 ∧ s.clean.Describes m ∧
        ¬(Run.widen NestedLoops.plan 2 s.clean run.supply).1.Describes m := by
  obtain ⟨run, s, rest, i, j, k, hreached, hwidens, hne, hbindings, hstack, hfacts⟩ :=
    NestedLoops.exists_capture
  have hy : s.clean.lookup NestedLoops.y = some (.widened j 2 NestedLoops.x) := by
    refine SortedMap.get?_eq_some_iff.2 ?_
    rw [hbindings]
    exact List.mem_cons_of_mem _ List.mem_cons_self
  let m : Memory := ⟨fun z => if z = NestedLoops.y then .object 1 else .null, []⟩
  refine ⟨run, s, rest, m, hreached, hwidens,
    ⟨fun id => if id = j then .object 1 else .null, ?_⟩, ?_⟩
  · refine ⟨fun {z v} hz => ?_, by rw [hstack]; rfl, fun {id f c} hf hc => ?_⟩
    · have hmem := SortedMap.get?_eq_some_iff.1 hz
      simp only [hbindings, List.mem_cons, Prod.mk.injEq, List.not_mem_nil, or_false] at hmem
      rcases hmem with ⟨rfl, rfl⟩ | ⟨rfl, rfl⟩
      · simp [Value.datum, hne, m, NestedLoops.x, NestedLoops.y]
      · simp [Value.datum, m]
    · have hmem := SortedMap.get?_eq_some_iff.1 hf
      simp only [hfacts, List.mem_cons, Prod.mk.injEq, List.not_mem_nil, or_false] at hmem
      obtain ⟨rfl, rfl⟩ := hmem
      cases c <;> simp [ConstraintSet.get?, ConstraintSet.empty, Constraint.domain] at hc
      subst hc
      simp [Constraint.TrueOf, Value.datum]
  · intro hdescribes
    obtain ⟨ν, hν⟩ := (hreached.widen_describes_iff fun c hc => Registry.standard_enabled hc).1
      hdescribes
    have heq := hν.store_eq (by decide +kernel) (by decide +kernel) hy
    simp [m, NestedLoops.x, NestedLoops.y] at heq

end Pathwise
