import Mathlib.Data.Fintype.Option
import Mathlib.Data.Fintype.Pi
import Mathlib.Data.Fintype.Sigma
import Mathlib.Order.Filter.Cofinite
import Mathlib.Tactic.DeriveFintype
import Pathwise.Proofs.Cycles
import Pathwise.Proofs.Turns

/-!
# Endless threads

A thread goes from node to node without end. After some time it keeps to the blocks of one loop, to
whose header it comes again and again, and always with a widened state. There the variables of the
loop have their values at the header, and any other variable has the value that it had when the
thread settled down, or its value at another header. So only finitely many states can occur at the
header, and a run that does not meet a node twice has no endless thread.
-/

namespace Pathwise

open Filter

/-! ## Finitely many states -/

/-- Maps with finitely many keys and values to choose from are finitely many. -/
theorem SortedMap.finite_of_get? {κ α : Type} [Ord κ] [Std.TransOrd κ] [Std.LawfulEqOrd κ]
    {keys : Set κ} (hkeys : keys.Finite) {found : κ → Set (Option α)}
    (hfound : ∀ k ∈ keys, (found k).Finite) :
    {m : SortedMap κ α | (∀ k ∈ keys, m.get? k ∈ found k) ∧
      ∀ k ∉ keys, m.get? k = none}.Finite := by
  have hfinite := hkeys.to_subtype
  have hchoices := Set.Finite.pi fun k : keys => hfound k k.2
  refine Set.Finite.of_injOn (f := fun m (k : keys) => m.get? k) ?_ ?_ hchoices
  · rintro m ⟨hm, -⟩ k -
    exact hm k k.2
  · rintro m ⟨-, hm⟩ m' ⟨-, hm'⟩ heq
    refine ext_get? fun k => ?_
    by_cases hk : k ∈ keys
    · exact congrFun heq ⟨k, hk⟩
    · rw [hm k hk, hm' k hk]

instance : Fintype Nullability := ⟨{.null, .notNull}, fun x => by cases x <;> decide⟩

instance : Fintype Truth := ⟨{.holds, .fails}, fun x => by cases x <;> decide⟩

instance : Fintype Disposal := ⟨{.disposed, .notDisposed}, fun x => by cases x <;> decide⟩

instance : Fintype ByteArrayContent := ⟨{.constant, .modified}, fun x => by cases x <;> decide⟩

instance : Fintype SaltSize := ⟨{.short, .safe}, fun x => by cases x <;> decide⟩

deriving instance Fintype for ConstraintSet

theorem Value.finite_parts (v : Value) : {u : Value | u.Part v}.Finite := by
  induction v using Value.operandInduction with
  | h v ih =>
    refine ((Set.finite_singleton v).union (v.operands.finite_toSet.biUnion ih)).subset ?_
    rintro u (_ | ⟨ho, hu⟩)
    · exact .inl rfl
    · exact .inr (Set.mem_biUnion ho hu)

/-- Settled nodes have finitely many states if there are finitely many values to choose from for
finitely many variables. -/
theorem Node.finite_settled {symbols : Set Symbol} (hsymbols : symbols.Finite)
    {found : Symbol → Set (Option Value)} (hfound : ∀ y ∈ symbols, (found y).Finite) :
    {s : State | (∃ n : Node, n.Settled ∧ n.state = s) ∧ (∀ y ∈ symbols, s.lookup y ∈ found y) ∧
      ∀ y ∉ symbols, s.lookup y = none}.Finite := by
  -- the values about which there can be facts
  have hlive : {u : Value | ∃ y ∈ symbols, ∃ v, some v ∈ found y ∧ u.Part v}.Finite := by
    have hparts : ∀ y ∈ symbols,
        (⋃ v ∈ Set.preimage some (found y), {u : Value | u.Part v}).Finite :=
      fun y hy => ((hfound y hy).preimage (Option.some_injective _).injOn).biUnion
        fun v _ => v.finite_parts
    refine (hsymbols.biUnion hparts).subset ?_
    rintro u ⟨y, hy, v, hv, hu⟩
    exact Set.mem_biUnion hy (Set.mem_biUnion hv hu)
  have hheld := ((hlive.prod Set.finite_univ).image
    fun f : Value × ConstraintSet => some (Fact.mk f.1 f.2)).insert none
  have hfacts := SortedMap.finite_of_get? (hlive.image Value.id) fun _ _ => hheld
  refine (((SortedMap.finite_of_get? hsymbols hfound).prod hfacts).image
    fun parts => State.mk parts.1 [] parts.2).subset ?_
  rintro _ ⟨⟨n, hn, rfl⟩, hlookup, hnone⟩
  have hmem : ∀ {i f}, n.state.facts.get? i = some f → f.value.id = i ∧
      ∃ y ∈ symbols, ∃ v, some v ∈ found y ∧ f.value.Part v := by
    intro i f hf
    obtain ⟨hid, r, hr, hpart⟩ := hn.facts hf
    rcases State.mem_roots.1 hr with ⟨y, hy⟩ | hr
    · have hysymbols : y ∈ symbols := by
        by_contra hnot
        simp [hnone y hnot] at hy
      exact ⟨hid, y, hysymbols, r, hy ▸ hlookup y hysymbols, hpart⟩
    · rw [hn.stack] at hr
      cases hr
  refine ⟨(n.state.bindings, n.state.facts), ⟨⟨hlookup, hnone⟩, fun i _ => ?_, fun i hi => ?_⟩, ?_⟩
  · cases hf : n.state.facts.get? i with
    | none => exact .inl rfl
    | some f => exact .inr ⟨(f.value, f.held), ⟨(hmem hf).2, trivial⟩, rfl⟩
  · cases hf : n.state.facts.get? i with
    | none => rfl
    | some f => exact absurd ⟨f.value, (hmem hf).2, (hmem hf).1⟩ hi
  · rw [← hn.stack]

theorem Plan.finite_names (plan : Plan) : {y | plan.Names y}.Finite := by
  have hlist := ((plan.procedure.flow.blocks.flatMap (·.instructions)).filterMap
    fun i => plan.setting.semantics.symbol i.node).finite_toSet
  refine hlist.subset ?_
  rintro y ⟨block, i, hi, hy⟩
  refine List.mem_filterMap.2 ⟨i, List.mem_flatMap.2 ?_, hy⟩
  unfold instructions instructionsOf at hi
  split at hi
  · next b hb =>
    unfold FlowGraph.block Graph.vertex at hb
    split at hb
    · next hget =>
      obtain rfl := Except.ok.inj hb
      exact ⟨_, SortedMap.mem_values.2 ⟨block, hget⟩, hi⟩
    · cases hb
  · cases hi

/-! ## Threads -/

/-- A way from node to node that does not end. -/
structure Thread (plan : Plan) (n : Nat → Node) : Prop where
  /-- It starts at the entry. -/
  entry : (n 0).point.block = plan.entry
  /-- Its nodes are settled. -/
  settled : ∀ i, (n i).Settled
  /-- Each node is behind the one before. -/
  hop : ∀ i, Hop plan (n i) (n (i + 1))
  /-- No node comes twice. -/
  distinct : ∀ {i j}, i < j → (n (i + 1)).point.block = (n (j + 1)).point.block →
    (n (i + 1)).state ≠ (n (j + 1)).state
  /-- The visits of a header are counted. -/
  visits : ∀ {i j}, i < j → (n (i + 1)).point.block = (n (j + 1)).point.block →
    plan.assigned.contains (n (i + 1)).point.block = true →
    (n (i + 1)).point.visits < (n (j + 1)).point.visits
  /-- A variable has one value at a header. -/
  canonical : ∀ {i j id id' header y}, (n i).state.lookup y = some (.widened id header y) →
    (n j).state.lookup y = some (.widened id' header y) → id = id'

namespace Thread

variable {p : Procedure} {x : Setting} {settings : Settings} {polls : Option Polls} {plan : Plan}
variable {n : Nat → Node} {y : Symbol} {header : Nat}

theorem bound_of_le (h : Thread plan n) {i j : Nat} (hij : i ≤ j) {v : Value}
    (hv : (n i).state.lookup y = some v) : ∃ v', (n j).state.lookup y = some v' := by
  induction j, hij using Nat.le_induction with
  | base => exact ⟨v, hv⟩
  | succ j _ ih =>
    obtain ⟨v', hv'⟩ := ih
    obtain ⟨v'', hv'', -⟩ := (h.hop j).kept hv'
    exact ⟨v'', hv''⟩

/-- Only variables that are bound at the start or named by an instruction are ever bound. -/
theorem bound_or_named (h : Thread plan n) {i : Nat} {v : Value}
    (hv : (n i).state.lookup y = some v) :
    (∃ v₀, (n 0).state.lookup y = some v₀) ∨ plan.Names y := by
  induction i generalizing v with
  | zero => exact .inl ⟨v, hv⟩
  | succ i ih =>
    rcases (h.hop i).named hv with ⟨v', hv'⟩ | hnames
    · exact ih hv'
    · exact .inr hnames

/-- Finitely many variables are ever bound. -/
theorem finite_bound (h : Thread plan n) : {y | ∃ i v, (n i).state.lookup y = some v}.Finite := by
  have hstart : {y | ∃ v, (n 0).state.lookup y = some v}.Finite := by
    refine (n 0).state.bindings.keys.finite_toSet.subset ?_
    rintro y ⟨v, hv⟩
    exact SortedMap.mem_keys.2 ⟨v, hv⟩
  refine (hstart.union plan.finite_names).subset ?_
  rintro y ⟨i, v, hv⟩
  exact h.bound_or_named hv

theorem hasVertex (h : Thread plan n) (hbuilt : p.flow.Built)
    (hplan : plan.Prepared p x settings polls) (i : Nat) :
    p.flow.graph.hasVertex (n i).point.block = true := by
  cases i with
  | zero => exact hbuilt.sound.entry (h.entry ▸ hplan.entry)
  | succ i => exact (hbuilt.sound.graph.next (hplan.procedure ▸ (h.hop i).edge)).1

/-- A variable has finitely many values at headers. -/
theorem finite_widened (h : Thread plan n) (hbuilt : p.flow.Built)
    (hplan : plan.Prepared p x settings polls) (y : Symbol) :
    {v | ∃ i j id, v = Value.widened id (n j).point.block y ∧
      (n i).state.lookup y = some v}.Finite := by
  have hat : ∀ header ∈ (p.flow.graph.indices.toFinset : Set Nat),
      {v | ∃ i id, v = Value.widened id header y ∧ (n i).state.lookup y = some v}.Finite := by
    refine fun header _ => Set.Subsingleton.finite ?_
    rintro _ ⟨i, id, rfl, hi⟩ _ ⟨j, id', rfl, hj⟩
    rw [h.canonical hi hj]
  refine (p.flow.graph.indices.toFinset.finite_toSet.biUnion hat).subset ?_
  rintro v ⟨i, j, id, rfl, hv⟩
  refine Set.mem_biUnion ?_ ⟨i, id, rfl, hv⟩
  simpa [Graph.mem_indices] using h.hasVertex hbuilt hplan j

/-- A variable that is not assigned any more has finitely many values after some time. -/
theorem exists_finite_of_unassigned (h : Thread plan n) (hbuilt : p.flow.Built)
    (hplan : plan.Prepared p x settings polls)
    (hy : ∀ᶠ i in atTop, y ∉ plan.assignedBlock (n i).point.block) :
    ∃ found : Set (Option Value), found.Finite ∧ ∀ᶠ i in atTop, (n i).state.lookup y ∈ found := by
  by_cases hbound : ∃ i v, (n i).state.lookup y = some v
  · obtain ⟨i₀, v₀, hv₀⟩ := hbound
    obtain ⟨i₁, hi₁⟩ := eventually_atTop.1 hy
    obtain ⟨v, hv⟩ := h.bound_of_le (Nat.le_max_left i₀ i₁) hv₀
    refine ⟨some '' ({v} ∪ {v | ∃ i j id, v = .widened id (n j).point.block y ∧
      (n i).state.lookup y = some v}),
      ((Set.finite_singleton v).union (h.finite_widened hbuilt hplan y)).image some, ?_⟩
    filter_upwards [eventually_ge_atTop (max i₀ i₁)] with i hi
    induction i, hi using Nat.le_induction with
    | base => exact ⟨v, .inl rfl, hv.symm⟩
    | succ i hi ih =>
      obtain ⟨w, hw, hlookup⟩ := ih
      obtain ⟨w', hw', hcase⟩ := (h.hop i).kept hlookup.symm
      rcases hcase with rfl | hassigned | ⟨id, rfl⟩
      · refine ⟨w', hw.imp_right ?_, hw'.symm⟩
        exact id
      · exact absurd hassigned (hi₁ i (Nat.le_trans (Nat.le_max_right i₀ i₁) hi))
      · exact ⟨_, .inr ⟨i + 1, i + 1, id, rfl, hw'⟩, hw'.symm⟩
  · refine ⟨{none}, Set.finite_singleton none, .of_forall fun i => ?_⟩
    rw [Set.mem_singleton_iff, Option.eq_none_iff_forall_ne_some]
    exact fun v hv => hbound ⟨i, v, hv⟩

/-- After some time a header is only entered widened. -/
theorem eventually_widened (h : Thread plan n) (hheader : plan.assigned.contains header = true) :
    ∀ᶠ i in atTop, (n i).point.block = header → ∀ y ∈ plan.assignedAt header,
      ∃ id, (n i).state.lookup y = some (.widened id header y) := by
  have hfew : {i | (n (i + 1)).point.block = header ∧
      (n (i + 1)).point.visits ≤ plan.settings.loopVisitLimit}.Finite := by
    refine Set.Finite.of_injOn (f := fun i => (n (i + 1)).point.visits) (fun i hi => hi.2) ?_
      (Set.finite_le_nat plan.settings.loopVisitLimit)
    rintro i ⟨hi, -⟩ j ⟨hj, -⟩ heq
    have hless : ∀ {i j}, (n (i + 1)).point.block = header → (n (j + 1)).point.block = header →
        i < j → (n (i + 1)).point.visits ≠ (n (j + 1)).point.visits :=
      fun hi hj hij => Nat.ne_of_lt (h.visits hij (hi.trans hj.symm) (hi ▸ hheader))
    rcases Nat.lt_trichotomy i j with hij | hij | hij
    · exact absurd heq (hless hi hj hij)
    · exact hij
    · exact absurd heq.symm (hless hj hi hij)
  have hoften : ∀ᶠ i in atTop, (n (i + 1)).point.block = header →
      plan.settings.loopVisitLimit < (n (i + 1)).point.visits := by
    rw [← Nat.cofinite_eq_atTop]
    filter_upwards [hfew.eventually_cofinite_notMem] with i hi hblock
    exact Nat.lt_of_not_le fun hle => hi ⟨hblock, hle⟩
  rw [← map_add_atTop_eq_nat 1, eventually_map]
  filter_upwards [hoften] with i hi hblock y hy
  subst hblock
  exact (h.hop i).widened hheader (hi rfl) y hy

/-- A thread comes again and again to a header, after some time only with assignments to variables
of its loop in between. -/
theorem exists_header (h : Thread plan n) (hbuilt : p.flow.Built)
    (hplan : plan.Prepared p x settings polls) :
    ∃ header, plan.assigned.contains header = true ∧
      (∃ᶠ i in atTop, (n i).point.block = header) ∧
      ∀ᶠ i in atTop, ∀ y ∈ plan.assignedBlock (n i).point.block, y ∈ plan.assignedAt header := by
  obtain ⟨loops, hloops, -⟩ := hplan.assigned
  have hgraph : p.flow.graph.loops plan.entry = .ok loops := by
    rw [FlowGraph.loops, hplan.entry] at hloops
    cases hgraph : p.flow.graph.loops plan.entry with
    | error e => simp [hgraph, Except.mapError] at hloops
    | ok loops' => simpa [hgraph, Except.mapError] using hloops
  obtain ⟨header, hheader, hagain, hnodes⟩ :=
    hbuilt.sound.graph.exists_loop (hbuilt.sound.entry hplan.entry) hgraph
      (b := fun i => (n i).point.block) (h.entry ▸ .refl) fun i => hplan.procedure ▸ (h.hop i).edge
  obtain ⟨hcontains, l, hl, hlheader, hassigned⟩ := hplan.exists_assignedAt hloops hheader
  exact ⟨header, hcontains, hagain, (hnodes l hl hlheader).mono fun i hi => hassigned _ hi⟩

/-- After some time only finitely many states occur at a header to whose loop a thread keeps. -/
theorem exists_finite_states (h : Thread plan n) (hbuilt : p.flow.Built)
    (hplan : plan.Prepared p x settings polls) (hheader : plan.assigned.contains header = true)
    (hassigned : ∀ᶠ i in atTop,
      ∀ y ∈ plan.assignedBlock (n i).point.block, y ∈ plan.assignedAt header) :
    ∃ states : Set State, states.Finite ∧
      ∀ᶠ i in atTop, (n i).point.block = header → (n i).state ∈ states := by
  have hvalues : ∀ y, ∃ found : Set (Option Value), found.Finite ∧
      ∀ᶠ i in atTop, (n i).point.block = header → (n i).state.lookup y ∈ found := by
    intro y
    by_cases hy : y ∈ plan.assignedAt header
    · refine ⟨_, (h.finite_widened hbuilt hplan y).image some, ?_⟩
      filter_upwards [h.eventually_widened hheader] with i hi hblock
      obtain ⟨id, hlookup⟩ := hi hblock y hy
      exact ⟨_, ⟨i, i, id, by rw [hblock], hlookup⟩, hlookup.symm⟩
    · obtain ⟨found, hfinite, hfound⟩ := h.exists_finite_of_unassigned hbuilt hplan
        (hassigned.mono fun i hi hmem => hy (hi y hmem))
      exact ⟨found, hfinite, hfound.mono fun i hi _ => hi⟩
  choose found hfinite hfound using hvalues
  refine ⟨_, Node.finite_settled h.finite_bound fun y _ => hfinite y, ?_⟩
  -- all variables that are ever bound have settled down after some time
  filter_upwards [(eventually_all_finite h.finite_bound).2 fun y _ => hfound y] with i hi hblock
  refine ⟨⟨n i, h.settled i, rfl⟩, fun y hy => hi y hy hblock, fun y hy => ?_⟩
  rw [Option.eq_none_iff_forall_ne_some]
  exact fun v hv => hy ⟨i, v, hv⟩

/-- A run that does not meet a node twice has no endless thread. -/
theorem false (h : Thread plan n) (hbuilt : p.flow.Built)
    (hplan : plan.Prepared p x settings polls) : False := by
  obtain ⟨header, hheader, hagain, hassigned⟩ := h.exists_header hbuilt hplan
  obtain ⟨states, hfinite, hstates⟩ := h.exists_finite_states hbuilt hplan hheader hassigned
  have hoften := hagain.and_eventually hstates
  rw [← map_add_atTop_eq_nat 1, frequently_map, Nat.frequently_atTop_iff_infinite] at hoften
  refine Set.infinite_of_injOn_mapsTo (f := fun i => (n (i + 1)).state) ?_
    (fun i hi => hi.2 hi.1) hoften hfinite
  rintro i ⟨hi, -⟩ j ⟨hj, -⟩ heq
  rcases Nat.lt_trichotomy i j with hij | hij | hij
  · exact absurd heq (h.distinct hij (hi.trans hj.symm))
  · exact hij
  · exact absurd heq.symm (h.distinct hij (hj.trans hi.symm))

end Thread

end Pathwise
