import Mathlib.Algebra.GroupWithZero.Nat
import Mathlib.Data.Finset.Option
import Mathlib.Data.Fintype.BigOperators
import Pathwise.Proofs.Whereabouts

/-!
# What can become of a state without instructions

Where no instruction is executed, the stack can be emptied, what is recorded can be dropped, and a
variable can get the value that belongs to it at the header of a loop that assigns it. The states
that descend from a state in this way are as few as the ways to choose among these, and so are the
nodes with such states.
-/

namespace Pathwise

namespace Supply

variable {σ σ' σ'' : Supply}

/-- A supply keeps the values that another has made for variables at loop headers. -/
def Extends (σ σ' : Supply) : Prop :=
  ∀ header x v, σ.canonical? header x = some v → σ'.canonical? header x = some v

/-- A supply extends itself. -/
theorem Extends.refl (σ : Supply) : σ.Extends σ := fun _ _ _ hv => hv

/-- Extensions can be composed. -/
theorem Extends.trans (h : σ.Extends σ') (h' : σ'.Extends σ'') : σ.Extends σ'' :=
  fun header x v hv => h' header x v (h header x v hv)

/-- What is handed out for a variable at a header is kept, and nothing is lost. -/
theorem widened_spec (σ : Supply) (header : Nat) (x : Symbol) :
    σ.Extends (σ.widened header x).2 ∧
      (σ.widened header x).2.canonical? header x = some (σ.widened header x).1 := by
  unfold widened
  split
  · next v hv => exact ⟨.refl σ, hv⟩
  · next hnone =>
    simp only [issue, Extends, canonical?_insert]
    refine ⟨fun header' x' v hv => ?_, by simp⟩
    rw [if_neg]
    · exact hv
    · rintro ⟨rfl, rfl⟩
      simp [hnone] at hv

end Supply

/-- A state comes from another without an instruction. -/
structure State.Descends (plan : Plan) (σ : Supply) (s t : State) : Prop where
  /-- The stack is kept or emptied. -/
  stack : t.stack = s.stack ∨ t.stack = []
  /-- A variable keeps its value or has the one made for it at a header whose loop assigns it. -/
  lookup : ∀ x, t.lookup x = s.lookup x ∨ ∃ header, x ∈ plan.assignedAt header ∧
    (σ.canonical? header x).isSome = true ∧ t.lookup x = σ.canonical? header x
  /-- What is recorded is kept or dropped. -/
  facts : ∀ i, t.facts.get? i = s.facts.get? i ∨ t.facts.get? i = none

namespace State.Descends

variable {plan : Plan} {σ σ' : Supply} {s t : State}

/-- A state descends from itself. -/
theorem refl (plan : Plan) (σ : Supply) (s : State) : s.Descends plan σ s :=
  ⟨.inl rfl, fun _ => .inl rfl, fun _ => .inl rfl⟩

/-- It still does when the supply has been extended. -/
theorem mono (h : s.Descends plan σ t) (hσ : σ.Extends σ') : s.Descends plan σ' t := by
  refine ⟨h.stack, fun x => (h.lookup x).imp_right ?_, h.facts⟩
  rintro ⟨header, hx, hsome, hlookup⟩
  obtain ⟨v, hv⟩ := Option.isSome_iff_exists.1 hsome
  have hv' := hσ header x v hv
  exact ⟨header, hx, by rw [hv', Option.isSome_some], by rw [hlookup, hv, hv']⟩

/-- The stack may be cleared on the way. -/
theorem clearStack (h : s.Descends plan σ t) : s.Descends plan σ t.clearStack :=
  ⟨.inr rfl, h.lookup, h.facts⟩

/-- The state may be cleaned on the way. -/
theorem clean (h : s.Descends plan σ t) : s.Descends plan σ t.clean := by
  refine ⟨h.stack, h.lookup, fun i => ?_⟩
  rw [State.facts_clean]
  split
  · exact h.facts i
  · exact .inr rfl

/-- A variable is widened at a header whose loop assigns it. -/
theorem widenVariable (h : s.Descends plan σ t) {header : Nat} {x : Symbol}
    (hx : x ∈ plan.assignedAt header) :
    s.Descends plan (Run.widenVariable header (t, σ) x).2
      (Run.widenVariable header (t, σ) x).1 := by
  obtain ⟨hextends, hkept⟩ := σ.widened_spec header x
  have hmono := h.mono hextends
  simp only [Run.widenVariable]
  refine ⟨hmono.stack, fun y => ?_, fun i => ?_⟩
  · rw [State.lookup_forget, State.lookup_bind]
    by_cases hy : y = x
    · subst hy
      rw [if_pos rfl, ← hkept]
      exact .inr ⟨header, hx, by rw [hkept, Option.isSome_some], rfl⟩
    · rw [if_neg hy]
      exact hmono.lookup y
  · rw [State.facts_forget]
    split
    · exact .inr rfl
    · exact hmono.facts i

/-- The variables of a loop may be widened on the way. -/
theorem widenVariables (h : s.Descends plan σ t) {header : Nat} {symbols : List Symbol}
    (hsymbols : ∀ x ∈ symbols, x ∈ plan.assignedAt header) :
    σ.Extends (symbols.foldl (Run.widenVariable header) (t, σ)).2 ∧
      s.Descends plan (symbols.foldl (Run.widenVariable header) (t, σ)).2
        (symbols.foldl (Run.widenVariable header) (t, σ)).1 := by
  induction symbols generalizing t σ with
  | nil => exact ⟨.refl σ, h⟩
  | cons x rest ih =>
    obtain ⟨hextends, hdescends⟩ := ih (h.widenVariable (hsymbols x List.mem_cons_self))
      fun y hy => hsymbols y (List.mem_cons_of_mem _ hy)
    exact ⟨(σ.widened_spec header x).1.trans hextends, hdescends⟩

/-- A state descends to what is made of it at the header of a loop. -/
theorem widen (h : s.Descends plan σ t) (header : Nat) :
    σ.Extends (Run.widen plan header t σ).2 ∧
      s.Descends plan (Run.widen plan header t σ).2 (Run.widen plan header t σ).1 := by
  obtain ⟨hextends, hdescends⟩ := h.widenVariables fun _ hx => hx
  exact ⟨hextends, hdescends.clean⟩

/-- The state with which control arrives at a block. -/
theorem arriving {run : Run} (h : s.Descends plan run.supply t) (block : Nat) :
    run.supply.Extends (run.counting plan block t).supply ∧
      s.Descends plan (run.counting plan block t).supply (run.arriving plan block t).state := by
  simp only [Run.counting, Run.arriving]
  by_cases hwidens : Run.Widens plan run block
  · simp only [if_pos hwidens]
    exact h.clean.widen block
  · simp only [if_neg hwidens]
    exact ⟨.refl _, h.clean⟩

end State.Descends

/-! ## Counting -/

namespace Plan

variable {plan : Plan} {header : Nat} {x : Symbol}

/-- The headers of the loops. -/
def headers (plan : Plan) : Finset Nat := plan.assigned.keys.toFinset

/-- The variables that some loop assigns. -/
def loopVariables (plan : Plan) : Finset Symbol :=
  (plan.assigned.values.flatMap SortedSet.toList).toFinset

/-- There are at most as many headers as the plan has entries. -/
theorem card_headers_le (plan : Plan) : plan.headers.card ≤ plan.assigned.size := by
  refine (List.toFinset_card_le _).trans ?_
  simp [SortedMap.keys, SortedMap.size]

/-- There are at most as many loop variables as the entries list together. -/
theorem card_loopVariables_le (plan : Plan) : plan.loopVariables.card ≤
    plan.assigned.values.foldl (fun n symbols => n + symbols.size) 0 := by
  have hsum : ∀ (sets : List (SortedSet Symbol)) (n : Nat),
      sets.foldl (fun n symbols => n + symbols.size) n =
        n + (sets.flatMap SortedSet.toList).length := by
    intro sets
    induction sets with
    | nil => simp
    | cons set rest ih =>
      intro n
      rw [List.foldl_cons, ih, List.flatMap_cons, List.length_append]
      simp [SortedSet.toList, SortedMap.keys, SortedMap.size, Nat.add_assoc]
  rw [hsum, Nat.zero_add]
  exact List.toFinset_card_le _

/-- An assigned variable is a loop variable, and its loop has a header. -/
theorem mem_of_assignedAt (h : x ∈ plan.assignedAt header) :
    header ∈ plan.headers ∧ x ∈ plan.loopVariables := by
  unfold assignedAt at h
  cases hget : plan.assigned.get? header with
  | none => simp [hget, SortedSet.toList, SortedMap.mem_keys] at h
  | some symbols =>
    rw [hget, Option.getD_some] at h
    refine ⟨List.mem_toFinset.2 (SortedMap.mem_keys.2 ⟨symbols, hget⟩), List.mem_toFinset.2 ?_⟩
    exact List.mem_flatMap.2 ⟨symbols, SortedMap.mem_values.2 ⟨header, hget⟩, h⟩

end Plan

namespace State

variable {plan : Plan} {σ : Supply} {s t u : State}

open Classical in
/-- The header from which a variable has its value in a descendant, none if it has kept its
value. -/
noncomputable def header? (plan : Plan) (σ : Supply) (s t : State) (x : Symbol) : Option Nat :=
  if t.lookup x = s.lookup x then none
  else if h : ∃ header ∈ plan.headers, t.lookup x = σ.canonical? header x then some h.choose
  else none

/-- What was chosen for a descendant: whether its stack is empty, from where the variables of loops
have their values, and about which values it has kept what was recorded. -/
noncomputable def choices (plan : Plan) (σ : Supply) (s t : State) :
    Bool × (∀ x ∈ plan.loopVariables, Option Nat) × Finset Nat :=
  (t.stack.isEmpty, fun x _ => header? plan σ s t x,
    s.facts.keys.toFinset.filter fun i => (t.facts.get? i).isSome)

/-- A variable has the value it had, or the canonical one of a header. -/
theorem header?_cases (ht : s.Descends plan σ t) (x : Symbol) :
    (header? plan σ s t x = none ∧ t.lookup x = s.lookup x) ∨
      ∃ header ∈ plan.headers, header? plan σ s t x = some header ∧
        t.lookup x = σ.canonical? header x := by
  unfold header?
  by_cases hkept : t.lookup x = s.lookup x
  · exact .inl ⟨if_pos hkept, hkept⟩
  · right
    obtain ⟨header, hx, -, hlookup⟩ := (ht.lookup x).resolve_left hkept
    have hexists : ∃ header ∈ plan.headers, t.lookup x = σ.canonical? header x :=
      ⟨header, (Plan.mem_of_assignedAt hx).1, hlookup⟩
    exact ⟨_, hexists.choose_spec.1, by rw [if_neg hkept, dif_pos hexists], hexists.choose_spec.2⟩

/-- The header determines the value. -/
theorem lookup_eq_of_header? (ht : s.Descends plan σ t) (hu : s.Descends plan σ u) {x : Symbol}
    (h : header? plan σ s t x = header? plan σ s u x) : t.lookup x = u.lookup x := by
  rcases header?_cases ht x with ⟨hnone, hkept⟩ | ⟨header, -, hsome, hlookup⟩
  · rcases header?_cases hu x with ⟨-, hkept'⟩ | ⟨header', -, hsome', -⟩
    · rw [hkept, hkept']
    · rw [hnone, hsome'] at h
      cases h
  · rcases header?_cases hu x with ⟨hnone', -⟩ | ⟨header', -, hsome', hlookup'⟩
    · rw [hsome, hnone'] at h
      cases h
    · rw [hsome, hsome'] at h
      rw [hlookup, hlookup', Option.some.inj h]

/-- What is recorded in a descendant is determined by about which values it has kept it. -/
theorem facts_eq_of_descends (ht : s.Descends plan σ t) (i : Nat) : t.facts.get? i =
    if i ∈ s.facts.keys.toFinset.filter fun i => (t.facts.get? i).isSome then s.facts.get? i
    else none := by
  split
  · next hi =>
    have hsome := (Finset.mem_filter.1 hi).2
    refine (ht.facts i).resolve_right fun hnone => ?_
    simp [hnone] at hsome
  · next hi =>
    rcases ht.facts i with hsame | hnone
    · cases hget : t.facts.get? i with
      | none => rfl
      | some fact =>
        refine absurd (Finset.mem_filter.2 ⟨List.mem_toFinset.2 ?_, by simp [hget]⟩) hi
        exact SortedMap.mem_keys.2 ⟨fact, hsame.symm.trans hget⟩
    · exact hnone

/-- A descendant is determined by the choices. -/
theorem eq_of_choices (ht : s.Descends plan σ t) (hu : s.Descends plan σ u)
    (h : choices plan σ s t = choices plan σ s u) : t = u := by
  obtain ⟨hempty, hrest⟩ := Prod.mk.inj h
  obtain ⟨hheaders, hkeys⟩ := Prod.mk.inj hrest
  refine ext_get? (SortedMap.ext_get? fun x => ?_) ?_ fun i => ?_
  · by_cases hx : x ∈ plan.loopVariables
    · exact lookup_eq_of_header? ht hu (congrFun (congrFun hheaders x) hx)
    · have hkept : ∀ {w : State}, s.Descends plan σ w → w.lookup x = s.lookup x := by
        intro w hw
        refine (hw.lookup x).resolve_right ?_
        rintro ⟨header, hassigned, -⟩
        exact hx (Plan.mem_of_assignedAt hassigned).2
      exact (hkept ht).trans (hkept hu).symm
  · have hstack : t.stack = [] ↔ u.stack = [] := by
      rw [← List.isEmpty_iff, ← List.isEmpty_iff, hempty]
    rcases ht.stack with hsame | hnil
    · rcases hu.stack with hsame' | hnil'
      · rw [hsame, hsame']
      · rw [hstack.2 hnil', hnil']
    · rw [hnil, hstack.1 hnil]
  · rw [facts_eq_of_descends ht, facts_eq_of_descends hu, hkeys]

/-- All choices that there are for the descendants of a state. -/
def allChoices (plan : Plan) (s : State) :
    Finset (Bool × (∀ x ∈ plan.loopVariables, Option Nat) × Finset Nat) :=
  Finset.univ ×ˢ plan.loopVariables.pi (fun _ => plan.headers.insertNone) ×ˢ
    s.facts.keys.toFinset.powerset

/-- The choices of a descendant are among all choices. -/
theorem choices_mem (ht : s.Descends plan σ t) : choices plan σ s t ∈ allChoices plan s := by
  refine Finset.mem_product.2 ⟨Finset.mem_univ _, Finset.mem_product.2 ⟨?_, ?_⟩⟩
  · refine Finset.mem_pi.2 fun x _ => Finset.mem_insertNone.2 fun header hheader => ?_
    rcases header?_cases ht x with ⟨hnone, -⟩ | ⟨header', hmem, hsome, -⟩
    · simp [choices, hnone] at hheader
    · obtain rfl : header' = header := by simpa [choices, hsome] using hheader
      exact hmem
  · exact Finset.mem_powerset.2 (Finset.filter_subset _ _)

/-- How many choices there are at most. -/
theorem card_allChoices_le (plan : Plan) (s : State) : (allChoices plan s).card ≤
    2 * ((plan.assigned.size + 1) ^
      plan.assigned.values.foldl (fun n symbols => n + symbols.size) 0 * 2 ^ s.facts.size) := by
  have hkeys : s.facts.keys.toFinset.card ≤ s.facts.size :=
    (List.toFinset_card_le _).trans (by simp [SortedMap.keys, SortedMap.size])
  rw [allChoices, Finset.card_product, Finset.card_product, Finset.card_pi, Finset.prod_const,
    Finset.card_insertNone, Finset.card_powerset, Finset.card_univ, Fintype.card_bool]
  refine Nat.mul_le_mul_left 2 (Nat.mul_le_mul ?_ (Nat.pow_le_pow_right (by omega) hkeys))
  calc (plan.headers.card + 1) ^ plan.loopVariables.card
      ≤ (plan.assigned.size + 1) ^ plan.loopVariables.card :=
        Nat.pow_le_pow_left (by have := plan.card_headers_le; omega) _
    _ ≤ _ := Nat.pow_le_pow_right (by omega) plan.card_loopVariables_le

end State

/-- Two nodes are the same for a run: at the same block, with states of the same fingerprint. -/
def Node.Same (a b : Node) : Prop :=
  a.point.block = b.point.block ∧ a.state.fingerprint = b.state.fingerprint

/-- The block of a node and the choices for its state. -/
noncomputable def Node.choices (plan : Plan) (σ : Supply) (s : State) (n : Node) :
    Nat × Bool × (∀ x ∈ plan.loopVariables, Option Nat) × Finset Nat :=
  (n.point.block, State.choices plan σ s n.state)

/-- Nodes that differ and whose states descend from one state are no more than can be reached from
it. -/
theorem Plan.length_le_reach {plan : Plan} (σ : Supply) {s : State} {nodes : List Node}
    (hdistinct : nodes.Pairwise fun a b => ¬a.Same b)
    (hblock : ∀ n ∈ nodes, plan.procedure.flow.graph.hasVertex n.point.block = true)
    (hstate : ∀ n ∈ nodes, s.Descends plan σ n.state) : nodes.length ≤ plan.reach s := by
  classical
  have hnodup : (nodes.map (Node.choices plan σ s)).Nodup := by
    refine List.pairwise_map.2 (hdistinct.imp_of_mem fun {a b} ha hb hne heq => hne ?_)
    obtain ⟨hsame, hchoices⟩ := Prod.mk.inj heq
    exact ⟨hsame, by rw [State.eq_of_choices (hstate a ha) (hstate b hb) hchoices]⟩
  have hsubset : (nodes.map (Node.choices plan σ s)).toFinset ⊆
      plan.procedure.flow.graph.indices.toFinset ×ˢ State.allChoices plan s := by
    intro c hc
    obtain ⟨n, hn, rfl⟩ := List.mem_map.1 (List.mem_toFinset.1 hc)
    refine Finset.mem_product.2 ⟨List.mem_toFinset.2 ?_, State.choices_mem (hstate n hn)⟩
    exact Graph.mem_indices.2 (hblock n hn)
  calc nodes.length = (nodes.map (Node.choices plan σ s)).toFinset.card := by
        rw [List.toFinset_card_of_nodup hnodup, List.length_map]
    _ ≤ plan.procedure.flow.graph.indices.toFinset.card * (State.allChoices plan s).card := by
        rw [← Finset.card_product]
        exact Finset.card_le_card hsubset
    _ ≤ plan.procedure.flow.graph.size * (2 * ((plan.assigned.size + 1) ^
          plan.assigned.values.foldl (fun n symbols => n + symbols.size) 0 *
            2 ^ s.facts.size)) :=
        Nat.mul_le_mul Graph.card_indices_le (State.card_allChoices_le plan s)
    _ = plan.reach s := by
        rw [Plan.reach, ← Nat.mul_assoc, ← Nat.mul_assoc]
        rfl

/-- Nodes that differ and whose states descend from some of several nodes are no more than can be
reached from those. -/
theorem Plan.length_le_sum_reach {plan : Plan} {σ : Supply} {origins nodes : List Node}
    (hdistinct : nodes.Pairwise fun a b => ¬a.Same b)
    (hblock : ∀ n ∈ nodes, plan.procedure.flow.graph.hasVertex n.point.block = true)
    (hstate : ∀ n ∈ nodes, ∃ o ∈ origins, o.state.Descends plan σ n.state) :
    nodes.length ≤ (origins.map (plan.reach ·.state)).sum := by
  classical
  induction origins generalizing nodes with
  | nil =>
    have hnone : nodes = [] := List.eq_nil_iff_forall_not_mem.2 fun n hn => by
      obtain ⟨o, ho, -⟩ := hstate n hn
      cases ho
    simp [hnone]
  | cons o origins ih =>
    -- the nodes from the first origin apart from the others
    have hfirst : (nodes.filter fun n => decide (o.state.Descends plan σ n.state)).length ≤
        plan.reach o.state := by
      refine length_le_reach σ (hdistinct.filter _) (fun n hn => ?_) fun n hn => ?_
      · exact hblock n (List.mem_filter.1 hn).1
      · exact of_decide_eq_true (List.mem_filter.1 hn).2
    have hothers : (nodes.filter fun n => !decide (o.state.Descends plan σ n.state)).length ≤
        (origins.map (plan.reach ·.state)).sum := by
      refine ih (hdistinct.filter _) (fun n hn => ?_) fun n hn => ?_
      · exact hblock n (List.mem_filter.1 hn).1
      · obtain ⟨hmem, hnot⟩ := List.mem_filter.1 hn
        obtain ⟨o', ho', hdescends⟩ := hstate n hmem
        rcases List.mem_cons.1 ho' with rfl | ho'
        · simp [hdescends] at hnot
        · exact ⟨o', ho', hdescends⟩
    rw [List.map_cons, List.sum_cons,
      List.length_eq_length_filter_add fun n => decide (o.state.Descends plan σ n.state)]
    omega

end Pathwise
