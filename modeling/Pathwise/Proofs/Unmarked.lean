import Pathwise.Proofs.Arrival
import Pathwise.Proofs.Lasting

/-!
# States without the marks of the rule on salts

The rule on salts marks new arrays as predictable and as too short. Leaving these marks out of a
state commutes with all that a run does to states: nothing else writes a mark, and nothing else
looks at one. The other checks answer the same with the marks and without them.
-/

namespace Pathwise

/-! ## Marks -/

/-- The domains that have a mark. -/
def Domain.hasMark : Domain → Bool
  | .byteArray | .saltSize => true
  | .nullability | .truth | .disposal => false

/-- Whether a constraint is a mark. -/
def Constraint.isMark : Constraint → Bool
  | .byteArray .constant | .saltSize .short => true
  | _ => false

/-- In a domain without marks no constraint is a mark. -/
theorem Constraint.isMark_of_domain {c : Constraint} (h : c.domain.hasMark = false) :
    c.isMark = false := by
  cases c with
  | nullability | truth | disposal => rfl
  | byteArray | saltSize => cases h

namespace ConstraintSet

/-- The set without marks. -/
def unmarked (set : ConstraintSet) : ConstraintSet :=
  { set with
    byteArray := set.byteArray.filter (· != .constant)
    saltSize := set.saltSize.filter (· != .short) }

/-- A set without marks has the same members in the other domains. -/
theorem get?_unmarked (set : ConstraintSet) {d : Domain} (hd : d.hasMark = false) :
    set.unmarked.get? d = set.get? d := by
  cases d with
  | nullability | truth | disposal => rfl
  | byteArray | saltSize => cases hd

/-- A constraint that is no mark may be inserted before or after the marks are taken out. -/
theorem unmarked_insert (set : ConstraintSet) {c : Constraint} (hc : c.isMark = false) :
    (set.insert c).unmarked = set.unmarked.insert c := by
  cases c with
  | nullability | truth | disposal => rfl
  | byteArray b => cases b with
    | constant => cases hc
    | modified => rfl
  | saltSize z => cases z with
    | short => cases hc
    | safe => rfl

/-- A mark in a domain of which there is no member yet goes unnoticed. -/
theorem unmarked_insert_mark (set : ConstraintSet) {c : Constraint} (hc : c.isMark = true)
    (hnone : set.get? c.domain = none) : (set.insert c).unmarked = set.unmarked := by
  unfold Constraint.isMark at hc
  split at hc
  · have hbytes : set.byteArray = none := by simpa [get?, Constraint.domain] using hnone
    simp [unmarked, insert, hbytes]
  · have hsize : set.saltSize = none := by simpa [get?, Constraint.domain] using hnone
    simp [unmarked, insert, hsize]
  · cases hc

end ConstraintSet

/-- The fact without marks. -/
def Fact.unmarked (f : Fact) : Fact := ⟨f.value, f.held.unmarked⟩

/-- A fingerprint without marks. -/
def Fingerprint.unmarked (f : Fingerprint) : Fingerprint :=
  .ofParts f.bindings f.stack (f.facts.map fun (id, set) => (id, set.unmarked))

/-! ## States -/

namespace State

/-- The state without marks. -/
def unmarked (s : State) : State := { s with facts := s.facts.mapValues Fact.unmarked }

variable {s s' : State} {v : Value} {c : Constraint}

/-- The facts without marks are the facts, each without its marks. -/
theorem facts_unmarked (s : State) (i : Nat) :
    s.unmarked.facts.get? i = (s.facts.get? i).map Fact.unmarked :=
  SortedMap.get?_mapValues s.facts Fact.unmarked i

/-- What is recorded about a value loses its marks. -/
theorem recorded_unmarked (s : State) (v : Value) :
    s.unmarked.recorded v = (s.recorded v).unmarked := by
  unfold recorded
  rw [facts_unmarked]
  cases s.facts.get? v.id <;> rfl

/-- Constraints of domains without marks stay. -/
theorem constraint_unmarked (s : State) (v : Value) {d : Domain} (hd : d.hasMark = false) :
    s.unmarked.constraint v d = s.constraint v d := by
  unfold constraint
  rw [recorded_unmarked, ConstraintSet.get?_unmarked _ hd]

/-- So does what holds. -/
theorem holds_unmarked (s : State) (v : Value) (hc : c.domain.hasMark = false) :
    s.unmarked.holds v c = s.holds v c := by
  unfold holds
  rw [constraint_unmarked s v hc]

/-- What is no mark may be recorded before or after the marks are taken out. -/
theorem unmarked_record (s : State) (v : Value) (hc : c.isMark = false) :
    (s.record v c).unmarked = s.unmarked.record v c := by
  unfold unmarked record
  dsimp only
  rw [SortedMap.mapValues_insert]
  congr 2
  unfold Fact.unmarked
  rw [ConstraintSet.unmarked_insert _ hc]
  exact congrArg _ (congrArg (·.insert c) (recorded_unmarked s v).symm)

/-- A mark in a domain of which nothing was recorded goes unnoticed. -/
theorem unmarked_record_mark (hc : c.isMark = true) {held : ConstraintSet}
    (hfact : s.facts.get? v.id = some ⟨v, held⟩) (hnone : held.get? c.domain = none) :
    (s.record v c).unmarked = s.unmarked := by
  refine ext_get? rfl rfl fun i => ?_
  have hrecorded : s.recorded v = held := by rw [recorded, hfact]
  rw [facts_unmarked, facts_unmarked, facts_record, hrecorded]
  split
  · next hi =>
    rw [hi, hfact, Option.map_some, Option.map_some, Fact.unmarked, Fact.unmarked,
      ConstraintSet.unmarked_insert_mark held hc hnone]
  · rfl

/-- So it is with overwriting. -/
theorem unmarked_overwrite (s : State) (v : Value) (hc : c.isMark = false) :
    (s.overwrite v c).unmarked = s.unmarked.overwrite v c := by
  unfold overwrite
  split
  · rfl
  · exact unmarked_record s v hc

/-- Facts may be forgotten before or after. -/
theorem unmarked_forget (s : State) (v : Value) : (s.forget v).unmarked = s.unmarked.forget v :=
  congrArg (State.mk s.bindings s.stack) (SortedMap.mapValues_filter _ _ _)

/-- A state may be cleaned before or after. -/
theorem unmarked_clean (s : State) : s.clean.unmarked = s.unmarked.clean :=
  congrArg (State.mk s.bindings s.stack) (SortedMap.mapValues_filter _ _ _)

/-- Without marks the values are the same, so they come from the same ledger. -/
theorem DrawnFrom.unmarked {l : List Value} (h : s.DrawnFrom l) : s.unmarked.DrawnFrom l where
  lookup_mem := h.lookup_mem
  stack_mem := h.stack_mem
  fact_mem := by
    intro i f hf
    rw [facts_unmarked] at hf
    obtain ⟨g, hg, rfl⟩ := Option.map_eq_some_iff.1 hf
    exact h.fact_mem (f := g) hg

/-- The fingerprint of a state without marks is its fingerprint without marks. -/
theorem fingerprint_unmarked (s : State) : s.unmarked.fingerprint = s.fingerprint.unmarked := by
  refine congrArg (Fingerprint.ofParts _ _) ?_
  change (s.facts.entries.map fun e => (e.1, e.2.unmarked)).map _ = (s.facts.entries.map _).map _
  rw [List.map_map, List.map_map]
  rfl

/-- A value is popped whatever the marks. -/
theorem pop_unmarked (s : State) : s.unmarked.pop = (s.pop.1, s.pop.2.unmarked) := by
  rw [pop_eq, pop_eq]
  rfl

/-! ## Assumptions -/

/-- Marks play no part in what is carried on from a value. -/
theorem carry_unmarked (equal : Bool) (other : Value) {f : Constraint → State → Option State}
    (hf : ∀ c s, c.domain.hasMark = false → f c s.unmarked = (f c s).map unmarked) (s : State) :
    carry equal other f s.unmarked = (carry equal other f s).map unmarked := by
  have htruth : ∀ t : State, carryTruth equal other f t.unmarked =
      (carryTruth equal other f t).map unmarked := by
    intro t
    unfold carryTruth truth
    rw [constraint_unmarked t other rfl]
    split
    · exact hf _ t rfl
    · rfl
  have hnullability : carryNullability equal other f s.unmarked =
      (carryNullability equal other f s).map unmarked := by
    unfold carryNullability nullability
    rw [constraint_unmarked s other rfl]
    split
    · exact hf _ s rfl
    · exact hf _ s rfl
    · rfl
  rw [carry_eq, carry_eq, hnullability]
  cases carryNullability equal other f s with
  | none => rfl
  | some t => exact htruth t

/-- Nor do they in what is carried on in both directions. -/
theorem equate_unmarked (equal : Bool) {left right : Value}
    (hassume : ∀ o, o = left ∨ o = right → ∀ c s, c.domain.hasMark = false →
      assume o c s.unmarked = (assume o c s).map unmarked) (s : State) :
    equate equal left right s.unmarked = (equate equal left right s).map unmarked := by
  unfold equate
  rw [carry_unmarked equal left (hassume right (.inr rfl)) s]
  cases carry equal left (assume right) s with
  | none => rfl
  | some t => exact carry_unmarked equal right (hassume left (.inl rfl)) t

/-- An assumption that is not about marks comes to the same without them. -/
theorem assume_unmarked (v : Value) (s : State) (hc : c.domain.hasMark = false) :
    assume v c s.unmarked = (assume v c s).map unmarked := by
  induction v using Value.operandInduction generalizing c s with
  | h v ih =>
    have hoperand : ∀ o ∈ v.operands, ∀ c s, c.domain.hasMark = false →
        assume o c s.unmarked = (assume o c s).map unmarked := fun o ho c s hc => ih o ho s hc
    have hspread : ∀ s : State, spread c v s.unmarked = (spread c v s).map unmarked := by
      intro s
      unfold spread
      split
      · exact hoperand _ (by simp [Value.operands]) _ s rfl
      · exact equate_unmarked _ (fun o ho => hoperand o (by simpa [Value.operands] using ho)) s
      · exact equate_unmarked _ (fun o ho => hoperand o (by simpa [Value.operands] using ho)) s
      · rfl
    rw [assume_eq, assume_eq, constraint_unmarked s v hc]
    split
    · rfl
    · split
      · split <;> rfl
      · rw [← unmarked_record s v (Constraint.isMark_of_domain hc)]
        exact hspread _

end State

/-! ## Instructions and departures -/

namespace Outline

/-- Constraints that are no marks may all be written before or after. -/
theorem unmarked_writeAll {writes : List (Value × Constraint)}
    (hw : ∀ w ∈ writes, w.2.isMark = false) (s : State) :
    (writeAll writes s).unmarked = writeAll writes s.unmarked := by
  induction writes generalizing s with
  | nil => rfl
  | cons w rest ih =>
    have hrest := ih (fun v hv => hw v (List.mem_cons_of_mem _ hv)) (s.overwrite w.1 w.2)
    rw [State.unmarked_overwrite s w.1 (hw w List.mem_cons_self)] at hrest
    exact hrest

/-- So an outline that writes no marks may be applied before or after. -/
theorem unmarked_apply {o : Outline} (hw : ∀ w ∈ o.writes, w.2.isMark = false) (s : State) :
    (o.apply s).unmarked = o.apply s.unmarked := by
  obtain ⟨rebinds, writes, pushed, supply⟩ := o
  have hpushed : ∀ t : State, (Outline.apply ⟨none, writes, pushed, supply⟩ t).unmarked =
      Outline.apply ⟨none, writes, pushed, supply⟩ t.unmarked := by
    intro t
    cases pushed with
    | none => exact unmarked_writeAll hw t
    | some v => exact congrArg (State.push · v) (unmarked_writeAll hw t)
  cases rebinds with
  | none => exact hpushed s
  | some r => exact hpushed (s.bind r.1 r.2)

end Outline

namespace Setting

variable {x : Setting}

/-- The known methods leave no marks, and neither does an instruction. -/
theorem MayWrite.isMark (heffects : x.effects = .standard) {v : Value} {c : Constraint}
    (h : x.MayWrite v c) : c.isMark = false := by
  cases h with
  | created => rfl
  | effect he =>
    rw [heffects] at he
    rcases Effects.mem_standard he with rfl | rfl <;> rfl

/-- An instruction does the same without marks. -/
theorem execute_unmarked (heffects : x.effects = .standard) (i : Instruction) (σ : Supply)
    (s : State) : x.execute i σ s.unmarked =
      ((x.execute i σ s).1.unmarked, (x.execute i σ s).2) := by
  have hoperands : x.outline i σ s.unmarked = x.outline i σ s := x.outline_congr i σ rfl rfl
  have hwrites : ∀ w ∈ (x.outline i σ s).writes, w.2.isMark = false :=
    fun w hw => (mayWrite_outline hw).isMark heffects
  rw [execute_eq, execute_eq, hoperands]
  exact Prod.ext (Outline.unmarked_apply hwrites
    { s with stack := s.stack.drop i.operation.operandCount }).symm rfl

end Setting

/-- The departure without marks. -/
def Departure.unmarked : Departure → Departure
  | .blocked => .blocked
  | .into block s => .into block s.unmarked

namespace Departure

/-- Whether a side of a branch is taken does not depend on marks. -/
theorem ofBranch_unmarked (tail : Nat) (t : Truth) (condition : Value) (s : State) :
    ofBranch tail t condition s.unmarked = (ofBranch tail t condition s).unmarked := by
  unfold ofBranch
  rw [State.assume_unmarked condition s rfl]
  cases State.assume condition (.truth t) s <;> rfl

/-- Nor does what becomes of an edge. -/
theorem ofEdge_unmarked (merged : Bool) (s : State) (e : FlowEdge) :
    ofEdge merged s.unmarked e = (ofEdge merged s e).map unmarked := by
  unfold ofEdge
  rw [State.pop_unmarked]
  split
  · rfl
  · rfl
  · split
    · rfl
    · exact congrArg some (ofBranch_unmarked _ _ _ _)
  · split
    · rfl
    · exact congrArg some (ofBranch_unmarked _ _ _ _)

/-- Nor what becomes of it by an exception. -/
theorem ofHandler_unmarked (s : State) (e : FlowEdge) :
    ofHandler s.unmarked e = (ofHandler s e).map unmarked := by
  unfold ofHandler
  split <;> rfl

end Departure

namespace Plan

/-- The departures from the end of a block are those with marks, without their marks. -/
theorem departures_unmarked (plan : Plan) (index : Nat) (s : State) :
    plan.departures index s.unmarked = (plan.departures index s).map Departure.unmarked := by
  unfold departures
  rw [List.map_filterMap]
  exact congrArg (List.filterMap · _) (funext fun e => Departure.ofEdge_unmarked _ s e)

/-- So are the departures by an exception. -/
theorem handlers_unmarked (plan : Plan) (index : Nat) (s : State) :
    plan.handlers index s.unmarked = (plan.handlers index s).map Departure.unmarked := by
  unfold handlers
  rw [List.map_filterMap]
  exact congrArg (List.filterMap · _) (funext fun e => Departure.ofHandler_unmarked s e)

/-- As many nodes can be reached from a state without marks. -/
theorem reach_unmarked (plan : Plan) (s : State) : plan.reach s.unmarked = plan.reach s := by
  have hsize : s.unmarked.facts.size = s.facts.size := List.length_map _
  unfold reach
  rw [hsize]

end Plan

namespace Run

/-- A variable is widened whatever the marks. -/
theorem widenVariable_unmarked (header : Nat) (s : State) (σ : Supply) (x : Symbol) :
    widenVariable header (s.unmarked, σ) x =
      ((widenVariable header (s, σ) x).1.unmarked, (widenVariable header (s, σ) x).2) :=
  Prod.ext (State.unmarked_forget (s.bind x (σ.widened header x).1) _).symm rfl

/-- So are all variables of a loop. -/
theorem widenVariables_unmarked (header : Nat) (symbols : List Symbol) (s : State) (σ : Supply) :
    symbols.foldl (widenVariable header) (s.unmarked, σ) =
      ((symbols.foldl (widenVariable header) (s, σ)).1.unmarked,
        (symbols.foldl (widenVariable header) (s, σ)).2) := by
  induction symbols generalizing s σ with
  | nil => rfl
  | cons x rest ih => rw [List.foldl_cons, widenVariable_unmarked, ih, List.foldl_cons]

/-- Widening does the same without marks. -/
theorem widen_unmarked (plan : Plan) (header : Nat) (s : State) (σ : Supply) :
    widen plan header s.unmarked σ =
      ((widen plan header s σ).1.unmarked, (widen plan header s σ).2) := by
  unfold widen
  dsimp only
  rw [widenVariables_unmarked]
  exact Prod.ext (State.unmarked_clean _).symm rfl

end Run

end Pathwise
