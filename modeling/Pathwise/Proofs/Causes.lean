import Pathwise.Proofs.Canonical
import Pathwise.Proofs.Unmarked

/-!
# What makes a value suspect

The rules on salts and on disposal report what a state holds of a value: that it is a predictable or
a short array, or that it has been disposed. A value is suspect for a cause only: an instruction has
made the array, or has disposed of the object, and the array has not been filled since. Here is what
one instruction can do to such a suspicion; departures and arrivals never bring one about.
-/

namespace Pathwise

/-- The constraints on which the rules on salts and on disposal report. -/
def Constraint.isSuspect : Constraint → Bool
  | .byteArray .constant | .saltSize .short | .disposal .disposed => true
  | _ => false

variable {c : Constraint} {v : Value} {s s' : State}

/-- There are three suspect constraints. -/
theorem Constraint.isSuspect_cases (h : c.isSuspect = true) :
    c = .byteArray .constant ∨ c = .saltSize .short ∨ c = .disposal .disposed := by
  unfold isSuspect at h
  split at h
  · exact .inl rfl
  · exact .inr (.inl rfl)
  · exact .inr (.inr rfl)
  · cases h

/-- No value is suspect by what it is. -/
theorem Value.intrinsic_of_isSuspect (h : c.isSuspect = true) (v : Value) :
    v.intrinsic.get? c.domain = none := by
  refine v.intrinsic_get?_of_abstract ?_ ?_ <;>
    rcases Constraint.isSuspect_cases h with rfl | rfl | rfl <;> simp [Constraint.domain]

namespace State

/-- A suspicion after something has been recorded is what was recorded, or it was there before, and
nothing was recorded about the value in its domain. -/
theorem holds_of_overwrite (hc : c.isSuspect = true) {u : Value} {e : Constraint}
    (h : (s.overwrite u e).holds v c = true) :
    (v.id = u.id ∧ e = c) ∨
      (s.holds v c = true ∧ (v.isUnknown = false → v.id = u.id → e.domain ≠ c.domain)) := by
  unfold overwrite at h
  split at h
  · next hunknown =>
    refine .inr ⟨h, fun hknown hid => ?_⟩
    simp [Value.isUnknown, hid] at hknown hunknown
    exact absurd hunknown hknown
  · rw [holds, constraint_record, v.intrinsic_of_isSuspect hc] at h
    split at h
    · next hsame => exact .inl ⟨hsame.1, by simpa using h⟩
    · next hother => exact .inr ⟨h, fun _ hid hdomain => hother ⟨hid, hdomain.symm⟩⟩

/-- A suspicion after an assumption is what was assumed, or it was there before. -/
theorem holds_of_assume (hc : c.isSuspect = true) {u : Value} {e : Constraint}
    (he : e.domain ≠ .truth) (hassume : assume u e s = some s') (h : s'.holds v c = true) :
    (v.id = u.id ∧ e = c) ∨ s.holds v c = true := by
  rcases assume_of_not_truth he hassume with rfl | rfl
  · exact .inr h
  · exact (holds_of_overwrite hc h).imp_right And.left

/-- Of the unknown value nothing suspect holds. -/
theorem DrawnFrom.known_of_holds {l : List Value} (hs : s.DrawnFrom l) (hc : c.isSuspect = true)
    (h : s.holds v c = true) : v.isUnknown = false := by
  cases hfact : s.facts.get? v.id with
  | none =>
    simp [holds, constraint, v.intrinsic_of_isSuspect hc, recorded, hfact] at h
  | some f => simpa [Value.isUnknown] using (hs.fact_mem hfact).2.2

/-- Assuming that a condition is true or false brings no suspicion about. -/
theorem holds_of_assume_truth {u : Value} {t : Truth} (hc : c.isSuspect = true)
    (hassume : assume u (.truth t) s = some s') (h : s'.holds v c = true) :
    s.holds v c = true := by
  refine assume_induction (P := fun s' => s'.holds v c = true → s.holds v c = true)
    (fun w e s₁ _ hknown _ he hs₁ hheld => ?_) hassume id h
  rw [← overwrite_of_known hknown] at hheld
  rcases holds_of_overwrite hc hheld with ⟨-, rfl⟩ | ⟨hheld, -⟩
  · rcases Constraint.isSuspect_cases hc with rfl | rfl | rfl <;> simp [Constraint.domain] at he
  · exact hs₁ hheld

end State

/-! ## Arrivals -/

namespace Run

/-- Widening a variable records nothing. -/
theorem facts_widenVariable (header : Nat) (acc : State × Supply) (y : Symbol) {k : Nat} {f : Fact}
    (h : (widenVariable header acc y).1.facts.get? k = some f) :
    acc.1.facts.get? k = some f := by
  have hforget := State.facts_forget (acc.1.bind y (acc.2.widened header y).1)
    (acc.2.widened header y).1 k
  rw [widenVariable] at h
  dsimp only at h
  rw [hforget] at h
  split at h
  · cases h
  · exact h

/-- Control arrives with nothing recorded that was not recorded when it departed. -/
theorem facts_arriving (plan : Plan) (run : Run) (block : Nat) {k : Nat} {f : Fact}
    (h : (run.arriving plan block s).state.facts.get? k = some f) :
    s.facts.get? k = some f := by
  have hclean : ∀ {t : State}, t.clean.facts.get? k = some f → t.facts.get? k = some f := by
    intro t ht
    rw [State.facts_clean] at ht
    split at ht
    · exact ht
    · cases ht
  unfold arriving at h
  dsimp only at h
  split at h
  · refine hclean (?_ : s.clean.facts.get? k = some f)
    refine List.foldlRecOn (motive := fun acc : State × Supply =>
      acc.1.facts.get? k = some f → s.clean.facts.get? k = some f) _ _ id
      (fun acc hacc y _ hy => hacc (facts_widenVariable block acc y hy)) (hclean h)
  · exact hclean h

/-- What is suspect where control arrives was suspect before. -/
theorem holds_of_arriving (plan : Plan) (run : Run) (block : Nat) (hc : c.isSuspect = true)
    (h : (run.arriving plan block s).state.holds v c = true) : s.holds v c = true := by
  unfold State.holds State.constraint State.recorded at h ⊢
  rw [v.intrinsic_of_isSuspect hc] at h ⊢
  cases hfact : (run.arriving plan block s).state.facts.get? v.id with
  | none => simp [hfact] at h
  | some f => rwa [facts_arriving plan run block hfact, ← hfact]

end Run

/-! ## Instructions -/

namespace Instruction

variable (semantics : Semantics) (i : Instruction)

/-- The arguments of a call, in a state before it. -/
def arguments (s : State) : List Value :=
  match i.operation with
  | .objectCreation arguments => s.operands arguments.length
  | .invocation arguments _ => s.operands arguments.length
  | _ => []

/-- The instruction makes an array of bytes with given lengths and leaves it on top of the stack. An
array of unknown type counts as one. -/
def MakesBytes (dimensions : List NodeId) (s : State) (v : Value) : Prop :=
  i.operation = .arrayCreation dimensions ∧
    (semantics.typeOf i.node = none ∨ semantics.typeOf i.node = some "byte[]") ∧
    (s.peek 0).id = v.id

/-- What the instruction says about the array that it leaves on top of the stack: it is predictable,
and it is short if it has one dimension and its length is a small constant. -/
def Marks (s : State) (v : Value) : Constraint → Prop
  | .byteArray .constant => ∃ dimensions, i.MakesBytes semantics dimensions s v
  | .saltSize .short => ∃ node length, i.MakesBytes semantics [node] s v ∧
    semantics.constant node = some (.integer length) ∧ length < 32
  | _ => False

/-- The instruction calls a method that fills its first argument with random bytes. -/
def Fills (s : State) (v : Value) : Prop :=
  (∃ m, semantics.method i.node = some m ∧
    m.containingType ∈ ["RandomNumberGenerator", "RNGCryptoServiceProvider"] ∧
    m.name ∈ ["GetBytes", "GetNonZeroBytes"]) ∧
  ∃ array, (i.arguments s)[0]? = some array ∧ array.id = v.id

/-- The instruction calls `Dispose()` on an object. -/
def Disposes (s : State) (v : Value) : Prop :=
  i.operation = .invocation [] true ∧
    (∃ m, semantics.method i.node = some m ∧ m.name = "Dispose") ∧ (s.peek 0).id = v.id

end Instruction

/-- Repeated disposal concerns invocations only. -/
theorem Rule.invocation_of_isInterested {i : Instruction}
    (h : Rule.repeatedDispose.isInterested i = true) :
    ∃ arguments hasReceiver, i.operation = .invocation arguments hasReceiver := by
  have hkind : ∀ k ∈ [Kinds.single 0, .single 1, .single 2, .single 3, .objectCreation,
      .arrayCreation, .memberAccess, .single 8, .single 9, .single 10, .single 11, .single 12],
      Rule.repeatedDispose.interests.intersects k = false := by decide
  unfold Check.isInterested at h
  cases hoperation : i.operation with
  | invocation arguments hasReceiver => exact ⟨arguments, hasReceiver, rfl⟩
  | _ =>
    rw [hoperation, Operation.kind, hkind _ (by simp)] at h
    cases h

/-- The check for repeated disposal looks at calls of `Dispose()` on an object. -/
theorem Site.disposes {site : Site} {object : Value} (hcalls : Rule.callsDispose site = true)
    (hobject : site.receiver s = some object)
    (hinterested : Rule.repeatedDispose.isInterested site.instruction = true) :
    site.instruction.Disposes site.semantics s object := by
  obtain ⟨arguments, hasReceiver, hoperation⟩ := Rule.invocation_of_isInterested hinterested
  unfold Rule.callsDispose at hcalls
  unfold receiver at hobject
  split at hcalls
  · next m hm =>
    obtain ⟨hname, hnone⟩ := Bool.and_eq_true_iff.1 hcalls
    have harguments : arguments = [] := by
      simpa [argumentNode, argumentNodes, hoperation] using hnone
    subst harguments
    cases hasReceiver with
    | false => simp [hoperation] at hobject
    | true =>
      simp only [hoperation, Option.some.injEq] at hobject
      exact ⟨hoperation, ⟨m, hm, by simpa using hname⟩, congrArg Value.id hobject⟩
  · cases hcalls

/-- The operands, one by one, are what lies on the stack. -/
theorem State.getElem?_operands (s : State) (n k : Nat) :
    (s.operands n)[k]? = if k < n then some (s.peek (n - 1 - k)) else none := by
  unfold operands
  split
  · next hlt =>
    rw [List.getElem?_reverse (by simpa using hlt), List.length_map, List.length_range,
      List.getElem?_map, List.getElem?_range (by omega)]
    rfl
  · next hge => simpa using hge

/-- Where a key is derived, the check for weak salts finds the arguments of the call. -/
theorem Site.argument_eq {site : Site} (htakes : Rule.takesSalt site = true) (s : State)
    (index : Nat) : site.argument s index = (site.instruction.arguments s)[index]? := by
  unfold argument Instruction.arguments argumentNodes
  unfold Rule.takesSalt at htakes
  cases hoperation : site.instruction.operation with
  | objectCreation | invocation => exact (s.getElem?_operands _ index).symm
  | _ =>
    rw [hoperation] at htakes
    split at htakes <;> simp at htakes

/-! ## What an instruction records -/

/-- No instruction records a suspicion by itself. -/
theorem Setting.MayWrite.isSuspect {x : Setting} (heffects : x.effects = .standard)
    (h : x.MayWrite v c) : c.isSuspect = false := by
  cases h with
  | created => rfl
  | effect he =>
    rw [heffects] at he
    rcases Effects.mem_standard he with rfl | rfl <;> rfl

/-- What the methods do that fill an array. -/
theorem Effects.standard_fill {m : MethodRef}
    (htype : m.containingType ∈ ["RandomNumberGenerator", "RNGCryptoServiceProvider"])
    (hname : m.name ∈ ["GetBytes", "GetNonZeroBytes"]) :
    standard.of m = [⟨.argument 0, .byteArray .modified⟩, ⟨.argument 0, .saltSize .safe⟩] := by
  obtain ⟨type, name⟩ := m
  simp only [List.mem_cons, List.not_mem_nil, or_false] at htype hname
  rcases htype with rfl | rfl <;> rcases hname with rfl | rfl <;> rfl

/-- Filling an array overwrites what it is marked with. -/
theorem Instruction.Fills.writes {x : Setting} {i : Instruction} (h : i.Fills x.semantics s v)
    (heffects : x.effects = .standard) (hc : c.isMark = true) (supply : Supply) :
    ∃ w ∈ (x.outline i supply s).writes, v.id = w.1.id ∧ w.2.domain = c.domain := by
  obtain ⟨⟨m, hmethod, htype, hname⟩, array, harray, hid⟩ := h
  have heffect : ∀ receiver result, ∃ w ∈ x.effectWrites i.node ⟨receiver, i.arguments s, result⟩,
      v.id = w.1.id ∧ w.2.domain = c.domain := by
    intro receiver result
    unfold Setting.effectWrites
    rw [hmethod, heffects]
    simp only [Effects.standard_fill htype hname, Call.participant, harray, List.filterMap_cons,
      Option.map_some, List.filterMap_nil]
    unfold Constraint.isMark at hc
    split at hc
    · exact ⟨_, List.mem_cons_self, hid.symm, rfl⟩
    · exact ⟨_, List.mem_cons_of_mem _ List.mem_cons_self, hid.symm, rfl⟩
    · cases hc
  unfold arguments at heffect harray
  unfold Setting.outline
  cases hoperation : i.operation with
  | objectCreation =>
    rw [hoperation] at heffect
    obtain ⟨w, hw, hwrites⟩ := heffect none (.fresh supply.next)
    exact ⟨w, List.mem_append_left _ hw, hwrites⟩
  | invocation =>
    rw [hoperation] at heffect
    exact heffect _ _
  | _ => simp [hoperation] at harray

/-- A suspicion after writes that are none was there before, and no write was about it. -/
theorem Outline.holds_of_writeAll (hc : c.isSuspect = true) (hknown : v.isUnknown = false)
    {writes : List (Value × Constraint)} (hwrites : ∀ w ∈ writes, w.2.isSuspect = false)
    (h : (writeAll writes s).holds v c = true) :
    s.holds v c = true ∧ ∀ w ∈ writes, v.id = w.1.id → w.2.domain ≠ c.domain := by
  induction writes generalizing s with
  | nil => exact ⟨h, fun w hw => nomatch hw⟩
  | cons w rest ih =>
    obtain ⟨hw, hrest⟩ := List.forall_mem_cons.1 hwrites
    obtain ⟨hheld, hothers⟩ := ih hrest h
    rcases State.holds_of_overwrite hc hheld with ⟨-, rfl⟩ | ⟨hheld, hdomain⟩
    · exact absurd hc (by simp [hw])
    · exact ⟨hheld, List.forall_mem_cons.2 ⟨hdomain hknown, hothers⟩⟩

/-- What is suspect after an outline that writes nothing suspect was so, and is not overwritten. -/
theorem Outline.holds_of_apply (hc : c.isSuspect = true) (hknown : v.isUnknown = false)
    {o : Outline} (hwrites : ∀ w ∈ o.writes, w.2.isSuspect = false)
    (h : (o.apply s).holds v c = true) :
    s.holds v c = true ∧ ∀ w ∈ o.writes, v.id = w.1.id → w.2.domain ≠ c.domain := by
  obtain ⟨rebinds, writes, pushed, supply⟩ := o
  -- neither binding nor pushing touches what is recorded
  have hwritten : ∀ bound : State, bound.facts = s.facts →
      (writeAll writes bound).holds v c = true →
        s.holds v c = true ∧ ∀ w ∈ writes, v.id = w.1.id → w.2.domain ≠ c.domain := by
    intro bound hfacts hheld
    refine (holds_of_writeAll hc hknown hwrites hheld).imp_left fun hbound => ?_
    unfold State.holds State.constraint State.recorded at hbound ⊢
    rwa [← hfacts]
  cases rebinds with
  | none => cases pushed <;> exact hwritten s rfl h
  | some r => cases pushed <;> exact hwritten (s.bind r.1 r.2) rfl h

/-- An instruction brings no suspicion about, and one that fills an array leaves no mark on it. -/
theorem Setting.holds_of_execute {x : Setting} {i : Instruction} {supply : Supply}
    (heffects : x.effects = .standard) (hc : c.isSuspect = true) (hknown : v.isUnknown = false)
    (h : (x.execute i supply s).1.holds v c = true) :
    s.holds v c = true ∧ (c.isMark = true → ¬i.Fills x.semantics s v) := by
  rw [execute_eq] at h
  obtain ⟨hheld, hothers⟩ := Outline.holds_of_apply hc hknown
    (fun w hw => (mayWrite_outline hw).isSuspect heffects) h
  refine ⟨hheld, fun hmark hfills => ?_⟩
  obtain ⟨w, hw, hid, hdomain⟩ := hfills.writes heffects hmark supply
  exact hothers w hw hid hdomain

/-! ## What the checks record -/

/-- A length is constant if there is one dimension, and it is an integer. -/
theorem Rule.constantLength_eq_some {semantics : Semantics} {dimensions : List NodeId}
    {length : Int64} (h : constantLength semantics dimensions = some length) :
    ∃ node, dimensions = [node] ∧ semantics.constant node = some (.integer length) := by
  unfold constantLength at h
  split at h
  · next node =>
    obtain ⟨constant, hconstant, hinteger⟩ := Option.bind_eq_some_iff.1 h
    cases constant with
    | integer =>
      obtain rfl := Option.some.inj hinteger
      exact ⟨node, rfl, hconstant⟩
    | _ => cases hinteger
  · cases h

/-- Marking an array makes it predictable, and short if its length is a small constant. -/
theorem Rule.holds_of_markArray {semantics : Semantics} {dimensions : List NodeId}
    (hc : c.isSuspect = true) (h : markArray semantics dimensions s = some s')
    (hheld : s'.holds v c = true) :
    s.holds v c = true ∨ (v.id = (s.peek 0).id ∧ (c = .byteArray .constant ∨
      (c = .saltSize .short ∧ ∃ node length, dimensions = [node] ∧
        semantics.constant node = some (.integer length) ∧ length < 32))) := by
  unfold markArray at h
  obtain ⟨t, ht, h⟩ := Option.bind_eq_some_iff.1 h
  -- from the end: the array may have been marked as short, and before that as predictable
  have hsecond : t.holds v c = true ∨ (v.id = (s.peek 0).id ∧ c = .saltSize .short ∧
      ∃ length, constantLength semantics dimensions = some length ∧ length < 32) := by
    split at h
    · next length hlength =>
      split at h
      · next hshort =>
        rcases State.holds_of_assume hc (by simp [Constraint.domain]) h hheld with
          ⟨hid, rfl⟩ | hheld
        · exact .inr ⟨hid, rfl, length, hlength, hshort⟩
        · exact .inl hheld
      · exact .inl (Option.some.inj h ▸ hheld)
    · exact .inl (Option.some.inj h ▸ hheld)
  rcases hsecond with hheld | ⟨hid, rfl, length, hlength, hshort⟩
  · rcases State.holds_of_assume hc (by simp [Constraint.domain]) ht hheld with ⟨hid, rfl⟩ | hheld
    · exact .inr ⟨hid, .inl rfl⟩
    · exact .inl hheld
  · obtain ⟨node, hnode, hconstant⟩ := constantLength_eq_some hlength
    exact .inr ⟨hid, .inr ⟨rfl, node, length, hnode, hconstant, hshort⟩⟩

namespace Check.Standard

variable {check : Check} {site : Site} {j : Journal}

/-- Before an instruction one check brings a suspicion about: that an object is disposed. -/
theorem holds_of_before (hcheck : check.Standard) (hc : c.isSuspect = true)
    (hinterested : check.isInterested site.instruction = true)
    (h : (check.hook .before site s j).1 = .goOn s') (hheld : s'.holds v c = true) :
    s.holds v c = true ∨
      (check = Rule.repeatedDispose ∧ c = .disposal .disposed ∧
        site.instruction.Disposes site.semantics s v) := by
  cases hcheck with
  | nullDereference =>
    change (Rule.beforeDereference site s j).1 = .goOn s' at h
    rcases Rule.beforeDereference_eq site s j with
      heq | ⟨object, -, ⟨-, message, heq⟩ | ⟨-, heq⟩⟩ <;> rw [heq] at h
    · exact .inl (Verdict.goOn.inj h ▸ hheld)
    · cases h
    · rcases State.holds_of_assume hc (by simp [Constraint.domain])
        (Verdict.eq_some_of_ofOption h) hheld with ⟨-, rfl⟩ | hheld
      · cases hc
      · exact .inl hheld
  | repeatedDispose =>
    change (Rule.beforeDispose site s j).1 = .goOn s' at h
    rcases Rule.beforeDispose_eq site s j with
      heq | ⟨object, hcalls, hobject, ⟨-, message, heq⟩ | heq⟩ <;> rw [heq] at h <;>
      obtain rfl := Verdict.goOn.inj h
    · exact .inl hheld
    · exact .inl hheld
    · rcases State.holds_of_overwrite hc hheld with ⟨hid, rfl⟩ | ⟨hheld, -⟩
      · obtain ⟨hoperation, hmethod, hpeek⟩ := Site.disposes hcalls hobject hinterested
        exact .inr ⟨rfl, rfl, hoperation, hmethod, hpeek.trans hid.symm⟩
      · exact .inl hheld
  | weakSalt =>
    obtain ⟨j', heq⟩ := Rule.beforeDerivation_goesOn site s j
    change (Rule.beforeDerivation site s j).1 = .goOn s' at h
    rw [heq] at h
    exact .inl (Verdict.goOn.inj h ▸ hheld)

/-- After an instruction the checks bring about what the instruction says about a new array. -/
theorem holds_of_after (hcheck : check.Standard) (hc : c.isSuspect = true)
    (h : (check.hook .after site s j).1 = .goOn s') (hheld : s'.holds v c = true) :
    s.holds v c = true ∨ site.instruction.Marks site.semantics s v c := by
  cases hcheck with
  | nullDereference | repeatedDispose => exact .inl (Verdict.goOn.inj h ▸ hheld)
  | weakSalt =>
    change (Rule.afterCreation site s j).1 = .goOn s' at h
    rcases Rule.afterCreation_eq site s j with
      heq | ⟨dimensions, hcreation, hbytes, heq⟩ <;> rw [heq] at h
    · exact .inl (Verdict.goOn.inj h ▸ hheld)
    · have htype : site.semantics.typeOf site.instruction.node = none ∨
          site.semantics.typeOf site.instruction.node = some "byte[]" := by
        unfold Rule.createsBytes Site.node at hbytes
        split at hbytes
        · next htype => exact .inr (htype.trans (congrArg some (by simpa using hbytes)))
        · next htype => exact .inl htype
      rcases Rule.holds_of_markArray hc (Verdict.eq_some_of_ofOption h) hheld with
        hheld | ⟨hid, rfl | ⟨rfl, node, length, rfl, hconstant, hshort⟩⟩
      · exact .inl hheld
      · exact .inr ⟨dimensions, hcreation, htype, hid.symm⟩
      · exact .inr ⟨node, length, ⟨hcreation, htype, hid.symm⟩, hconstant, hshort⟩

end Check.Standard

/-! ## What a step records -/

/-- States with the same stack have the same values on it. -/
theorem State.peek_congr {t : State} (hstack : t.stack = s.stack) : t.peek = s.peek := by
  funext n
  rw [peek, hstack, peek]

namespace Instruction

variable {t : State} (hstack : t.stack = s.stack) (semantics : Semantics) (i : Instruction)
include hstack

/-- They give an instruction the same arguments. -/
theorem arguments_congr : i.arguments t = i.arguments s := by
  unfold arguments State.operands
  rw [State.peek_congr hstack]

/-- An instruction marks the same values in them. -/
theorem marks_congr : i.Marks semantics t v c ↔ i.Marks semantics s v c := by
  unfold Marks MakesBytes
  rw [State.peek_congr hstack]

/-- It fills the same values. -/
theorem fills_congr : i.Fills semantics t v ↔ i.Fills semantics s v := by
  unfold Fills
  rw [arguments_congr hstack]

/-- It disposes of the same values. -/
theorem disposes_congr : i.Disposes semantics t v ↔ i.Disposes semantics s v := by
  unfold Disposes
  rw [State.peek_congr hstack]

end Instruction

/-- An instruction that was executed, and the states before and after it. -/
structure Deed where
  /-- The instruction. -/
  instruction : Instruction
  /-- The state before it and its checks. -/
  before : State
  /-- The state after it and its checks. -/
  after : State

namespace Deed

variable (semantics : Semantics) (d : Deed)

/-- The deed makes a value suspect: it makes the array, or it disposes of the object. -/
def Brings (v : Value) (c : Constraint) : Prop :=
  d.instruction.Marks semantics d.after v c ∨
    (c = .disposal .disposed ∧ d.instruction.Disposes semantics d.before v)

/-- The deed clears a value of a suspicion: it fills the array. -/
def Clears (v : Value) (c : Constraint) : Prop :=
  c.isMark = true ∧ d.instruction.Fills semantics d.before v

end Deed

namespace Run

variable {plan : Plan} {run run' : Run} {point : Point} {i : Instruction}

/-- Before an instruction objects become suspect that it disposes of. -/
theorem callChecks_holds_of_before {slots : List Slot} {j : Journal}
    (hslots : ∀ slot ∈ slots, slot.check.Standard) (hc : c.isSuspect = true)
    (h : (callChecks plan .before point i slots j s).2.2 = some s') (hheld : s'.holds v c = true) :
    s.holds v c = true ∨
      (c = .disposal .disposed ∧ i.Disposes plan.setting.semantics s v) := by
  refine (callChecks_induction plan .before point i (P := fun t => t.stack = s.stack ∧
    (t.holds v c = true → s.holds v c = true ∨
      (c = .disposal .disposed ∧ i.Disposes plan.setting.semantics s v)))
    ?_ j ⟨rfl, .inl⟩ h).2 hheld
  rintro slot hslot hinterested t j t' ⟨hstack, ht⟩ hhook
  have hadjusts : t.AdjustsTo t' := (hslots slot hslot).adjusts (Prod.ext hhook rfl)
  refine ⟨hadjusts.stack.trans hstack, fun hheld => ?_⟩
  rcases (hslots slot hslot).holds_of_before hc hinterested hhook hheld with
    hheld | ⟨-, hdisposed, hdisposes⟩
  · exact ht hheld
  · exact .inr ⟨hdisposed, (Instruction.disposes_congr hstack _ i).1 hdisposes⟩

/-- After an instruction the array becomes suspect that it has made. -/
theorem callChecks_holds_of_after {slots : List Slot} {j : Journal}
    (hslots : ∀ slot ∈ slots, slot.check.Standard) (hc : c.isSuspect = true)
    (h : (callChecks plan .after point i slots j s).2.2 = some s') (hheld : s'.holds v c = true) :
    s.holds v c = true ∨ i.Marks plan.setting.semantics s' v c := by
  have hboth := callChecks_induction plan .after point i (P := fun t => t.stack = s.stack ∧
    (t.holds v c = true → s.holds v c = true ∨ i.Marks plan.setting.semantics s v c))
    ?_ j ⟨rfl, .inl⟩ h
  · exact (hboth.2 hheld).imp_right (Instruction.marks_congr hboth.1 _ i).2
  · rintro slot hslot - t j t' ⟨hstack, ht⟩ hhook
    have hadjusts : t.AdjustsTo t' := (hslots slot hslot).adjusts (Prod.ext hhook rfl)
    refine ⟨hadjusts.stack.trans hstack, fun hheld => ?_⟩
    rcases (hslots slot hslot).holds_of_after hc hhook hheld with hheld | hmarks
    · exact ht hheld
    · exact .inr ((Instruction.marks_congr hstack _ i).1 hmarks)

/-- After a step a value is suspect because the step made it so, or it was before and the step did
not clear it. -/
theorem step_brings (heffects : plan.setting.effects = .standard) (hrun : run.Standard)
    (hc : c.isSuspect = true) (hknown : v.isUnknown = false)
    (h : run.step plan point i s = (some s', run')) (hheld : s'.holds v c = true) :
    Deed.Brings plan.setting.semantics ⟨i, s, s'⟩ v c ∨
      (s.holds v c = true ∧ ¬Deed.Clears plan.setting.semantics ⟨i, s, s'⟩ v c) := by
  -- the suspicion is traced back through the checks after the instruction, the instruction, and the
  -- checks before it
  obtain ⟨j, s₁, hbefore, hadjusts, hafter⟩ := step_eq_some plan point i hrun h
  rcases callChecks_holds_of_after hrun hc hafter hheld with hheld | hmarks
  · obtain ⟨hheld, hfills⟩ := Setting.holds_of_execute heffects hc hknown hheld
    rcases callChecks_holds_of_before hrun hc (congrArg (·.2.2) hbefore) hheld with
      hheld | hdisposes
    · refine .inr ⟨hheld, fun hclears => hfills hclears.1 ?_⟩
      exact (Instruction.fills_congr hadjusts.stack _ i).2 hclears.2
    · exact .inl (.inr hdisposes)
  · exact .inl (.inl hmarks)

end Run

end Pathwise
