import Pathwise.Proofs.Coherence
import Pathwise.Proofs.Lasting
import Pathwise.Proofs.Sample

/-!
# States of nodes are canonical

Two states that say the same should be equal, or the same node is explored again and again. What a
state records could get in the way in four ways: about a value that is out of use, as an entry
without a constraint, about the unknown value, or in a domain that is settled by what the value is.
No state with which control arrives at a block has such entries. So the states of two nodes are the
same exactly if they bind the same values, have the same stack, and answer every question about a
value in the same way.
-/

namespace Pathwise

namespace ConstraintSet

/-- Two sets with the same members are equal. -/
theorem ext_get? {a b : ConstraintSet} (h : ∀ d, a.get? d = b.get? d) : a = b := by
  obtain ⟨a₁, a₂, a₃, a₄, a₅⟩ := a
  obtain ⟨b₁, b₂, b₃, b₄, b₅⟩ := b
  have h₁ : a₁ = b₁ := Option.map_injective (fun _ _ => Constraint.nullability.inj) (h .nullability)
  have h₂ : a₂ = b₂ := Option.map_injective (fun _ _ => Constraint.truth.inj) (h .truth)
  have h₃ : a₃ = b₃ := Option.map_injective (fun _ _ => Constraint.disposal.inj) (h .disposal)
  have h₄ : a₄ = b₄ := Option.map_injective (fun _ _ => Constraint.byteArray.inj) (h .byteArray)
  have h₅ : a₅ = b₅ := Option.map_injective (fun _ _ => Constraint.saltSize.inj) (h .saltSize)
  rw [h₁, h₂, h₃, h₄, h₅]

theorem isEmpty_iff {set : ConstraintSet} : set.isEmpty = true ↔ ∀ d, set.get? d = none := by
  unfold isEmpty toList
  rw [List.isEmpty_iff, List.filterMap_eq_nil_iff]
  refine ⟨fun h d => h d ?_, fun h d _ => h d⟩
  cases d <;> simp [Domain.all]

/-- A set to which a constraint was added is not empty. -/
theorem isEmpty_insert (set : ConstraintSet) (c : Constraint) : (set.insert c).isEmpty = false := by
  rw [Bool.eq_false_iff]
  intro hempty
  have hnone := isEmpty_iff.1 hempty c.domain
  simp [get?_insert] at hnone

end ConstraintSet

/-- What a value is says nothing beyond nullability and truth. -/
theorem Value.intrinsic_get?_of_abstract {d : Domain} (hn : d ≠ .nullability) (ht : d ≠ .truth)
    (v : Value) : v.intrinsic.get? d = none := by
  cases d with
  | nullability => exact absurd rfl hn
  | truth => exact absurd rfl ht
  | disposal | byteArray | saltSize => cases v <;> rfl

/-! ## What states record -/

/-- Every entry of a state records something, and nothing that is settled by what the value is. -/
structure State.Proper (l : List Value) (s : State) : Prop where
  /-- The state is drawn from the ledger. -/
  drawn : s.DrawnFrom l
  /-- An entry has a constraint. -/
  nonempty : ∀ {i : Nat} {f : Fact}, s.facts.get? i = some f → f.held.isEmpty = false
  /-- Nothing is recorded in a domain that is settled by what the value is. -/
  unshadowed : ∀ {i : Nat} {f : Fact}, s.facts.get? i = some f →
    ∀ d, f.value.intrinsic.get? d ≠ none → f.held.get? d = none

namespace State.Proper

variable {l l' : List Value} {s s' : State} {v : Value} {c : Constraint}

/-- What keeps the entries of a state, or drops some of them, keeps them proper. -/
theorem of_facts (h : s.Proper l) (hdrawn : s'.DrawnFrom l')
    (hfacts : ∀ {i f}, s'.facts.get? i = some f → s.facts.get? i = some f) : s'.Proper l' where
  drawn := hdrawn
  nonempty := fun hf => h.nonempty (hfacts hf)
  unshadowed := fun hf => h.unshadowed (hfacts hf)

theorem recorded_of_settled (h : s.Proper l) (hl : Ledger l) (hv : v ∈ l) {d : Domain}
    (hd : v.intrinsic.get? d ≠ none) : (s.recorded v).get? d = none := by
  unfold recorded
  split
  · next f hf =>
    exact h.unshadowed hf d (h.drawn.value_eq hl hv hf ▸ hd)
  · exact ConstraintSet.get?_empty d

/-- A constraint may be recorded in a domain that is not settled by what the value is. -/
theorem record (h : s.Proper l) (hl : Ledger l) (hv : v ∈ l) (hk : v.isUnknown = false)
    (hc : v.intrinsic.get? c.domain = none) : (s.record v c).Proper l where
  drawn := h.drawn.record hv hk
  nonempty := by
    intro i f hf
    rw [facts_record] at hf
    split at hf
    · obtain rfl := Option.some.inj hf
      exact ConstraintSet.isEmpty_insert _ c
    · exact h.nonempty hf
  unshadowed := by
    intro i f hf d hd
    rw [facts_record] at hf
    split at hf
    · obtain rfl := Option.some.inj hf
      have hne : d ≠ c.domain := by
        rintro rfl
        exact hd hc
      rw [ConstraintSet.get?_insert, if_neg hne]
      exact h.recorded_of_settled hl hv hd
    · exact h.unshadowed hf d hd

theorem overwrite (h : s.Proper l) (hl : Ledger l) (hv : v ∈ l)
    (hc : v.intrinsic.get? c.domain = none) : (s.overwrite v c).Proper l := by
  unfold State.overwrite
  split
  · exact h
  · next hk => exact h.record hl hv (by simpa using hk) hc

/-- An assumption records only where nothing holds yet. -/
theorem assume (h : s.Proper l) (hl : Ledger l) (hv : v ∈ l)
    (hassume : State.assume v c s = some s') : s'.Proper l := by
  refine assume_induction (P := fun t => t.Proper l) (fun u c t hu hk hnone _ ht => ?_) hassume h
  refine ht.record hl (hl.part hu hv).1 hk ?_
  unfold State.constraint at hnone
  exact (Option.or_eq_none_iff.1 hnone).1

/-- With the standard effects it is a lasting property. -/
theorem lasting {x : Setting} (heffects : x.effects = .standard) : Lasting x Proper where
  drawn := drawn
  grow hl h := h.of_facts (h.drawn.mono hl) id
  empty l := ⟨empty_drawnFrom, by simp [State.empty], by simp [State.empty]⟩
  bind y hv h := h.of_facts (h.drawn.bind y hv) id
  push hv h := h.of_facts (h.drawn.push hv) id
  drop n h := h.of_facts (h.drawn.drop n) id
  clean h := by
    refine h.of_facts h.drawn.clean fun {i f} hf => ?_
    rw [facts_clean] at hf
    split at hf
    · exact hf
    · cases hf
  forget v h := by
    refine h.of_facts h.drawn.forget fun {i f} hf => ?_
    rw [facts_forget] at hf
    split at hf
    · cases hf
    · exact hf
  write := by
    intro l s v c hl hv hmay h
    refine h.overwrite hl hv ?_
    cases hmay with
    | created id => rfl
    | effect he v =>
      rw [heffects] at he
      rcases Effects.mem_standard he with rfl | rfl
      · exact Value.intrinsic_get?_of_abstract (by simp [Constraint.domain])
          (by simp [Constraint.domain]) v
      · exact Value.intrinsic_get?_of_abstract (by simp [Constraint.domain])
          (by simp [Constraint.domain]) v
  assume hl hv hassume h := h.assume hl hv hassume

theorem standard_keeps {c : Check} (hc : c.Standard) : c.Keeps Proper :=
  hc.keeps drawn (fun hl hv hassume h => h.assume hl hv hassume) fun hl hv h =>
    h.overwrite hl hv (Value.intrinsic_get?_of_abstract (by simp [Constraint.domain])
      (by simp [Constraint.domain]) _)

/-- Proper states that answer every question about a value in the same way record the same about
it. -/
theorem recorded_eq (hl : Ledger l) (hs : s.Proper l) (hs' : s'.Proper l) (hv : v ∈ l)
    (h : ∀ d, s.constraint v d = s'.constraint v d) : s.recorded v = s'.recorded v := by
  refine ConstraintSet.ext_get? fun d => ?_
  cases hd : v.intrinsic.get? d with
  | some c =>
    have hsettled : v.intrinsic.get? d ≠ none := by simp [hd]
    rw [hs.recorded_of_settled hl hv hsettled, hs'.recorded_of_settled hl hv hsettled]
  | none =>
    have hanswer := h d
    unfold State.constraint at hanswer
    simpa [hd] using hanswer

/-- Proper states that answer every question about a value in the same way have the same entries. -/
theorem facts_eq (hl : Ledger l) (hs : s.Proper l) (hs' : s'.Proper l)
    (h : ∀ v d, s.constraint v d = s'.constraint v d) (i : Nat) :
    s.facts.get? i = s'.facts.get? i := by
  have hfound : ∀ {s s' : State}, s.Proper l → s'.Proper l →
      (∀ v d, s.constraint v d = s'.constraint v d) → ∀ f, s.facts.get? i = some f →
      s'.facts.get? i = some f := by
    intro s s' hs hs' h f hf
    obtain ⟨hmem, rfl, -⟩ := hs.drawn.fact_mem hf
    have hheld : f.held = s'.recorded f.value := by
      rw [← recorded_eq hl hs hs' hmem (h f.value), recorded, hf]
    cases hg : s'.facts.get? f.value.id with
    | none =>
      have hempty : f.held = .empty := by rw [hheld, recorded, hg]
      have hnonempty := hs.nonempty hf
      rw [hempty] at hnonempty
      cases hnonempty
    | some g =>
      obtain ⟨hmem', hid, -⟩ := hs'.drawn.fact_mem hg
      have hvalue : g.value = f.value := hl.eq_of_id hmem' hmem hid
      have hheld' : g.held = f.held := by rw [hheld, recorded, hg]
      obtain ⟨value, held⟩ := g
      obtain rfl : value = f.value := hvalue
      obtain rfl : held = f.held := hheld'
      rfl
  exact Option.ext fun f => ⟨hfound hs hs' h f, hfound hs' hs (fun v d => (h v d).symm) f⟩

end State.Proper

/-- A state without entries that could tell it from a state that says the same. -/
structure State.Canonical (s : State) : Prop where
  /-- An entry is about a value that a variable or the stack holds, or that such a value was made
  from; it stands under the identity of the value. -/
  live : ∀ {i : Nat} {f : Fact}, s.facts.get? i = some f → s.Live f.value ∧ f.value.id = i
  /-- An entry has a constraint. -/
  nonempty : ∀ {i : Nat} {f : Fact}, s.facts.get? i = some f → f.held.isEmpty = false
  /-- What stands in the place of a domain is a member of it. -/
  domain : ∀ {i : Nat} {f : Fact}, s.facts.get? i = some f → ∀ {d : Domain} {c : Constraint},
    f.held.get? d = some c → c.domain = d
  /-- There is no entry about the unknown value. -/
  unknown : s.facts.get? Value.unknown.id = none
  /-- Nothing is recorded in a domain that is settled by what the value is. -/
  unshadowed : ∀ {i : Nat} {f : Fact}, s.facts.get? i = some f → ∀ d : Domain,
    f.value.intrinsic.get? d ≠ none → f.held.get? d = none

/-- A proper state is canonical once it has been cleaned. -/
theorem State.Proper.canonical {l : List Value} {s : State} (hl : Ledger l)
    (h : s.clean.Proper l) : s.clean.Canonical where
  live hf := ⟨live_of_clean hl h.drawn hf, (h.drawn.fact_mem hf).2.1⟩
  nonempty := h.nonempty
  domain _ := ConstraintSet.domain_of_get?
  unknown := by
    rw [Option.eq_none_iff_forall_ne_some]
    intro f hf
    exact (h.drawn.fact_mem hf).2.2 rfl
  unshadowed := h.unshadowed

/-- The states of all nodes are canonical, and the states of two nodes are taken to be the same
exactly if they bind the same values, have the same stack, and answer every question about a value
in the same way. -/
theorem nodes_canonical {plan : Plan} {checks : List Check}
    (heffects : plan.setting.effects = .standard) (hchecks : ∀ c ∈ checks, c.Standard) :
    (∀ node, Met plan checks node → node.state.Canonical) ∧
      ∀ node node', Met plan checks node → Met plan checks node' →
        (node.state.same node'.state = true ↔
          node.state.bindings = node'.state.bindings ∧ node.state.stack = node'.state.stack ∧
            ∀ v d, node.state.constraint v d = node'.state.constraint v d) := by
  have hlasting : Lasting plan.setting State.Proper := State.Proper.lasting heffects
  have hkeeps : ∀ c ∈ checks, hlasting.invariant.Admits c :=
    fun c hc => State.Proper.standard_keeps (hchecks c hc)
  refine ⟨fun node hnode => ?_, fun node node' hnode hnode' => ⟨fun hsame => ?_, ?_⟩⟩
  · obtain ⟨l, σ, ⟨hl, -⟩, hproper, -⟩ := hlasting.invariant.met_pair hkeeps hnode hnode
    obtain ⟨s, hs⟩ := hnode.exists_clean
    rw [hs] at hproper ⊢
    exact State.Proper.canonical hl hproper
  · obtain ⟨l, σ, ⟨hl, -⟩, hs, hs'⟩ := hlasting.invariant.met_pair hkeeps hnode hnode'
    have heq : node.state = node'.state :=
      State.eq_of_fingerprint hl (hlasting.drawn hs) (hlasting.drawn hs') (of_decide_eq_true hsame)
    rw [heq]
    exact ⟨rfl, rfl, fun _ _ => rfl⟩
  · rintro ⟨hbindings, hstack, hanswers⟩
    obtain ⟨l, σ, ⟨hl, -⟩, hs, hs'⟩ := hlasting.invariant.met_pair hkeeps hnode hnode'
    have heq : node.state = node'.state :=
      State.ext_get? hbindings hstack (State.Proper.facts_eq hl hs hs' hanswers)
    unfold State.same
    rw [heq]
    exact decide_eq_true rfl

namespace KeptCondition

/-- The parameter. -/
def x : Symbol := ⟨"x", .parameter⟩

/-- The variable. -/
def b : Symbol := ⟨"b", .localVariable⟩

/-- What the nodes mean. -/
def semantics : Semantics where
  symbol n := if n.val = 1 then some x else if n.val ∈ [4, 5] then some b else none
  typeOf _ := none
  method _ := none
  constant _ := none

/-- Whether `x` is null is kept in `b` and then asked for. -/
def blocks : List Block := [
  ⟨0, [⟨⟨1⟩, .identifier, none⟩, ⟨⟨2⟩, .literal .null, none⟩, ⟨⟨3⟩, .binary .equals, none⟩,
    ⟨⟨4⟩, .assign, none⟩, ⟨⟨5⟩, .identifier, none⟩]⟩,
  ⟨1, []⟩, ⟨2, []⟩, ⟨3, []⟩]

/-- Both sides of the branch come together again. -/
def edges : List FlowEdge :=
  [⟨0, 1, .whenTrue⟩, ⟨0, 2, .whenFalse⟩, ⟨1, 3, .jump⟩, ⟨2, 3, .jump⟩]

/-- No loops are entered. -/
def sample : Sample := ⟨[x], semantics, blocks, edges, 1⟩

/-- Whether two nodes wait that bind the same values and record something about two values each, but
are not the same. -/
def waiting (s : Situation) : Bool :=
  match s.run.worklist.toList with
  | [n, m] => n.state.facts.size == 2 && m.state.facts.size == 2 && !n.state.same m.state
  | _ => false

theorem waiting_after :
    ((Situation.entering sample.plan (.start sample.checks)).after sample.plan 19).any waiting =
      true := by
  decide +kernel

end KeptCondition

/-- Behind the branch two nodes are met that differ in what is recorded about the condition and
about the parameter. -/
theorem nodes_canonical_keptCondition :
    KeptCondition.sample.plan.setting.effects = .standard ∧
      (∀ c ∈ KeptCondition.sample.checks, c.Standard) ∧
      ∃ node node', Met KeptCondition.sample.plan KeptCondition.sample.checks node ∧
        Met KeptCondition.sample.plan KeptCondition.sample.checks node' ∧
        node.state.facts.size = 2 ∧ node.state.Canonical ∧ node'.state.Canonical ∧
        ¬(node.state.bindings = node'.state.bindings ∧ node.state.stack = node'.state.stack ∧
          ∀ v d, node.state.constraint v d = node'.state.constraint v d) := by
  have heffects : KeptCondition.sample.plan.setting.effects = .standard := by
    rw [Sample.setting_plan]
    rfl
  have hchecks : ∀ c ∈ KeptCondition.sample.checks, c.Standard :=
    fun c hc => Registry.standard_enabled hc
  obtain ⟨hcanonical, hsame⟩ := nodes_canonical heffects hchecks
  obtain ⟨x, hx, hwaiting⟩ := (Option.any_eq_true _ _).1 KeptCondition.waiting_after
  unfold KeptCondition.waiting at hwaiting
  split at hwaiting
  · next n m hlist =>
    have hn : Met KeptCondition.sample.plan KeptCondition.sample.checks n :=
      ⟨x, Reached.of_after hx, hlist ▸ List.mem_cons_self⟩
    have hm : Met KeptCondition.sample.plan KeptCondition.sample.checks m :=
      ⟨x, Reached.of_after hx, hlist ▸ List.mem_cons_of_mem _ List.mem_cons_self⟩
    simp only [Bool.and_eq_true, beq_iff_eq, Bool.not_eq_true'] at hwaiting
    obtain ⟨⟨hsize, -⟩, hdiffer⟩ := hwaiting
    refine ⟨heffects, hchecks, n, m, hn, hm, hsize, hcanonical n hn, hcanonical m hm, fun h => ?_⟩
    have htaken := (hsame n m hn hm).2 h
    rw [hdiffer] at htaken
    cases htaken
  · cases hwaiting

end Pathwise
