import Pathwise.Explore.Execute
import Pathwise.Proofs.Live

/-!
# The outline of an instruction

Every instruction takes its operands, may bind one variable, overwrites facts about values at hand,
and pushes at most one value, for which it may need a new identity. The outline of an instruction
says which. It is read off the bindings and the stack alone: no instruction looks at facts.
-/

namespace Pathwise

/-- What an instruction does to a state once its operands have been taken. -/
structure Outline where
  /-- The variable that is bound, and its new value. -/
  rebinds : Option (Symbol × Value)
  /-- The facts that are overwritten, in order. -/
  writes : List (Value × Constraint)
  /-- The value that is pushed. -/
  pushed : Option Value
  /-- The supply afterwards. -/
  supply : Supply

namespace Outline

/-- Overwrites facts one after the other. -/
def writeAll (writes : List (Value × Constraint)) (s : State) : State :=
  writes.foldl (fun s w => s.overwrite w.1 w.2) s

/-- Does to a state what the outline says. -/
def apply (o : Outline) (s : State) : State :=
  let bound := match o.rebinds with
    | some (x, v) => s.bind x v
    | none => s
  let written := writeAll o.writes bound
  match o.pushed with
  | some v => written.push v
  | none => written

/-- The values that an outline mentions. -/
def Mentions (o : Outline) (v : Value) : Prop :=
  (∃ x, o.rebinds = some (x, v)) ∨ (∃ c, (v, c) ∈ o.writes) ∨ o.pushed = some v

/-- Pushes a value that is at hand. -/
def pushing (v : Value) (supply : Supply) : Outline := ⟨none, [], some v, supply⟩

/-- Pushes a value of its own after some facts have been overwritten. -/
def pushingFresh (writes : List (Value × Constraint)) (supply : Supply) : Outline :=
  ⟨none, writes, some (.fresh supply.next), supply.fresh.2⟩

/-- What is kept by overwriting each of some facts is kept by overwriting them one after the
other. -/
theorem writeAll_induction {P : State → Prop} {writes : List (Value × Constraint)} {s : State}
    (hwrite : ∀ w ∈ writes, ∀ t, P t → P (t.overwrite w.1 w.2)) (hs : P s) :
    P (writeAll writes s) :=
  List.foldlRecOn writes _ hs fun t ht w hw => hwrite w hw t ht

/-- What is kept by binding, overwriting and pushing what an outline says is kept by the outline. -/
theorem apply_induction {P : State → Prop} {o : Outline} {s : State}
    (hbind : ∀ x v, o.rebinds = some (x, v) → P (s.bind x v))
    (hwrite : ∀ w ∈ o.writes, ∀ t, P t → P (t.overwrite w.1 w.2))
    (hpush : ∀ v, o.pushed = some v → ∀ t, P t → P (t.push v)) (hs : P s) : P (o.apply s) := by
  obtain ⟨rebinds, writes, pushed, supply⟩ := o
  have hpushed : ∀ t, P t → P (Outline.apply ⟨none, writes, pushed, supply⟩ t) := by
    intro t ht
    have hwritten := writeAll_induction hwrite ht
    cases pushed with
    | none => exact hwritten
    | some v => exact hpush v rfl _ hwritten
  cases rebinds with
  | none => exact hpushed s hs
  | some r => exact hpushed _ (hbind r.1 r.2 rfl)

@[simp]
theorem bindings_writeAll (writes : List (Value × Constraint)) (s : State) :
    (writeAll writes s).bindings = s.bindings :=
  writeAll_induction (P := fun t => t.bindings = s.bindings)
    (fun w _ t ht => (State.bindings_overwrite t w.1 w.2).trans ht) rfl

@[simp]
theorem stack_writeAll (writes : List (Value × Constraint)) (s : State) :
    (writeAll writes s).stack = s.stack :=
  writeAll_induction (P := fun t => t.stack = s.stack)
    (fun w _ t ht => (State.stack_overwrite t w.1 w.2).trans ht) rfl

/-- Writes are made one after the other. -/
theorem writeAll_append (first second : List (Value × Constraint)) (s : State) :
    writeAll (first ++ second) s = writeAll second (writeAll first s) :=
  List.foldl_append

theorem stack_apply (o : Outline) (s : State) : (o.apply s).stack = o.pushed.toList ++ s.stack := by
  unfold apply
  cases o.pushed <;> cases o.rebinds <;> simp

/-- A variable has the value that the outline gives it, or else the one it had. -/
theorem lookup_apply (o : Outline) (s : State) (y : Symbol) :
    (o.apply s).lookup y =
      match o.rebinds with
      | some (x, v) => if y = x then some v else s.lookup y
      | none => s.lookup y := by
  have hwritten : ∀ t : State, (writeAll o.writes t).lookup y = t.lookup y := by
    intro t
    rw [State.lookup, bindings_writeAll]
    rfl
  unfold apply
  cases o.pushed <;> cases o.rebinds <;> simp [hwritten, State.lookup_bind]

/-- The roots afterwards are those from before, the value that was bound, and the one pushed. -/
theorem root_apply {o : Outline} {s : State} {r : Value} (h : r ∈ (o.apply s).roots) :
    (∃ x, o.rebinds = some (x, r)) ∨ o.pushed = some r ∨ r ∈ s.roots := by
  rcases State.mem_roots.1 h with ⟨y, hy⟩ | hr
  · rw [lookup_apply] at hy
    split at hy
    · next x w hrebinds =>
      split at hy
      · exact .inl ⟨x, hrebinds.trans (congrArg _ (congrArg _ (Option.some.inj hy)))⟩
      · exact .inr (.inr (State.mem_roots.2 (.inl ⟨y, hy⟩)))
    · exact .inr (.inr (State.mem_roots.2 (.inl ⟨y, hy⟩)))
  · rw [stack_apply] at hr
    rcases List.mem_append.1 hr with hr | hr
    · exact .inr (.inl (Option.mem_toList.1 hr))
    · exact .inr (.inr (State.mem_roots.2 (.inr hr)))

end Outline

namespace State

/-- The values that an instruction can get hold of in a state: the shared values, what the stack
yields, and the values of variables. -/
def Offers (s : State) (v : Value) : Prop :=
  v ∈ Value.sharedValues ∨ (∃ n, s.peek n = v) ∨ ∃ x, s.lookup x = some v

/-- A state offers the shared values. -/
theorem offers_shared {s : State} {v : Value} (h : v ∈ Value.sharedValues) : s.Offers v := .inl h

/-- It offers what is on the stack. -/
theorem offers_peek (s : State) (n : Nat) : s.Offers (s.peek n) := .inr (.inl ⟨n, rfl⟩)

/-- It offers the values of variables. -/
theorem offers_lookup {s : State} {x : Symbol} {v : Value} (h : s.lookup x = some v) : s.Offers v :=
  .inr (.inr ⟨x, h⟩)

/-- What a state offers comes from its ledger. -/
theorem Offers.mem {s : State} {v : Value} {l : List Value} (h : s.Offers v) (hl : Ledger l)
    (hs : s.DrawnFrom l) : v ∈ l := by
  rcases h with h | ⟨n, rfl⟩ | ⟨x, hx⟩
  · exact hl.mem_of_shared h
  · exact hs.peek_mem hl n
  · exact hs.lookup_mem hx

/-- What a state offers is shared or live. -/
theorem Offers.shared_or_live {s : State} {v : Value} (h : s.Offers v) :
    v ∈ Value.sharedValues ∨ s.Live v := by
  rcases h with h | ⟨n, rfl⟩ | ⟨x, hx⟩
  · exact .inl h
  · rw [peek, List.getD_eq_getElem?_getD]
    cases hn : s.stack[n]? with
    | none => exact .inl (by simp [Value.sharedValues])
    | some v => exact .inr (live_of_stack (List.mem_of_getElem? hn))
  · exact .inr (live_of_lookup hx)

/-- The values that a continuation of the path can get hold of, or a part of them. -/
def InSight (s : State) (v : Value) : Prop := v ∈ Value.sharedValues ∨ s.Live v

/-- What a state offers is in sight. -/
theorem Offers.inSight {s : State} {v : Value} (h : s.Offers v) : s.InSight v := h.shared_or_live

/-- What is in sight comes from the ledger. -/
theorem InSight.mem {s : State} {v : Value} {l : List Value} (h : s.InSight v) (hl : Ledger l)
    (hs : s.DrawnFrom l) : v ∈ l := by
  rcases h with h | h
  · exact hl.mem_of_shared h
  · exact h.mem hl hs

/-- With a value its parts are in sight. -/
theorem InSight.part {s : State} {u v : Value} (h : s.InSight v) (hu : u.Part v) : s.InSight u := by
  rcases h with h | ⟨r, hr, hv⟩
  · exact .inl (hu.eq_of_operands_nil (Value.operands_of_shared h) ▸ h)
  · exact .inr ⟨r, hr, hu.trans hv⟩

/-- The top values of the stack, the deepest first. -/
def operands (s : State) (n : Nat) : List Value := ((List.range n).map s.peek).reverse

/-- A state offers the operands of an instruction. -/
theorem offers_operands {s : State} {n : Nat} {v : Value} (h : v ∈ s.operands n) : s.Offers v := by
  obtain ⟨k, _, rfl⟩ : ∃ k, k < n ∧ s.peek k = v := by simpa [operands] using h
  exact s.offers_peek k

end State

/-- The standard effects fill the first argument with random bytes: it becomes unpredictable and
long enough. -/
theorem Effects.mem_standard {m : MethodRef} {e : Effect} (h : e ∈ standard.of m) :
    e = ⟨.argument 0, .byteArray .modified⟩ ∨ e = ⟨.argument 0, .saltSize .safe⟩ := by
  have hregister : ∀ (es : Effects) (n : MethodRef) (e' : Effect) {k : MethodRef} {e : Effect},
      e ∈ (es.register n e').of k → e = e' ∨ ∃ k, e ∈ es.of k := by
    intro es n e' k e he
    simp only [of, register, SortedMap.get?_insert_eq] at he
    split at he
    · rcases List.mem_append.1 he with he | he
      · exact .inr ⟨n, he⟩
      · exact .inl (List.mem_singleton.1 he)
    · exact .inr ⟨k, he⟩
  have hfold : ∀ (methods : List MethodRef) (es : Effects) {k : MethodRef} {e : Effect},
      e ∈ (methods.foldl (fun es n =>
        (es.register n ⟨.argument 0, .byteArray .modified⟩).register n
          ⟨.argument 0, .saltSize .safe⟩) es).of k →
      (e = ⟨.argument 0, .byteArray .modified⟩ ∨ e = ⟨.argument 0, .saltSize .safe⟩) ∨
        ∃ k, e ∈ es.of k := by
    intro methods
    induction methods with
    | nil => exact fun es k e he => .inr ⟨k, he⟩
    | cons n rest ih =>
      intro es k e he
      rcases ih _ he with he | ⟨k, he⟩
      · exact .inl he
      · rcases hregister _ _ _ he with rfl | ⟨k, he⟩
        · exact .inl (.inr rfl)
        · rcases hregister _ _ _ he with rfl | hes
          · exact .inl (.inl rfl)
          · exact .inr hes
  rcases hfold _ .none h with he | ⟨k, he⟩
  · exact he
  · simp [of, Effects.none] at he

namespace Setting

/-- The facts that calling the method of a node overwrites. -/
def effectWrites (x : Setting) (node : NodeId) (c : Call) : List (Value × Constraint) :=
  match x.semantics.method node with
  | some m => (x.effects.of m).filterMap fun e => (c.participant e.target).map (·, e.constraint)
  | none => []

/-- The outline of reading the variable that a node names. -/
def readOutline (x : Setting) (node : NodeId) (supply : Supply) (s : State) : Outline :=
  match x.semantics.symbol node with
  | none => .pushingFresh [] supply
  | some symbol =>
    match s.lookup symbol with
    | some v => .pushing v supply
    | none => { Outline.pushingFresh [] supply with rebinds := some (symbol, .fresh supply.next) }

/-- The outline of an instruction. -/
def outline (x : Setting) (i : Instruction) (supply : Supply) (s : State) : Outline :=
  match i.operation with
  | .identifier => x.readOutline i.node supply s
  | .assign => ⟨(x.semantics.symbol i.node).map (·, s.peek 0), [], none, supply⟩
  | .literal .null => .pushing .null supply
  | .literal (.bool b) => .pushing (.bool b) supply
  | .literal (.integer _) => .pushingFresh [] supply
  | .literal (.string _) => .pushingFresh [(.fresh supply.next, .nullability .notNull)] supply
  | .self => .pushing .self supply
  | .objectCreation arguments =>
    let result := .fresh supply.next
    let effects := x.effectWrites i.node ⟨none, s.operands arguments.length, result⟩
    .pushingFresh (effects ++ [(result, .nullability .notNull)]) supply
  | .arrayCreation _ => .pushingFresh [(.fresh supply.next, .nullability .notNull)] supply
  | .invocation arguments hasReceiver =>
    let receiver := if hasReceiver then some (s.peek arguments.length) else none
    .pushingFresh
      (x.effectWrites i.node ⟨receiver, s.operands arguments.length, .fresh supply.next⟩) supply
  | .memberAccess =>
    if (s.peek 0).isSelf && x.namesField i.node then x.readOutline i.node supply s
    else .pushingFresh [] supply
  | .binary .equals =>
    .pushing (supply.equal (s.peek 1) (s.peek 0)).1 (supply.equal (s.peek 1) (s.peek 0)).2
  | .binary .notEquals =>
    .pushing (supply.notEqual (s.peek 1) (s.peek 0)).1 (supply.notEqual (s.peek 1) (s.peek 0)).2
  | .binary .relational => .pushingFresh [] supply
  | .binary .arithmetic => .pushingFresh [] supply
  | .logicalNot => .pushing (supply.not (s.peek 0)).1 (supply.not (s.peek 0)).2
  | .pop => ⟨none, [], none, supply⟩
  | .raise => ⟨none, [], none, supply⟩
  | .ret _ => ⟨none, [], none, supply⟩

/-- The effects of a call are writes. -/
theorem call_eq_writeAll (x : Setting) (node : NodeId) (c : Call) (s : State) :
    x.call node c s = Outline.writeAll (x.effectWrites node c) s := by
  unfold call effectWrites
  cases x.semantics.method node with
  | none => rfl
  | some m =>
    simp only [Effects.apply]
    generalize x.effects.of m = es
    induction es generalizing s with
    | nil => rfl
    | cons e rest ih =>
      rw [List.foldl_cons, ih, List.filterMap_cons, Effect.apply]
      cases c.participant e.target <;> rfl

/-- To read a name is to apply its outline. -/
theorem read_eq (x : Setting) (node : NodeId) (supply : Supply) (s : State) :
    x.read node supply s =
      ((x.readOutline node supply s).apply s, (x.readOutline node supply s).supply) := by
  unfold read readOutline
  cases x.semantics.symbol node with
  | none => rfl
  | some symbol =>
    dsimp only
    cases s.lookup symbol <;> rfl

/-- Executing an instruction takes its operands and then does what its outline says. -/
theorem execute_eq (x : Setting) (i : Instruction) (supply : Supply) (s : State) :
    x.execute i supply s =
      ((x.outline i supply s).apply { s with stack := s.stack.drop i.operation.operandCount },
        (x.outline i supply s).supply) := by
  obtain ⟨node, operation, span⟩ := i
  cases operation with
  | identifier => exact x.read_eq node supply s
  | assign =>
    simp only [execute, outline, State.pop_eq, Operation.operandCount]
    cases x.semantics.symbol node <;> rfl
  | literal c => cases c <;> rfl
  | self => rfl
  | objectCreation arguments =>
    simp only [execute, outline, State.popMany_eq, Operation.operandCount, call_eq_writeAll,
      Outline.pushingFresh, Outline.apply, Outline.writeAll_append]
    rfl
  | arrayCreation dimensions =>
    simp only [execute, outline, State.popMany_eq, Operation.operandCount]
    rfl
  | invocation arguments hasReceiver =>
    cases hasReceiver with
    | false =>
      simp only [execute, outline, State.popMany_eq, Operation.operandCount, call_eq_writeAll]
      rfl
    | true =>
      have hpeek : State.peek { s with stack := s.stack.drop arguments.length } 0 =
          s.peek arguments.length := by
        simp [State.peek, List.getD_eq_getElem?_getD]
      simp only [execute, outline, State.popMany_eq, State.pop_eq, Operation.operandCount,
        call_eq_writeAll, if_true, Prod.map, hpeek, List.drop_drop]
      rfl
  | memberAccess =>
    simp only [execute, outline, State.pop_eq, Operation.operandCount]
    split
    · exact x.read_eq node supply _
    · rfl
  | binary op =>
    have hpeek : State.peek { s with stack := s.stack.drop 1 } 0 = s.peek 1 := by
      simp [State.peek, List.getD_eq_getElem?_getD]
    cases op <;>
      simp only [execute, outline, State.pop_eq, Operation.operandCount, hpeek, List.drop_drop] <;>
      rfl
  | logicalNot =>
    simp only [execute, outline, State.pop_eq, Operation.operandCount]
    rfl
  | pop =>
    simp only [execute, outline, State.pop_eq, Operation.operandCount]
    rfl
  | raise =>
    simp only [execute, outline, State.pop_eq, Operation.operandCount]
    rfl
  | ret hasValue =>
    cases hasValue with
    | false => rfl
    | true =>
      simp only [execute, outline, State.pop_eq, Operation.operandCount]
      rfl

end Setting

/-- The outline of an instruction depends on the bindings and the stack only. -/
theorem Setting.outline_congr (x : Setting) (i : Instruction) (supply : Supply) {s t : State}
    (hb : t.bindings = s.bindings) (hk : t.stack = s.stack) :
    x.outline i supply t = x.outline i supply s := by
  cases s
  cases t
  cases hb
  cases hk
  rfl

/-! ## The values that an instruction makes -/

/-- What a supply issues for an instruction in a state: nothing, or one value with the next identity
that is made from what the state offers. -/
inductive Issues (s : State) (supply : Supply) : List Value → Supply → Prop where
  /-- Nothing is issued. -/
  | nothing : Issues s supply [] supply
  /-- One value is issued. -/
  | one {v : Value} (hid : v.id = supply.next) (hoperands : ∀ o ∈ v.operands, s.Offers o)
    (hwidened : ∀ id h x, v ≠ .widened id h x) :
    Issues s supply [v] { supply with next := supply.next + 1 }

/-- Values that are issued belong to the ledger from then on. -/
theorem Issues.ledger {s : State} {σ σ' : Supply} {new l : List Value} (h : Issues s σ new σ')
    (hl : Ledger l) (ht : σ.Tracks l) (hs : s.DrawnFrom l) :
    Ledger (l ++ new) ∧ σ'.Tracks (l ++ new) := by
  cases h with
  | nothing => simpa using ⟨hl, ht⟩
  | @one v hid hoperands hwidened =>
    have htracks : (σ.issue fun _ => v).2.Tracks (l ++ [v]) := ht.issue hwidened
    exact ⟨hl.snoc (hid.trans ht.next_eq) fun o ho => (hoperands o ho).mem hl hs, htracks⟩

/-- A part of a value that is issued is the value itself or was in sight before. -/
theorem Issues.inSight_part {s : State} {σ σ' : Supply} {new : List Value} {u v : Value}
    (h : Issues s σ new σ') (hv : v ∈ new) (hu : u.Part v) : s.InSight u ∨ u ∈ new := by
  cases h with
  | nothing => cases hv
  | one _ hoperands _ =>
    obtain rfl := List.mem_singleton.1 hv
    cases hu with
    | refl => exact .inr hv
    | operand ho hu => exact .inl ((hoperands _ ho).inSight.part hu)

namespace Outline

/-- An outline draws on a state if it mentions only what the state offers and what is issued. -/
def DrawsOn (o : Outline) (s : State) (supply : Supply) : Prop :=
  ∃ new, Issues s supply new o.supply ∧ ∀ v, o.Mentions v → s.Offers v ∨ v ∈ new

variable {s : State} {supply : Supply}

/-- An instruction brings nothing in sight but what it makes. -/
theorem inSight_apply {t : State} {o : Outline} {σ' : Supply} {new : List Value} {v : Value}
    (hnew : Issues s supply new σ') (ho : ∀ v, o.Mentions v → s.Offers v ∨ v ∈ new)
    (hb : t.bindings = s.bindings) (hk : ∀ v ∈ t.stack, v ∈ s.stack) (hv : (o.apply t).InSight v) :
    s.InSight v ∨ v ∈ new := by
  have hmentions : ∀ r, o.Mentions r → v.Part r → s.InSight v ∨ v ∈ new := by
    intro r hr hpart
    rcases ho r hr with hr | hr
    · exact .inl (hr.inSight.part hpart)
    · exact hnew.inSight_part hr hpart
  rcases hv with hv | ⟨r, hr, hpart⟩
  · exact .inl (.inl hv)
  · rcases root_apply hr with ⟨x, hx⟩ | hpushed | hr
    · exact hmentions r (.inl ⟨x, hx⟩) hpart
    · exact hmentions r (.inr (.inr hpushed)) hpart
    · refine .inl (.inr ⟨r, ?_, hpart⟩)
      rcases State.mem_roots.1 hr with ⟨x, hx⟩ | hr
      · exact State.mem_roots.2 (.inl ⟨x, by rwa [State.lookup, ← hb]⟩)
      · exact State.mem_roots.2 (.inr (hk r hr))

/-- An outline that pushes a value draws on what is offered or new. -/
theorem pushing_drawsOn {v : Value} {supply' : Supply} {new : List Value}
    (hnew : Issues s supply new supply') (hv : s.Offers v ∨ v ∈ new) :
    (pushing v supply').DrawsOn s supply := by
  refine ⟨new, hnew, fun w hw => ?_⟩
  obtain rfl : v = w := by simpa [Mentions, pushing] using hw
  exact hv

/-- A fresh value is issued. -/
theorem issues_fresh (s : State) (supply : Supply) :
    Issues s supply [.fresh supply.next] supply.fresh.2 :=
  .one rfl (by simp [Value.operands]) (by simp)

/-- An outline that pushes a fresh value draws on what is offered besides. -/
theorem pushingFresh_drawsOn {writes : List (Value × Constraint)}
    (hw : ∀ v c, (v, c) ∈ writes → s.Offers v ∨ v = .fresh supply.next) :
    (pushingFresh writes supply).DrawsOn s supply := by
  refine ⟨_, issues_fresh s supply, fun v hv => ?_⟩
  rcases hv with ⟨x, hx⟩ | ⟨c, hc⟩ | hp
  · cases hx
  · exact (hw v c hc).imp_right List.mem_singleton.2
  · exact .inr (List.mem_singleton.2 (Option.some.inj hp).symm)

/-- An outline that neither binds, writes nor pushes anything draws on every state. -/
theorem quiet_drawsOn {rebinds : Option (Symbol × Value)}
    (h : ∀ x v, rebinds = some (x, v) → s.Offers v) :
    (⟨rebinds, [], none, supply⟩ : Outline).DrawsOn s supply := by
  refine ⟨[], .nothing, fun v hv => .inl ?_⟩
  rcases hv with ⟨x, hx⟩ | ⟨c, hc⟩ | hp
  · exact h x v hx
  · cases hc
  · cases hp

end Outline

namespace Setting

variable (x : Setting) (supply : Supply) (s : State)

/-- To read a name draws on what is offered or new. -/
theorem readOutline_drawsOn (node : NodeId) : (x.readOutline node supply s).DrawsOn s supply := by
  unfold readOutline
  cases x.semantics.symbol node with
  | none => exact Outline.pushingFresh_drawsOn (by simp)
  | some symbol =>
    dsimp only
    cases hlookup : s.lookup symbol with
    | some v => exact Outline.pushing_drawsOn .nothing (.inl (State.offers_lookup hlookup))
    | none =>
      refine ⟨_, Outline.issues_fresh s supply, fun v hv => .inr ?_⟩
      simp only [Outline.Mentions, Outline.pushingFresh] at hv
      rcases hv with ⟨y, hy⟩ | ⟨c, hc⟩ | hp
      · simp_all
      · cases hc
      · simp_all

/-- The effects of a call concern its receiver, its operands and its result. -/
theorem effectWrites_offers {node : NodeId} {receiver : Option Value} {n : Nat} {result : Value}
    (hr : ∀ v, receiver = some v → s.Offers v) {v : Value} {c : Constraint}
    (h : (v, c) ∈ x.effectWrites node ⟨receiver, s.operands n, result⟩) :
    s.Offers v ∨ v = result := by
  unfold effectWrites at h
  cases hm : x.semantics.method node with
  | none => simp [hm] at h
  | some m =>
    simp only [hm, List.mem_filterMap, Option.map_eq_some_iff, Prod.mk.injEq] at h
    obtain ⟨e, _, w, hw, rfl, _⟩ := h
    cases htarget : e.target with
    | argument index =>
      rw [htarget] at hw
      exact .inl (State.offers_operands (List.mem_of_getElem? hw))
    | receiver =>
      rw [htarget] at hw
      exact .inl (hr w hw)
    | result =>
      rw [htarget] at hw
      exact .inr (Option.some.inj hw).symm

/-- Every instruction draws on what is offered or new. -/
theorem outline_drawsOn (i : Instruction) : (x.outline i supply s).DrawsOn s supply := by
  obtain ⟨node, operation, span⟩ := i
  have hshared : ∀ {v : Value}, v ∈ Value.sharedValues →
      (Outline.pushing v supply).DrawsOn s supply :=
    fun hv => Outline.pushing_drawsOn .nothing (.inl (State.offers_shared hv))
  have hnotNull : (Outline.pushingFresh [(.fresh supply.next, .nullability .notNull)]
      supply).DrawsOn s supply :=
    Outline.pushingFresh_drawsOn (by simp)
  have hfresh : (Outline.pushingFresh [] supply).DrawsOn s supply :=
    Outline.pushingFresh_drawsOn (by simp)
  have hquiet : (⟨none, [], none, supply⟩ : Outline).DrawsOn s supply :=
    Outline.quiet_drawsOn (by simp)
  cases operation with
  | identifier => exact x.readOutline_drawsOn supply s node
  | assign =>
    refine Outline.quiet_drawsOn fun y v hv => ?_
    obtain ⟨_, _, _, rfl⟩ : ∃ z, x.semantics.symbol node = some z ∧ z = y ∧ s.peek 0 = v := by
      simpa using hv
    exact s.offers_peek 0
  | literal c =>
    cases c with
    | null => exact hshared (by simp [Value.sharedValues])
    | bool b => exact hshared (by cases b <;> simp [Value.sharedValues])
    | integer _ => exact hfresh
    | string _ => exact hnotNull
  | self => exact hshared (by simp [Value.sharedValues])
  | objectCreation arguments =>
    refine Outline.pushingFresh_drawsOn fun v c hv => ?_
    rcases List.mem_append.1 hv with hv | hv
    · exact x.effectWrites_offers s (by simp) hv
    · exact .inr (Prod.mk.inj (List.mem_singleton.1 hv)).1
  | arrayCreation dimensions => exact hnotNull
  | invocation arguments hasReceiver =>
    refine Outline.pushingFresh_drawsOn fun v c hv => x.effectWrites_offers s (fun w hw => ?_) hv
    cases hasReceiver with
    | false => cases hw
    | true =>
      obtain rfl := Option.some.inj hw
      exact s.offers_peek _
  | memberAccess =>
    simp only [outline]
    split
    · exact x.readOutline_drawsOn supply s node
    · exact hfresh
  | binary op =>
    have hoperands : ∀ o ∈ [s.peek 1, s.peek 0], s.Offers o := by
      simp [State.offers_peek]
    cases op with
    | equals =>
      simp only [outline, Supply.equal]
      split
      · exact hshared (by simp [Value.sharedValues])
      · exact Outline.pushing_drawsOn
          (.one (v := .equal supply.next (s.peek 1) (s.peek 0)) rfl hoperands (by simp))
          (.inr List.mem_cons_self)
    | notEquals =>
      simp only [outline, Supply.notEqual]
      split
      · exact hshared (by simp [Value.sharedValues])
      · exact Outline.pushing_drawsOn
          (.one (v := .notEqual supply.next (s.peek 1) (s.peek 0)) rfl hoperands (by simp))
          (.inr List.mem_cons_self)
    | relational => exact hfresh
    | arithmetic => exact hfresh
  | logicalNot =>
    simp only [outline]
    unfold Supply.not
    split
    · next b _ => exact hshared (by cases b <;> simp [Value.sharedValues])
    · refine Outline.pushing_drawsOn (.one rfl ?_ (by simp [Supply.issue]))
        (.inr List.mem_cons_self)
      simp [Supply.issue, Value.operands, State.offers_peek]
  | pop => exact hquiet
  | raise => exact hquiet
  | ret hasValue => exact hquiet

/-- An instruction binds a variable that its node names, and only to assign it or because it is read
before it has a value. -/
theorem outline_rebinds {i : Instruction} {y : Symbol} {v : Value}
    (h : (x.outline i supply s).rebinds = some (y, v)) :
    x.semantics.symbol i.node = some y ∧ (i.operation = .assign ∨ s.lookup y = none) := by
  have hread : (x.readOutline i.node supply s).rebinds = some (y, v) →
      x.semantics.symbol i.node = some y ∧ s.lookup y = none := by
    intro h
    unfold readOutline at h
    cases hsymbol : x.semantics.symbol i.node with
    | none => simp [hsymbol, Outline.pushingFresh] at h
    | some symbol =>
      simp only [hsymbol] at h
      cases hlookup : s.lookup symbol with
      | some w => simp [hlookup, Outline.pushing] at h
      | none =>
        simp only [hlookup, Option.some.injEq, Prod.mk.injEq] at h
        obtain ⟨rfl, _⟩ := h
        exact ⟨rfl, hlookup⟩
  obtain ⟨node, operation, span⟩ := i
  cases operation with
  | identifier => exact (hread h).imp_right .inr
  | assign =>
    obtain ⟨z, hz, rfl, _⟩ : ∃ z, x.semantics.symbol node = some z ∧ z = y ∧ s.peek 0 = v := by
      simpa [outline] using h
    exact ⟨hz, .inl rfl⟩
  | memberAccess =>
    simp only [outline] at h
    split at h
    · exact (hread h).imp_right .inr
    · cases h
  | literal c => cases c <;> cases h
  | binary op => cases op <;> cases h
  | self | objectCreation | arrayCreation | invocation | logicalNot | pop | raise | ret => cases h

/-- An instruction pushes a value exactly if its operation says so. -/
theorem outline_pushed (i : Instruction) :
    (x.outline i supply s).pushed.isSome = i.operation.pushesValue := by
  have hread : (x.readOutline i.node supply s).pushed.isSome = true := by
    unfold readOutline
    cases x.semantics.symbol i.node with
    | none => rfl
    | some symbol =>
      dsimp only
      cases s.lookup symbol <;> rfl
  obtain ⟨node, operation, span⟩ := i
  cases operation with
  | identifier => exact hread
  | memberAccess =>
    simp only [outline]
    split
    · exact hread
    · rfl
  | literal c => cases c <;> rfl
  | binary op => cases op <;> rfl
  | assign | self | objectCreation | arrayCreation | invocation => rfl
  | logicalNot | pop | raise | ret => rfl

end Setting

/-! ## New arrays -/

/-- The value on top has just been made. -/
structure State.NewOnTop (s : State) (id : Nat) (held : ConstraintSet) : Prop where
  /-- It is on top. -/
  top : s.peek 0 = .fresh id
  /-- It is not the unknown value. -/
  known : (Value.fresh id).isUnknown = false
  /-- What is recorded about it. -/
  fact : s.facts.get? id = some ⟨.fresh id, held⟩

namespace State.NewOnTop

variable {s : State} {id : Nat} {held : ConstraintSet}

/-- What is recorded about the new value is what it was made with. -/
theorem recorded_eq (h : s.NewOnTop id held) : s.recorded (.fresh id) = held := by
  rw [recorded]
  simp only [Value.id, h.fact]

/-- These are the constraints on it. -/
theorem constraint_eq (h : s.NewOnTop id held) (d : Domain) :
    s.constraint (.fresh id) d = held.get? d := by
  have hintrinsic : (Value.fresh id).intrinsic.get? d = none := ConstraintSet.get?_empty d
  rw [constraint, h.recorded_eq, hintrinsic, Option.none_or]

end State.NewOnTop

namespace Setting

variable {x : Setting} {i : Instruction} {dimensions : List NodeId}

/-- A new array is on top of the stack. -/
theorem peek_arrayCreation (h : i.operation = .arrayCreation dimensions) (σ : Supply)
    (s t : State) : ((x.outline i σ s).apply t).peek 0 = .fresh σ.next := by
  rw [State.peek, Outline.stack_apply, outline, h]
  rfl

/-- A new array is known not to be null, and nothing else is recorded about it. -/
theorem newOnTop (h : i.operation = .arrayCreation dimensions) {σ : Supply} {s : State}
    {l : List Value} (hl : Ledger l) (ht : σ.Tracks l) (hs : s.DrawnFrom l) (n : Nat) :
    ((x.outline i σ s).apply { s with stack := s.stack.drop n }).NewOnTop σ.next
      (ConstraintSet.empty.insert (.nullability .notNull)) := by
  have hknown := ht.fresh_isUnknown hl
  have hnone : s.facts.get? σ.next = none := hs.facts_eq_none hl (Nat.le_of_eq ht.next_eq.symm)
  refine ⟨peek_arrayCreation h σ s _, hknown, ?_⟩
  simp [outline, h, Outline.pushingFresh, Outline.apply, Outline.writeAll, State.push, Value.id,
    State.overwrite_of_known hknown, State.facts_record, State.recorded, hnone]

end Setting

end Pathwise
