import Pathwise.Proofs.Checks
import Pathwise.Proofs.Invariant

/-!
# Properties kept by every operation on states

A property of states drawn from a ledger is lasting if the operations of which steps, departures and
arrivals consist keep it: binding, pushing and taking values of the ledger, recording what an
instruction may record, assuming the truth of a condition, forgetting and cleaning. A lasting
property is an invariant of every exploration whose checks keep it.
-/

namespace Pathwise

/-- What an instruction may record. -/
inductive Setting.MayWrite (x : Setting) : Value → Constraint → Prop where
  /-- A new object is not null. -/
  | created (id : Nat) : MayWrite x (.fresh id) (.nullability .notNull)
  /-- What a known method does to a value that takes part in the call. -/
  | effect {m : MethodRef} {e : Effect} (he : e ∈ x.effects.of m) (v : Value) :
    MayWrite x v e.constraint

namespace Setting

variable {x : Setting} {w : Value × Constraint}

theorem mayWrite_effectWrites {node : NodeId} {c : Call} (h : w ∈ x.effectWrites node c) :
    x.MayWrite w.1 w.2 := by
  unfold effectWrites at h
  split at h
  · obtain ⟨e, he, hw⟩ := List.mem_filterMap.1 h
    obtain ⟨v, -, rfl⟩ := Option.map_eq_some_iff.1 hw
    exact .effect he v
  · cases h

/-- An instruction records nothing else. -/
theorem mayWrite_outline {i : Instruction} {supply : Supply} {s : State}
    (h : w ∈ (x.outline i supply s).writes) : x.MayWrite w.1 w.2 := by
  obtain ⟨node, operation, span⟩ := i
  have hread : w ∉ (x.readOutline node supply s).writes := by
    unfold readOutline
    cases x.semantics.symbol node with
    | none => exact List.not_mem_nil
    | some symbol =>
      dsimp only
      cases s.lookup symbol <;> exact List.not_mem_nil
  have hcreated : w ∈ [(Value.fresh supply.next, Constraint.nullability .notNull)] →
      x.MayWrite w.1 w.2 := by
    intro hw
    obtain rfl := List.mem_singleton.1 hw
    exact .created supply.next
  cases operation with
  | identifier => exact absurd h hread
  | assign | self | logicalNot | pop | raise | ret => cases h
  | literal c =>
    cases c with
    | null | bool | integer => cases h
    | string => exact hcreated h
  | objectCreation arguments =>
    rcases List.mem_append.1 h with h | h
    · exact mayWrite_effectWrites h
    · exact hcreated h
  | arrayCreation => exact hcreated h
  | invocation => exact mayWrite_effectWrites h
  | memberAccess =>
    simp only [outline] at h
    split at h
    · exact absurd h hread
    · cases h
  | binary op => cases op <;> cases h

end Setting

/-- A property that the operations on states keep. -/
structure Lasting (x : Setting) (P : List Value → State → Prop) : Prop where
  /-- The states are drawn from the ledger. -/
  drawn : ∀ {l : List Value} {s : State}, P l s → s.DrawnFrom l
  /-- The property stays when the ledger grows. -/
  grow : ∀ {l l' : List Value} {s : State}, l <+: l' → P l s → P l' s
  /-- The empty state has it. -/
  empty : ∀ l : List Value, P l .empty
  /-- Binding a variable keeps it. -/
  bind : ∀ {l : List Value} {s : State} {v : Value} (y : Symbol), v ∈ l → P l s → P l (s.bind y v)
  /-- Pushing a value keeps it. -/
  push : ∀ {l : List Value} {s : State} {v : Value}, v ∈ l → P l s → P l (s.push v)
  /-- Taking values from the stack keeps it. -/
  drop : ∀ {l : List Value} {s : State} (n : Nat), P l s → P l { s with stack := s.stack.drop n }
  /-- Cleaning keeps it. -/
  clean : ∀ {l : List Value} {s : State}, P l s → P l s.clean
  /-- Forgetting what is recorded about a value keeps it. -/
  forget : ∀ {l : List Value} {s : State} (v : Value), P l s → P l (s.forget v)
  /-- Recording what an instruction may record keeps it. -/
  write : ∀ {l : List Value} {s : State} {v : Value} {c : Constraint}, Ledger l → v ∈ l →
    x.MayWrite v c → P l s → P l (s.overwrite v c)
  /-- Assuming that a condition holds or fails keeps it. -/
  assume : ∀ {l : List Value} {s s' : State} {v : Value} {t : Truth}, Ledger l → v ∈ l →
    State.assume v (.truth t) s = some s' → P l s → P l s'

/-- That all values come from the ledger lasts. -/
theorem State.DrawnFrom.lasting (x : Setting) : Lasting x fun l s => s.DrawnFrom l where
  drawn := id
  grow hl h := h.mono hl
  empty _ := empty_drawnFrom
  bind y hv h := h.bind y hv
  push hv h := h.push hv
  drop n h := h.drop n
  clean h := h.clean
  forget _ h := h.forget
  write _ hv _ h := h.overwrite hv
  assume hl hv hassume h := h.assume hl hv hassume

/-- What a check goes on with has the property, if it was given a state that has it. -/
def Check.Keeps (P : List Value → State → Prop) (c : Check) : Prop :=
  ∀ {l : List Value} {moment : Moment} {site : Site} {s s' : State} {j : Journal}, Ledger l →
    P l s → (c.hook moment site s j).1 = .goOn s' → P l s'

/-- What is kept by assumptions and by the record of a disposal is kept by the checks of this
library. -/
theorem Check.Standard.keeps {P : List Value → State → Prop}
    (hdrawn : ∀ {l s}, P l s → s.DrawnFrom l)
    (hassume : ∀ {l : List Value} {s s' : State} {v : Value} {c : Constraint}, Ledger l → v ∈ l →
      State.assume v c s = some s' → P l s → P l s')
    (hdispose : ∀ {l : List Value} {s : State} {v : Value}, Ledger l → v ∈ l → P l s →
      P l (s.overwrite v (.disposal .disposed)))
    {c : Check} (hc : c.Standard) : c.Keeps P := by
  intro l moment site s s' j hl hs h
  have hsame : Verdict.goOn s = .goOn s' → P l s' := fun heq => Verdict.goOn.inj heq ▸ hs
  have hreceiver : ∀ {v : Value}, site.receiver s = some v → v ∈ l :=
    fun hv => (Site.receiver_offers hv).mem hl (hdrawn hs)
  have hanswer := hc.answer moment site s j
  generalize c.hook moment site s j = answer at h hanswer
  cases hanswer with
  | pass | report => exact hsame h
  | refuse => cases h
  | assume _ hobject => exact hassume hl (hreceiver hobject) (Verdict.eq_some_of_ofOption h) hs
  | dispose _ hobject => exact Verdict.goOn.inj h ▸ hdispose hl (hreceiver hobject) hs
  | mark =>
    have htop : s.peek 0 ∈ l := (hdrawn hs).peek_mem hl 0
    exact Rule.markArray_induction (fun c t t' _ ht hPt => hassume hl htop ht hPt)
      (Verdict.eq_some_of_ofOption h) hs

namespace Run

variable {P : List Value → State → Prop} {l : List Value} {slots : List Slot} {s : State}

/-- Checks that keep a property are called with states that have it, and so is the state that they
leave. -/
theorem callChecks_keeps (plan : Plan) (moment : Moment) (point : Point) (i : Instruction)
    (hslots : ∀ slot ∈ slots, slot.check.Keeps P) (hl : Ledger l) (j : Journal) (hs : P l s) :
    (∀ c ∈ callsOf plan moment point i slots j s, ∀ t ∈ c.states, P l t) ∧
      ∀ s', (callChecks plan moment point i slots j s).2.2 = some s' → P l s' := by
  induction slots generalizing j s with
  | nil =>
    refine ⟨fun c hc => (nomatch hc), fun s' hs' => ?_⟩
    exact Option.some.inj hs' ▸ hs
  | cons slot rest ih =>
    have hrest : ∀ other ∈ rest, other.check.Keeps P :=
      fun other hother => hslots other (List.mem_cons_of_mem _ hother)
    rw [callsOf, callChecks]
    split
    · have hkeeps := @hslots slot List.mem_cons_self l moment
        ⟨slot.check.rule, point, i, plan.setting.semantics⟩ s
      dsimp only [HookCall.answer, HookCall.states]
      cases hhook : slot.check.hook moment
          ⟨slot.check.rule, point, i, plan.setting.semantics⟩ s j with
      | mk verdict j' =>
        cases verdict with
        | goOn t =>
          have ht : P l t := hkeeps hl hs (congrArg Prod.fst hhook)
          obtain ⟨hcalls, hresult⟩ := ih hrest j' ht
          refine ⟨List.forall_mem_cons.2 ⟨?_, hcalls⟩, hresult⟩
          simp [hhook, hs, ht]
        | stop =>
          refine ⟨List.forall_mem_singleton.2 ?_, by simp⟩
          simp [hhook, hs]
        | failed message =>
          obtain ⟨hcalls, hresult⟩ := ih hrest j' hs
          refine ⟨List.forall_mem_cons.2 ⟨?_, hcalls⟩, hresult⟩
          simp [hhook, hs]
    · exact ih hrest j hs

end Run

namespace Lasting

variable {P : List Value → State → Prop} {plan : Plan} {l : List Value} {s : State}

theorem clearStack {x : Setting} (h : Lasting x P) (hs : P l s) : P l s.clearStack := by
  have hdrop := h.drop s.stack.length hs
  rwa [List.drop_length] at hdrop

theorem apply {x : Setting} (h : Lasting x P) (hl : Ledger l) {o : Outline}
    (hmentions : ∀ v, o.Mentions v → v ∈ l) (hwrites : ∀ w ∈ o.writes, x.MayWrite w.1 w.2)
    (hs : P l s) : P l (o.apply s) := by
  refine Outline.apply_induction (P := P l) (fun y v hv => ?_) (fun w hw t ht => ?_)
    (fun v hv t ht => ?_) hs
  · exact h.bind y (hmentions v (.inl ⟨y, hv⟩)) hs
  · exact h.write hl (hmentions w.1 (.inr (.inl ⟨w.2, hw⟩))) (hwrites w hw) ht
  · exact h.push (hmentions v (.inr (.inr hv))) ht

/-- Executing an instruction extends the ledger at most by one value. -/
theorem execute {x : Setting} (h : Lasting x P) {σ : Supply} (hl : Ledger l) (ht : σ.Tracks l)
    (hs : P l s) (i : Instruction) :
    ∃ ext, Ledger (l ++ ext) ∧ (x.execute i σ s).2.Tracks (l ++ ext) ∧
      P (l ++ ext) (x.execute i σ s).1 := by
  obtain ⟨new, hissues, hmentions⟩ := x.outline_drawsOn σ s i
  obtain ⟨hl', ht'⟩ := hissues.ledger hl ht (h.drawn hs)
  rw [x.execute_eq]
  refine ⟨new, hl', ht', h.apply hl' (fun v hv => ?_) (fun w => Setting.mayWrite_outline) ?_⟩
  · rcases hmentions v hv with hv | hv
    · exact List.mem_append_left _ (hv.mem hl (h.drawn hs))
    · exact List.mem_append_right _ hv
  · exact h.drop _ (h.grow (List.prefix_append _ _) hs)

/-- A step extends the ledger at most by one value, and the checks see states that have the
property. -/
theorem step (h : Lasting plan.setting P) {run : Run}
    (hslots : ∀ slot ∈ run.slots, slot.check.Keeps P) (hl : Ledger l) (ht : run.supply.Tracks l)
    (hs : P l s) (point : Point) (i : Instruction) :
    ∃ ext, Ledger (l ++ ext) ∧ (run.step plan point i s).2.supply.Tracks (l ++ ext) ∧
      (∀ s', (run.step plan point i s).1 = some s' → P (l ++ ext) s') ∧
      ∀ c ∈ run.stepCalls plan point i s, ∀ t ∈ c.states, P (l ++ ext) t := by
  obtain ⟨hcalls, hresult⟩ := Run.callChecks_keeps plan .before point i hslots hl run.journal hs
  have hslots' := Run.forall_check_of_eq (C := Check.Keeps P)
    (Run.callChecks_checks plan .before point i run.slots run.journal s) hslots
  unfold Run.step Run.stepCalls Run.checked
  dsimp only
  generalize Run.callChecks plan .before point i run.slots run.journal s = r at hresult hslots'
  obtain ⟨slots, j, result⟩ := r
  cases result with
  | none => exact ⟨[], by simpa using hl, by simpa using ht, by simp, by simpa using hcalls⟩
  | some t =>
    obtain ⟨ext, hl', ht', hexecuted⟩ := h.execute hl ht (hresult t rfl) i
    obtain ⟨hcalls', hresult'⟩ :=
      Run.callChecks_keeps plan .after point i hslots' hl' j hexecuted
    refine ⟨ext, hl', ht', hresult', fun c hc u hu => ?_⟩
    rcases List.mem_append.1 hc with hc | hc
    · exact h.grow (List.prefix_append _ _) (hcalls c hc u hu)
    · exact hcalls' c hc u hu

/-- Control departs with states that have the property. -/
theorem departing (h : Lasting plan.setting P) (hl : Ledger l) (hs : P l s) (index : Nat) :
    ∀ t ∈ (Stage.leaving (plan.departures index s)).states, P l t :=
  Plan.departures_induction (fun n => h.drop n hs) fun _ _ hassume =>
    h.assume hl ((h.drawn hs).peek_mem hl 0) hassume (h.drop 1 hs)

theorem raising (h : Lasting plan.setting P) (hs : P l s) (index : Nat) :
    ∀ t ∈ (Stage.leaving (plan.handlers index s)).states, P l t :=
  Plan.handlers_induction (h.clearStack hs)

/-- Widening keeps the property. -/
theorem widenVariables {x : Setting} (h : Lasting x P) (header : Nat) {σ : Supply} (hl : Ledger l)
    (ht : σ.Tracks l) (hs : P l s) (symbols : List Symbol) :
    ∃ ext, Ledger (l ++ ext) ∧
      (symbols.foldl (Run.widenVariable header) (s, σ)).2.Tracks (l ++ ext) ∧
      P (l ++ ext) (symbols.foldl (Run.widenVariable header) (s, σ)).1 := by
  induction symbols generalizing s σ l with
  | nil => exact ⟨[], by simpa using hl, by simpa using ht, by simpa using hs⟩
  | cons y rest ih =>
    obtain ⟨id, ext, hl₁, ht₁, -, hmem, heq⟩ := Run.widenVariable_spec header hl ht (h.drawn hs) y
    have hs₁ : P (l ++ ext) (Run.widenVariable header (s, σ) y).1 := by
      rw [heq]
      exact h.forget _ (h.bind y hmem (h.grow (List.prefix_append _ _) hs))
    obtain ⟨ext', hl', ht', hs'⟩ := ih hl₁ ht₁ hs₁
    rw [List.append_assoc] at hl' ht' hs'
    exact ⟨ext ++ ext', hl', ht', hs'⟩

/-- Control arrives with a state that has the property. -/
theorem arriving (h : Lasting plan.setting P) {run : Run} (hl : Ledger l)
    (ht : run.supply.Tracks l) (hs : P l s) (block : Nat) :
    ∃ ext, Ledger (l ++ ext) ∧ (run.counting plan block s).supply.Tracks (l ++ ext) ∧
      P (l ++ ext) (run.arriving plan block s).state := by
  simp only [Run.counting, Run.arriving]
  split
  · obtain ⟨ext, hl', ht', hs'⟩ :=
      h.widenVariables block hl ht (h.clean hs) (plan.assignedAt block)
    exact ⟨ext, hl', ht', h.clean hs'⟩
  · exact ⟨[], by simpa using hl, by simpa using ht, by simpa using h.clean hs⟩

theorem entering {x : Setting} (h : Lasting x P) (parameters : List Symbol) :
    ∃ l, Ledger l ∧ (Run.bindParameters parameters .start).2.Tracks l ∧
      P l (Run.bindParameters parameters .start).1 := by
  refine Run.bindParameters_induction (P := fun s σ => ∃ l, Ledger l ∧ σ.Tracks l ∧ P l s)
    ⟨_, .start, Supply.start_tracks, h.empty _⟩ ?_ parameters
  rintro s σ y ⟨l, hl, ht, hs⟩
  obtain ⟨hl', ht'⟩ := (Outline.issues_fresh s σ).ledger hl ht (h.drawn hs)
  have hmem : Value.fresh σ.next ∈ l ++ [Value.fresh σ.next] :=
    List.mem_append_right _ List.mem_cons_self
  exact ⟨_, hl', ht', h.bind y hmem (h.grow (List.prefix_append _ _) hs)⟩

/-- A lasting property is an invariant; its book is the ledger. -/
def invariant (h : Lasting plan.setting P) : Invariant plan (List Value) where
  Continued := (· <+: ·)
  Tracks l σ := Ledger l ∧ σ.Tracks l
  Holds := P
  Seen := P
  Admits := Check.Keeps P
  refl := List.prefix_refl
  trans := List.IsPrefix.trans
  grow := h.grow
  entering := by
    obtain ⟨l, hl, ht, hs⟩ := h.entering plan.procedure.parameters
    exact ⟨l, ⟨hl, ht⟩, hs⟩
  step := by
    rintro l run run' point i s o hslots ⟨hl, ht⟩ hs hstep
    obtain ⟨ext, hl', ht', hs', hseen⟩ := h.step hslots hl ht hs point i
    rw [hstep] at ht' hs'
    exact ⟨l ++ ext, List.prefix_append _ _, ⟨hl', ht'⟩, hs', hseen⟩
  departing := fun ht hs => h.departing ht.1 hs _
  raising := fun hs => h.raising hs _
  arriving := by
    rintro l run s ⟨hl, ht⟩ hs block
    obtain ⟨ext, hl', ht', hs'⟩ := h.arriving hl ht hs block
    exact ⟨l ++ ext, List.prefix_append _ _, ⟨hl', ht'⟩, hs'⟩

end Lasting

end Pathwise
