import Pathwise.Proofs.Coherence
import Pathwise.Proofs.Unmarked

/-!
# Marks are made once and only undone

A value is marked when it is made or never. From then on its marks stay as they are on every path,
or are undone by the known methods that fill an array with random bytes, and what undoes a mark is
no mark. So the marks a value was made with are the same for all states of a run in which it is in
sight, and a state that has been cleaned can be told from the others without its marks.
-/

namespace Pathwise

/-- Where one still has a mark, the other cannot have what undoes it, if they are the same without
the mark. -/
theorem eq_of_filter_eq {α : Type} [BEq α] [LawfulBEq α] {mark undone : α} (hne : undone ≠ mark)
    {o a b : Option α} (ha : a = o ∨ a = some undone) (hb : b = o ∨ b = some undone)
    (h : a.filter (· != mark) = b.filter (· != mark)) : a = b := by
  have hundone : (some undone).filter (· != mark) = some undone := by simp [Option.filter, hne]
  have hback : ∀ {x : Option α}, x.filter (· != mark) = some undone → x = some undone :=
    fun hx => (Option.filter_eq_some_iff.1 hx).1
  rcases ha with rfl | rfl
  · rcases hb with rfl | rfl
    · rfl
    · exact hback (h.trans hundone)
  · exact (hback (h.symm.trans hundone)).symm

namespace ConstraintSet

/-- As far as marks are concerned, one set arises from the other by undoing them. -/
structure UndoesTo (set set' : ConstraintSet) : Prop where
  /-- The content is as it was, or random. -/
  content : set'.byteArray = set.byteArray ∨ set'.byteArray = some .modified
  /-- The size is as it was, or safe. -/
  size : set'.saltSize = set.saltSize ∨ set'.saltSize = some .safe

namespace UndoesTo

variable {a b c : ConstraintSet}

/-- Nothing has been undone to begin with. -/
theorem refl (a : ConstraintSet) : a.UndoesTo a := ⟨.inl rfl, .inl rfl⟩

/-- What is undone in two steps is undone. -/
theorem trans (h : a.UndoesTo b) (h' : b.UndoesTo c) : a.UndoesTo c where
  content := by
    rcases h'.content with heq | heq
    · rw [heq]
      exact h.content
    · exact .inr heq
  size := by
    rcases h'.size with heq | heq
    · rw [heq]
      exact h.size
    · exact .inr heq

/-- A constraint that is no mark can only undo. -/
theorem insert (set : ConstraintSet) {c : Constraint} (hc : c.isMark = false) :
    set.UndoesTo (set.insert c) := by
  cases c with
  | nullability | truth | disposal => exact ⟨.inl rfl, .inl rfl⟩
  | byteArray content => cases content with
    | constant => cases hc
    | modified => exact ⟨.inr rfl, .inl rfl⟩
  | saltSize size => cases size with
    | short => cases hc
    | safe => exact ⟨.inl rfl, .inr rfl⟩

/-- Two sets that arise from one by undoing marks are equal if they are equal without marks. -/
theorem eq_of_unmarked {set : ConstraintSet} (ha : set.UndoesTo a) (hb : set.UndoesTo b)
    (h : a.unmarked = b.unmarked) : a = b := by
  obtain ⟨nullability, truth, disposal, content, size⟩ := a
  obtain ⟨nullability', truth', disposal', content', size'⟩ := b
  obtain ⟨rfl, rfl, rfl, hcontent, hsize⟩ := ConstraintSet.mk.inj h
  obtain rfl := eq_of_filter_eq (by simp) ha.content hb.content hcontent
  obtain rfl := eq_of_filter_eq (by simp) ha.size hb.size hsize
  rfl

end UndoesTo

end ConstraintSet

/-! ## Steps undo marks, but for the value that they make -/

namespace State

variable {s s' : State} {u v : Value} {c : Constraint}

/-- To overwrite a constraint on another value changes nothing for this one. -/
theorem recorded_overwrite_of_ne (s : State) (c : Constraint) (h : v.id ≠ u.id) :
    (s.overwrite u c).recorded v = s.recorded v := by
  unfold overwrite
  split
  · rfl
  · rw [recorded_record, if_neg h]

/-- To record what is no mark can only undo. -/
theorem undoesTo_record (s : State) (u v : Value) (hc : c.isMark = false) :
    (s.recorded v).UndoesTo ((s.record u c).recorded v) := by
  rw [recorded_record]
  split
  · exact .insert _ hc
  · exact .refl _

/-- So it is with overwriting. -/
theorem undoesTo_overwrite (s : State) (u v : Value) (hc : c.isMark = false) :
    (s.recorded v).UndoesTo ((s.overwrite u c).recorded v) := by
  unfold overwrite
  split
  · exact .refl _
  · exact undoesTo_record s u v hc

/-- To assume something in a domain without marks can only undo. -/
theorem undoesTo_assume (v : Value) (hc : c.domain.hasMark = false) (h : assume u c s = some s') :
    (s.recorded v).UndoesTo (s'.recorded v) := by
  refine assume_induction (P := fun t => (s.recorded v).UndoesTo (t.recorded v))
    (fun w c' t _ _ _ hc' ht => ht.trans (undoesTo_record t w v ?_)) h (.refl _)
  apply Constraint.isMark_of_domain
  rcases hc' with rfl | hc' | hc'
  · exact hc
  · rw [hc']
    rfl
  · rw [hc']
    rfl

end State

/-- So can the outline of an instruction. -/
theorem Outline.undoesTo_apply {o : Outline} (hw : ∀ w ∈ o.writes, w.2.isMark = false) (s : State)
    (v : Value) : (s.recorded v).UndoesTo ((o.apply s).recorded v) :=
  apply_induction (P := fun t => (s.recorded v).UndoesTo (t.recorded v)) (fun _ _ _ => .refl _)
    (fun w hmem t ht => ht.trans (t.undoesTo_overwrite w.1 v (hw w hmem))) (fun _ _ _ ht => ht)
    (.refl _)

/-- A check undoes marks at most, unless a new array stands on top: that may be marked. -/
theorem Check.Standard.undoesTo {c : Check} (hc : c.Standard) {moment : Moment} {site : Site}
    {s s' : State} {j : Journal} {v : Value}
    (hv : ∀ dimensions, moment = .after → site.instruction.operation = .arrayCreation dimensions →
      v.id ≠ (s.peek 0).id)
    (h : (c.hook moment site s j).1 = .goOn s') : (s.recorded v).UndoesTo (s'.recorded v) := by
  have hanswer := hc.answer moment site s j
  generalize c.hook moment site s j = answer at h hanswer
  cases hanswer with
  | pass | report => exact Verdict.goOn.inj h ▸ .refl _
  | refuse => cases h
  | assume => exact State.undoesTo_assume v rfl (Verdict.eq_some_of_ofOption h)
  | dispose => exact Verdict.goOn.inj h ▸ State.undoesTo_overwrite s _ v rfl
  | mark hmoment hcreation =>
    have hne := hv _ hmoment hcreation
    refine Rule.markArray_induction (P := fun t => (s.recorded v).UndoesTo (t.recorded v))
      (fun c t t' hc hassume ht => ?_) (Verdict.eq_some_of_ofOption h) (.refl _)
    have htruth : c.domain ≠ .truth := by rcases hc with hc | hc <;> simp [hc]
    rcases State.assume_of_not_truth htruth hassume with rfl | rfl
    · exact ht
    · rwa [State.recorded_overwrite_of_ne t c hne]

namespace Run

variable {plan : Plan} {run run' : Run} {s s' : State} {v : Value} {i : Instruction} {point : Point}

/-- Checks can only undo, unless the value is an array that is just being created. -/
theorem callChecks_undoesTo {moment : Moment} {slots : List Slot}
    (hslots : ∀ slot ∈ slots, slot.check.Standard)
    (hv : ∀ dimensions, moment = .after → i.operation = .arrayCreation dimensions →
      v.id ≠ (s.peek 0).id)
    {j : Journal} (h : (callChecks plan moment point i slots j s).2.2 = some s') :
    (s.recorded v).UndoesTo (s'.recorded v) := by
  -- the checks leave the stack alone, so the new array stays on top for the next of them
  suffices hboth : s'.stack = s.stack ∧ (s.recorded v).UndoesTo (s'.recorded v) from hboth.2
  refine callChecks_induction plan moment point i
    (P := fun t => t.stack = s.stack ∧ (s.recorded v).UndoesTo (t.recorded v)) ?_ j ⟨rfl, .refl _⟩ h
  rintro slot hslot - t j t' ⟨hstack, ht⟩ hhook
  have hstandard := hslots slot hslot
  have hadjusts : t.AdjustsTo t' := hstandard.adjusts (Prod.ext hhook rfl)
  refine ⟨hadjusts.stack.trans hstack, ht.trans (hstandard.undoesTo ?_ hhook)⟩
  intro dimensions hmoment hcreation
  unfold State.peek
  rw [hstack]
  exact hv dimensions hmoment hcreation

/-- A step undoes marks at most, but for the marks of the value that it makes. -/
theorem step_undoesTo (heffects : plan.setting.effects = .standard) (hrun : run.Standard)
    (h : run.step plan point i s = (some s', run')) (hv : v.id ≠ run.supply.next) :
    (s.recorded v).UndoesTo (s'.recorded v) := by
  obtain ⟨j, s₁, heq, -, hafter⟩ := step_eq_some plan point i hrun h
  have hbefore : (s.recorded v).UndoesTo (s₁.recorded v) := by
    refine callChecks_undoesTo hrun ?_ (congrArg (·.2.2) heq)
    intro _ hmoment
    cases hmoment
  have hexecuted : (s₁.recorded v).UndoesTo
      ((plan.setting.execute i run.supply s₁).1.recorded v) := by
    rw [Setting.execute_eq]
    exact Outline.undoesTo_apply (fun w hw => (Setting.mayWrite_outline hw).isMark heffects)
      { s₁ with stack := s₁.stack.drop i.operation.operandCount } v
  refine (hbefore.trans hexecuted).trans (callChecks_undoesTo hrun ?_ hafter)
  intro dimensions _ hcreation
  rw [Setting.execute_eq, Setting.peek_arrayCreation hcreation]
  exact hv

end Run

/-! ## The marks that values were made with -/

/-- The values made so far, and the marks that they were made with. The values that come up again
and again, the shared ones and those of loop headers, have none. -/
structure MarkBook where
  /-- The values. -/
  values : List Value
  /-- They are a ledger. -/
  ledger : Ledger values
  /-- The marks, by identity. -/
  marks : Nat → ConstraintSet
  /-- Shared values and those of loop headers have no marks. -/
  plain : ∀ v ∈ values, v ∈ Value.sharedValues ∨ (∃ id header x, v = .widened id header x) →
    marks v.id = .empty
  /-- There are no marks of values that have not been made. -/
  beyond : ∀ i, values.length ≤ i → marks i = .empty

/-- One book is continued by another if values are added at the end, with marks of their own. -/
structure MarkBook.Continued (b b' : MarkBook) : Prop where
  /-- Values are added at the end. -/
  values : b.values <+: b'.values
  /-- The marks of the others stay. -/
  marks : ∀ i, i < b.values.length → b'.marks i = b.marks i

/-- All values come from the book, and for whatever is in sight the marks it was made with are
recorded, unless they have been undone. -/
structure State.MarkedBy (s : State) (b : MarkBook) : Prop where
  /-- All values come from the book. -/
  drawn : s.DrawnFrom b.values
  /-- Marks have been undone at most. -/
  marked : ∀ v, s.InSight v → (b.marks v.id).UndoesTo (s.recorded v)

namespace MarkBook

/-- The book with more values, all without marks. -/
def extend (b : MarkBook) {ext : List Value} (h : Ledger (b.values ++ ext)) : MarkBook where
  values := b.values ++ ext
  ledger := h
  marks := b.marks
  plain := by
    intro v hv hplain
    rcases List.mem_append.1 hv with hv | hv
    · exact b.plain v hv hplain
    · exact b.beyond v.id (h.length_le_id hv)
  beyond := by
    intro i hi
    rw [List.length_append] at hi
    exact b.beyond i (Nat.le_of_add_right_le hi)

/-- The book with more values, none of them of a loop header, with the marks that a state records.
-/
def record (b : MarkBook) {new : List Value} (h : Ledger (b.values ++ new))
    (hnew : ∀ v ∈ new, ∀ id header x, v ≠ .widened id header x) {s : State}
    (hs : s.DrawnFrom (b.values ++ new)) : MarkBook where
  values := b.values ++ new
  ledger := h
  marks i := if i < b.values.length then b.marks i else s.recorded (.fresh i)
  plain := by
    intro v hv hplain
    have hold : v ∈ b.values := by
      rcases List.mem_append.1 hv with hv | hv
      · exact hv
      · rcases hplain with hshared | ⟨id, header, x, rfl⟩
        · exact b.ledger.mem_of_shared hshared
        · exact absurd rfl (hnew _ hv id header x)
    rw [if_pos (b.ledger.id_lt hold)]
    exact b.plain v hold hplain
  beyond := by
    intro i hi
    have hnone : s.facts.get? i = none := hs.facts_eq_none h hi
    rw [List.length_append] at hi
    rw [if_neg (by omega), State.recorded]
    simp only [Value.id, hnone]

/-- A book is continued by its extension. -/
theorem continued_extend (b : MarkBook) {ext : List Value} (h : Ledger (b.values ++ ext)) :
    b.Continued (b.extend h) := ⟨List.prefix_append _ _, fun _ _ => rfl⟩

/-- So it is by what is recorded for new values. -/
theorem continued_record (b : MarkBook) {new : List Value} (h : Ledger (b.values ++ new))
    (hnew : ∀ v ∈ new, ∀ id header x, v ≠ .widened id header x) {s : State}
    (hs : s.DrawnFrom (b.values ++ new)) : b.Continued (b.record h hnew hs) :=
  ⟨List.prefix_append _ _, fun _ hi => if_pos hi⟩

end MarkBook

/-- No value that an instruction issues is a widened one. -/
theorem Issues.not_widened {s : State} {σ σ' : Supply} {new : List Value} (h : Issues s σ new σ') :
    ∀ v ∈ new, ∀ id header x, v ≠ .widened id header x := by
  intro v hv
  cases h with
  | nothing => cases hv
  | one _ _ hwidened => exact List.mem_singleton.1 hv ▸ hwidened

namespace State.MarkedBy

variable {s t : State} {b b' : MarkBook}

/-- A state that fits a book fits its continuations. -/
theorem grow (h : b.Continued b') (hs : s.MarkedBy b) : s.MarkedBy b' where
  drawn := hs.drawn.mono h.values
  marked := by
    intro v hv
    rw [h.marks v.id (b.ledger.id_lt (hv.mem b.ledger hs.drawn))]
    exact hs.marked v hv

/-- What brings nothing in sight and undoes marks at most stays within the book. -/
theorem narrow (hs : s.MarkedBy b) (ht : t.DrawnFrom b.values)
    (hsight : ∀ v, t.InSight v → s.InSight v)
    (hundoes : ∀ v, (s.recorded v).UndoesTo (t.recorded v)) : t.MarkedBy b :=
  ⟨ht, fun v hv => (hs.marked v (hsight v hv)).trans (hundoes v)⟩

/-- It fits with fewer values on the stack. -/
theorem drop (hs : s.MarkedBy b) (n : Nat) : MarkedBy { s with stack := s.stack.drop n } b := by
  refine hs.narrow (hs.drawn.drop n) (fun v hv => hv.imp_right ?_) fun v => .refl _
  rintro ⟨r, hr, hpart⟩
  refine ⟨r, ?_, hpart⟩
  rcases mem_roots.1 hr with hr | hr
  · exact mem_roots.2 (.inl hr)
  · exact mem_roots.2 (.inr (List.mem_of_mem_drop hr))

/-- It fits after an outcome of a condition has been assumed. -/
theorem assume (hs : s.MarkedBy b) {v : Value} (hv : v ∈ b.values) {truth : Truth}
    (h : State.assume v (.truth truth) s = some t) : t.MarkedBy b := by
  obtain ⟨hbindings, hstack⟩ := bindings_stack_assume h
  refine hs.narrow (hs.drawn.assume b.ledger hv h) (fun u hu => ?_) fun u => undoesTo_assume u rfl h
  unfold InSight Live roots at hu ⊢
  rwa [hbindings, hstack] at hu

/-- Of what is in sight cleaning drops facts about shared values at most, and these have no marks.
-/
theorem clean (hs : s.MarkedBy b) : s.clean.MarkedBy b := by
  refine ⟨hs.drawn.clean, fun v hv => ?_⟩
  have hsight : s.InSight v := hv
  by_cases hlive : s.live.has v.id = true
  · rw [recorded, facts_clean, if_pos hlive]
    exact hs.marked v hsight
  · have hshared : v ∈ Value.sharedValues :=
      hsight.resolve_right fun h => hlive (has_of_live b.ledger hs.drawn h)
    rw [recorded, facts_clean, if_neg hlive,
      b.plain v (b.ledger.mem_of_shared hshared) (.inl hshared)]
    exact .refl _

/-- Widening brings values of loop headers in sight, of which nothing is recorded. -/
theorem widened {header : Nat} {symbols : List Symbol} {ext : List Value} (hs : s.MarkedBy b)
    (hl : Ledger (b.values ++ ext)) (ht : t.DrawnFrom (b.values ++ ext))
    (hw : WidenedAs header symbols (b.values ++ ext) s t) : t.MarkedBy (b.extend hl) := by
  refine ⟨ht, fun v hv => ?_⟩
  have hmem : v ∈ b.values ++ ext := hv.mem hl ht
  by_cases hheader : ∃ x ∈ symbols, v = .widened v.id header x
  · obtain ⟨x, hx, heq⟩ := hheader
    have hnone : t.facts.get? v.id = none := hw.forgotten x hx v.id (heq ▸ hmem)
    rw [(b.extend hl).plain v hmem (.inr ⟨_, _, _, heq⟩), recorded, hnone]
    exact .refl _
  · have hkept : t.facts.get? v.id = s.facts.get? v.id :=
      hw.kept v.id fun x hx hwidened => hheader ⟨x, hx, hl.eq_of_id hmem hwidened rfl⟩
    have hsight : s.InSight v := by
      refine hv.imp_right ?_
      rintro ⟨r, hr, hpart⟩
      refine ⟨r, mem_roots.2 ?_, hpart⟩
      rcases mem_roots.1 hr with ⟨y, hy⟩ | hr
      · by_cases hsymbol : y ∈ symbols
        · obtain ⟨id, hbound⟩ := hw.bound y hsymbol
          obtain rfl := Option.some.inj (hy.symm.trans hbound)
          obtain rfl := hpart.eq_of_operands_nil rfl
          exact absurd ⟨y, hsymbol, rfl⟩ hheader
        · exact .inl ⟨y, hw.other y hsymbol ▸ hy⟩
      · exact .inr (hw.stack ▸ hr)
    rw [recorded, hkept]
    exact hs.marked v hsight

/-- A step adds the value that it makes to the book, with the marks it has in the end. -/
theorem step {plan : Plan} (heffects : plan.setting.effects = .standard) {run run' : Run}
    {point : Point} {i : Instruction} {o : Option State} (hrun : run.Standard)
    (ht : run.supply.Tracks b.values) (hs : s.MarkedBy b)
    (h : run.step plan point i s = (o, run')) :
    ∃ b', b.Continued b' ∧ run'.supply.Tracks b'.values ∧ ∀ s', o = some s' → s'.MarkedBy b' := by
  obtain ⟨σ, j, new, rfl, hissues, hnew⟩ := Run.step_issues hrun h
  obtain ⟨hl', ht'⟩ := hissues.ledger b.ledger ht hs.drawn
  cases o with
  | none => exact ⟨b.extend hl', b.continued_extend hl', ht', by simp⟩
  | some s' =>
    obtain ⟨hsight, hdrawn⟩ := hnew s' rfl
    have hs' : s'.DrawnFrom (b.values ++ new) := hdrawn b.values b.ledger hl' hs.drawn
    refine ⟨b.record hl' hissues.not_widened hs', b.continued_record hl' hissues.not_widened hs',
      ht', fun t heq => ?_⟩
    obtain rfl := Option.some.inj heq
    refine ⟨hs', fun v hv => ?_⟩
    change ConstraintSet.UndoesTo
      (if v.id < b.values.length then b.marks v.id else s'.recorded (.fresh v.id)) (s'.recorded v)
    split
    · next hold =>
      have hbefore : s.InSight v := (hsight v hv).resolve_right fun hmem =>
        absurd (hl'.length_le_id hmem) (Nat.not_le.2 hold)
      have hne : v.id ≠ run.supply.next := by
        rw [ht.next_eq]
        exact Nat.ne_of_lt hold
      exact (hs.marked v hbefore).trans (Run.step_undoesTo heffects hrun h hne)
    · exact .refl (s'.recorded v)

/-- Where control arrives, a continuation of the book fits. -/
theorem arriving {run : Run} (plan : Plan) (ht : run.supply.Tracks b.values) (hs : s.MarkedBy b)
    (block : Nat) :
    ∃ b', b.Continued b' ∧ (run.counting plan block s).supply.Tracks b'.values ∧
      (run.arriving plan block s).state.MarkedBy b' := by
  simp only [Run.counting, Run.arriving]
  split
  · obtain ⟨ext, t, hl', ht', hdrawn, heq, hw⟩ :=
      Run.widen_spec plan block b.ledger ht hs.clean.drawn
    refine ⟨b.extend hl', b.continued_extend hl', ht', ?_⟩
    rw [heq]
    exact (hs.clean.widened hl' hdrawn hw).clean
  · exact ⟨b, ⟨List.prefix_refl _, fun _ _ => rfl⟩, ht, hs.clean⟩

/-- On entry some book fits. -/
theorem entering (x : Setting) (parameters : List Symbol) :
    ∃ b : MarkBook, (Run.bindParameters parameters .start).2.Tracks b.values ∧
      (Run.bindParameters parameters .start).1.MarkedBy b := by
  obtain ⟨l, hl, ht, hs⟩ := (DrawnFrom.lasting x).entering parameters
  obtain ⟨-, hfacts⟩ := Run.bindParameters_bare parameters
  refine ⟨⟨l, hl, fun _ => .empty, fun _ _ _ => rfl, fun _ _ => rfl⟩, ht, hs, fun v _ => ?_⟩
  rw [recorded, hfacts]
  exact .refl _

/-- Cleaned states that are the same without marks are the same. -/
theorem eq_of_unmarked (hs : s.clean.MarkedBy b) (ht : t.clean.MarkedBy b)
    (h : s.clean.fingerprint.unmarked = t.clean.fingerprint.unmarked) : s.clean = t.clean := by
  have hsame : s.clean.unmarked = t.clean.unmarked := by
    refine State.eq_of_fingerprint b.ledger hs.drawn.unmarked ht.drawn.unmarked ?_
    rw [fingerprint_unmarked, fingerprint_unmarked, h]
  -- what is recorded about a value arises from the marks it was made with
  have hheld : ∀ {u : State} {i : Nat} {f : Fact}, u.clean.MarkedBy b →
      u.clean.facts.get? i = some f → (b.marks i).UndoesTo f.held := by
    intro u i f hu hf
    obtain ⟨-, rfl, -⟩ := hu.drawn.fact_mem hf
    have hmarked := hu.marked f.value (.inr (live_of_clean b.ledger hu.drawn hf))
    rwa [recorded, hf] at hmarked
  obtain ⟨hbindings, hstack, -⟩ := State.mk.inj hsame
  refine State.ext_get? hbindings hstack fun i => ?_
  have hfacts :
      (s.clean.facts.get? i).map Fact.unmarked = (t.clean.facts.get? i).map Fact.unmarked := by
    rw [← facts_unmarked, ← facts_unmarked, hsame]
  cases hf : s.clean.facts.get? i with
  | none =>
    rw [hf] at hfacts
    exact (Option.map_eq_none_iff.1 hfacts.symm).symm
  | some f =>
    rw [hf] at hfacts
    obtain ⟨g, hg, heq⟩ := Option.map_eq_some_iff.1 hfacts.symm
    obtain ⟨hvalue, hunmarked⟩ := Fact.mk.inj heq
    rw [hg, Option.some.injEq]
    have hset : f.held = g.held := (hheld hs hf).eq_of_unmarked (hheld ht hg) hunmarked.symm
    cases f
    cases g
    cases hvalue
    cases hset
    rfl

end State.MarkedBy

/-- That marks are made once and only undone is an invariant of every exploration. -/
def MarkBook.invariant {plan : Plan} (heffects : plan.setting.effects = .standard) :
    Invariant plan MarkBook where
  Continued := Continued
  Tracks b σ := σ.Tracks b.values
  Holds b s := s.MarkedBy b
  Seen _ _ := True
  Admits := Check.Standard
  refl _ := ⟨List.prefix_refl _, fun _ _ => rfl⟩
  trans h h' := ⟨h.values.trans h'.values, fun i hi =>
    (h'.marks i (Nat.lt_of_lt_of_le hi h.values.length_le)).trans (h.marks i hi)⟩
  grow := State.MarkedBy.grow
  entering := State.MarkedBy.entering plan.setting plan.procedure.parameters
  step := by
    intro b run run' point i s o hslots ht hs hstep
    obtain ⟨b', hb, ht', hs'⟩ := hs.step heffects hslots ht hstep
    exact ⟨b', hb, ht', hs', fun _ _ _ _ => trivial⟩
  departing := by
    intro b σ index s _ hs
    refine Plan.departures_induction hs.drop fun t s' hassume => ?_
    exact (hs.drop 1).assume (hs.drawn.peek_mem b.ledger 0) hassume
  raising := by
    intro b index s hs
    have hclear := hs.drop s.stack.length
    rw [List.drop_length] at hclear
    exact Plan.handlers_induction hclear
  arriving ht hs block := hs.arriving plan ht block

end Pathwise
