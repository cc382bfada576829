import Pathwise.Proofs.Coherence
import Pathwise.Proofs.FlowGraph

/-!
# What one turn adds to the worklist

A turn takes a node and adds nodes at the blocks behind it. From the node to each of these, only the
assignments of the block change the value of a variable, apart from widening at a header, and no
variable loses its value. In a balanced graph the nodes have empty stacks. None of them was met
before the turn, and all of them count as met after it.
-/

namespace Pathwise

namespace Plan

variable {p : Procedure} {x : Setting} {settings : Settings} {polls : Option Polls} {plan : Plan}

/-- The variables that a block assigns. -/
def assignedBlock (plan : Plan) (block : Nat) : List Symbol :=
  assignedBy plan.setting.semantics (plan.instructions block)

/-- Some instruction names a variable. -/
def Names (plan : Plan) (y : Symbol) : Prop :=
  ∃ block, ∃ i ∈ plan.instructions block, plan.setting.semantics.symbol i.node = some y

theorem mem_assignedBlock {block : Nat} {y : Symbol} :
    y ∈ plan.assignedBlock block ↔ ∃ i ∈ plan.instructions block,
      i.operation = .assign ∧ plan.setting.semantics.symbol i.node = some y := by
  simp [assignedBlock, assignedBy]

theorem names_of_mem_assignedBlock {block : Nat} {y : Symbol} (h : y ∈ plan.assignedBlock block) :
    plan.Names y := by
  obtain ⟨i, hi, -, hy⟩ := mem_assignedBlock.1 h
  exact ⟨block, i, hi, hy⟩

/-- The variables kept for a header are those that the blocks of its loop assign. -/
theorem Prepared.assigned_get? (h : Prepared p x settings polls plan) {header : Nat}
    {symbols : SortedSet Symbol} (hget : plan.assigned.get? header = some symbols) :
    ∃ loops, p.flow.loops = .ok loops ∧ ∃ l ∈ loops, l.header = header ∧
      ∀ y, y ∈ symbols.toList ↔ ∃ block ∈ l.nodes, y ∈ plan.assignedBlock block := by
  obtain ⟨loops, hloops, hassigned⟩ := h.assigned
  rw [hassigned] at hget
  obtain ⟨l, hl, heq⟩ := List.mem_map.1 (SortedMap.mem_of_get?_ofList hget)
  obtain ⟨rfl, rfl⟩ := Prod.mk.inj heq
  refine ⟨loops, hloops, l, hl, rfl, fun y => ?_⟩
  rw [variablesOf, SortedSet.mem_toList_ofMembers, List.mem_flatMap]
  simp only [assignedBlock, instructions, h.procedure, h.setting]

theorem Prepared.names_of_mem_assignedAt (h : Prepared p x settings polls plan) {header : Nat}
    {y : Symbol} (hy : y ∈ plan.assignedAt header) : plan.Names y := by
  unfold assignedAt at hy
  cases hget : plan.assigned.get? header with
  | none => simp [hget, SortedSet.toList, SortedMap.mem_keys] at hy
  | some symbols =>
    obtain ⟨loops, -, l, -, -, hiff⟩ := h.assigned_get? hget
    rw [hget, Option.getD_some, hiff] at hy
    obtain ⟨block, -, hy⟩ := hy
    exact names_of_mem_assignedBlock hy

/-- What is kept for a header covers the blocks of one of its loops. -/
theorem Prepared.exists_assignedAt (h : Prepared p x settings polls plan) {loops : List Loop}
    (hloops : p.flow.loops = .ok loops) {header : Nat} (hheader : ∃ l ∈ loops, l.header = header) :
    plan.assigned.contains header = true ∧ ∃ l ∈ loops, l.header = header ∧
      ∀ block ∈ l.nodes, ∀ y ∈ plan.assignedBlock block, y ∈ plan.assignedAt header := by
  have hsome : (plan.assigned.get? header).isSome := by
    obtain ⟨loops', hloops', hassigned⟩ := h.assigned
    obtain rfl := Except.ok.inj (hloops.symm.trans hloops')
    rw [hassigned]
    refine SortedMap.get?_ofList_isSome ?_
    simpa using hheader
  obtain ⟨symbols, hget⟩ := Option.isSome_iff_exists.1 hsome
  obtain ⟨loops', hloops', l, hl, hlh, hiff⟩ := h.assigned_get? hget
  obtain rfl := Except.ok.inj (hloops.symm.trans hloops')
  refine ⟨hsome, l, hl, hlh, fun block hblock y hy => ?_⟩
  rw [assignedAt, hget, Option.getD_some, hiff]
  exact ⟨block, hblock, hy⟩

end Plan

/-! ## The variables of a block -/

/-- What may have become of the variables while a block was executed. -/
structure State.Since (plan : Plan) (block : Nat) (s₀ s : State) : Prop where
  /-- A value changes only if the block assigns the variable. -/
  kept : ∀ {y v}, s₀.lookup y = some v →
    ∃ v', s.lookup y = some v' ∧ (v' = v ∨ y ∈ plan.assignedBlock block)
  /-- A variable gets a value only if an instruction names it. -/
  named : ∀ {y v}, s.lookup y = some v → (∃ v₀, s₀.lookup y = some v₀) ∨ plan.Names y

namespace State.Since

variable {plan : Plan} {block : Nat} {s₀ s s' : State}

theorem refl (plan : Plan) (block : Nat) (s : State) : s.Since plan block s where
  kept := fun hv => ⟨_, hv, .inl rfl⟩
  named := fun hv => .inl ⟨_, hv⟩

theorem of_lookup (h : s₀.Since plan block s) (hlookup : ∀ y, s'.lookup y = s.lookup y) :
    s₀.Since plan block s' where
  kept := by
    intro y v hv
    rw [hlookup]
    exact h.kept hv
  named := by
    intro y v hv
    exact h.named (hlookup y ▸ hv)

/-- An instruction of the block. -/
theorem step {run run' : Run} {point : Point} {i : Instruction} (h : s₀.Since plan block s)
    (hrun : run.Standard) (hi : i ∈ plan.instructions block)
    (hstep : run.step plan point i s = (some s', run')) :
    s₀.Since plan block s' ∧ s'.stack.length = i.operation.depthAfter s.stack.length := by
  rcases Run.step_cases plan point i hrun s with
    ⟨σ, j, heq, -⟩ | ⟨s₁, s'', j, heq, hs₁, hs'⟩
  · cases hstep.symm.trans heq
  · obtain ⟨hsome, -⟩ := Prod.mk.inj (hstep.symm.trans heq)
    obtain rfl := Option.some.inj hsome
    have hpushed := plan.setting.outline_pushed run.supply s i
    generalize houtline : plan.setting.outline i run.supply s = o at hs' hpushed
    refine ⟨?_, ?_⟩
    · cases hrebinds : o.rebinds with
      | none =>
        refine h.of_lookup fun y => ?_
        rw [hs'.lookup, Outline.lookup_apply, hrebinds]
        exact hs₁.lookup y
      | some r =>
        obtain ⟨x, w⟩ := r
        have hlookup : ∀ y, s'.lookup y = if y = x then some w else s.lookup y := by
          intro y
          rw [hs'.lookup, Outline.lookup_apply, hrebinds, ← hs₁.lookup y]
          rfl
        obtain ⟨hsymbol, hassign⟩ := plan.setting.outline_rebinds _ _ (houtline ▸ hrebinds)
        constructor
        · intro y v hv
          obtain ⟨v', hv', hcase⟩ := h.kept hv
          by_cases hy : y = x
          · subst hy
            refine ⟨w, by simp [hlookup], .inr (Plan.mem_assignedBlock.2 ⟨i, hi, ?_, hsymbol⟩)⟩
            exact hassign.resolve_right (by simp [hv'])
          · exact ⟨v', by simp [hlookup, hy, hv'], hcase⟩
        · intro y v hv
          by_cases hy : y = x
          · exact .inr ⟨block, i, hi, hy ▸ hsymbol⟩
          · exact h.named (by simpa [hlookup, hy] using hv)
    · rw [hs'.stack, Outline.stack_apply, List.length_append, List.length_drop, hs₁.stack,
        Operation.depthAfter, ← hpushed]
      cases o.pushed <;> simp [Nat.add_comm]

end State.Since

/-! ## The nodes behind a node -/

/-- A node at the start of a block, with an empty stack and no facts but those about live values. -/
structure Node.Settled (n : Node) : Prop where
  /-- The block has not begun. -/
  offset : n.point.offset = 0
  /-- The stack is empty. -/
  stack : n.state.stack = []
  /-- A fact is about a live value and stands at its identity. -/
  facts : ∀ {i f}, n.state.facts.get? i = some f → f.value.id = i ∧ n.state.Live f.value

/-- Control gets from a node to another one by executing its block. -/
structure Hop (plan : Plan) (node n : Node) : Prop where
  /-- An edge leads there. -/
  edge : n.point.block ∈ plan.procedure.flow.graph.nextOf node.point.block
  /-- A value changes only if the block assigns the variable or the arrival widens it. -/
  kept : ∀ {y v}, node.state.lookup y = some v → ∃ v', n.state.lookup y = some v' ∧
    (v' = v ∨ y ∈ plan.assignedBlock node.point.block ∨ ∃ id, v' = .widened id n.point.block y)
  /-- A variable gets a value only if an instruction names it. -/
  named : ∀ {y v}, n.state.lookup y = some v →
    (∃ v₀, node.state.lookup y = some v₀) ∨ plan.Names y
  /-- After enough visits of a header the variables of its loop have their values there. -/
  widened : plan.assigned.contains n.point.block = true →
    plan.settings.loopVisitLimit < n.point.visits →
    ∀ y ∈ plan.assignedAt n.point.block, ∃ id, n.state.lookup y = some (.widened id n.point.block y)

namespace Run

variable {p : Procedure} {x : Setting} {settings : Settings} {polls : Option Polls} {plan : Plan}
variable {run : Run} {l : List Value} {block : Nat} {s : State}

/-- Cleaning and widening as one change of the state with which control arrives. -/
theorem arriving_cases (plan : Plan) (block : Nat) (hl : Ledger l) (ht : run.supply.Tracks l)
    (hs : s.DrawnFrom l) :
    ∃ (l' : List Value) (t : State), Ledger l' ∧ t.DrawnFrom l' ∧
      (run.arriving plan block s).state = t.clean ∧ t.stack = s.stack ∧
      (∀ y, t.lookup y = s.lookup y ∨
        y ∈ plan.assignedAt block ∧ ∃ id, t.lookup y = some (.widened id block y)) ∧
      (run.Widens plan block →
        ∀ y ∈ plan.assignedAt block, ∃ id, t.lookup y = some (.widened id block y)) := by
  by_cases hwidens : run.Widens plan block
  · obtain ⟨ext, t, hl', -, ht', heq, hw⟩ := widen_spec plan block hl ht hs.clean
    refine ⟨_, t, hl', ht', by rw [arriving, if_pos hwidens, heq], hw.stack, fun y => ?_,
      fun _ => hw.bound⟩
    by_cases hy : y ∈ plan.assignedAt block
    · exact .inr ⟨hy, hw.bound y hy⟩
    · exact .inl (hw.other y hy)
  · exact ⟨l, s, hl, hs, by rw [arriving, if_neg hwidens], rfl, fun _ => .inl rfl,
      fun h => absurd h hwidens⟩

theorem arriving_settled (plan : Plan) (block : Nat) (hl : Ledger l) (ht : run.supply.Tracks l)
    (hs : s.DrawnFrom l) (hstack : s.stack = []) : (run.arriving plan block s).Settled := by
  obtain ⟨l', t, hl', ht', heq, hkept, -, -⟩ := arriving_cases plan block hl ht hs
  refine ⟨rfl, by rw [heq, State.stack_clean, hkept, hstack], fun {i f} hf => ?_⟩
  rw [heq] at hf ⊢
  obtain ⟨hf, hlive⟩ := State.live_of_facts_clean hl' ht' hf
  exact ⟨(ht'.fact_mem hf).2.1, hlive⟩

theorem arriving_hop (hplan : plan.Prepared p x settings polls) (hl : Ledger l)
    (ht : run.supply.Tracks l) (hs : s.DrawnFrom l) {node : Node}
    (hedge : block ∈ plan.procedure.flow.graph.nextOf node.point.block)
    (hsince : node.state.Since plan node.point.block s) :
    Hop plan node (run.arriving plan block s) := by
  obtain ⟨l', t, -, -, heq, -, hlookup, hwidens⟩ := arriving_cases plan block hl ht hs
  have hclean : ∀ y, (run.arriving plan block s).state.lookup y = t.lookup y := by
    intro y
    rw [heq, State.lookup_clean]
  refine ⟨hedge, fun {y v} hv => ?_, fun {y v} hv => ?_, fun hheader hvisits y hy => ?_⟩
  · obtain ⟨v', hv', hcase⟩ := hsince.kept hv
    rw [hclean]
    rcases hlookup y with hsame | ⟨-, id, hbound⟩
    · exact ⟨v', hsame.trans hv', hcase.imp_right .inl⟩
    · exact ⟨_, hbound, .inr (.inr ⟨id, rfl⟩)⟩
  · rw [hclean] at hv
    rcases hlookup y with hsame | ⟨hy, -⟩
    · exact hsince.named (hsame ▸ hv)
    · exact .inr (hplan.names_of_mem_assignedAt hy)
  · have hheader : plan.assigned.contains block = true := hheader
    have hvisits : plan.settings.loopVisitLimit < run.nextVisit block := by
      simpa [arriving, hheader] using hvisits
    rw [hclean]
    exact hwidens ⟨hheader, hvisits⟩ y hy

end Run

/-- Control departs with the variables as they are, and with the stack as it is, without the
condition, or cleared. -/
theorem Departure.into_ofEdge {merged : Bool} {s t : State} {e : FlowEdge} {b : Nat}
    (h : ofEdge merged s e = some (.into b t)) :
    b = e.tail ∧ (∀ y, t.lookup y = s.lookup y) ∧
      (e.label = .jump ∧ t.stack = s.stack ∨
        e.label.isBranch = true ∧ t.stack = s.stack.drop 1 ∨ t.stack = []) := by
  have hpop : s.pop.2 = { s with stack := s.stack.drop 1 } := by rw [State.pop_eq]
  have hside : ∀ truth, ofBranch e.tail truth s.pop.1 s.pop.2 = .into b t →
      b = e.tail ∧ (∀ y, t.lookup y = s.lookup y) ∧ t.stack = s.stack.drop 1 := by
    intro truth heq
    unfold ofBranch at heq
    split at heq
    · next hassume =>
      obtain ⟨hbindings, hstack⟩ := State.bindings_stack_assume hassume
      obtain ⟨rfl, rfl⟩ := into.inj heq
      rw [hpop] at hbindings hstack
      exact ⟨rfl, fun y => by rw [State.lookup, hbindings]; rfl, hstack⟩
    · cases heq
  unfold ofEdge at h
  split at h
  · next hlabel =>
    obtain ⟨rfl, rfl⟩ := into.inj (Option.some.inj h)
    exact ⟨rfl, fun _ => rfl, .inl ⟨hlabel, rfl⟩⟩
  · obtain ⟨rfl, rfl⟩ := into.inj (Option.some.inj h)
    exact ⟨rfl, fun _ => rfl, .inr (.inr rfl)⟩
  · next hlabel =>
    have hbranch : e.label.isBranch = true := by simp [hlabel, Transfer.isBranch]
    split at h
    · obtain ⟨rfl, rfl⟩ := into.inj (Option.some.inj h)
      exact ⟨rfl, fun _ => by rw [hpop]; rfl, .inr (.inl ⟨hbranch, by rw [hpop]⟩)⟩
    · obtain ⟨htail, hlookup, hstack⟩ := hside _ (Option.some.inj h)
      exact ⟨htail, hlookup, .inr (.inl ⟨hbranch, hstack⟩)⟩
  · next hlabel =>
    split at h
    · cases h
    · obtain ⟨htail, hlookup, hstack⟩ := hside _ (Option.some.inj h)
      exact ⟨htail, hlookup, .inr (.inl ⟨by simp [hlabel, Transfer.isBranch], hstack⟩)⟩

namespace Plan

variable {p : Procedure} {x : Setting} {settings : Settings} {polls : Option Polls} {plan : Plan}

/-- From the end of a block of a balanced graph control departs with an empty stack. -/
theorem Prepared.mem_departures (h : Prepared p x settings polls plan) (hbuilt : p.flow.Built)
    (hbalanced : p.flow.Balanced) {block b : Nat} {s t : State}
    (hs : s.stack.length = depthAfter (plan.instructions block) 0)
    (ht : .into b t ∈ plan.departures block s) :
    b ∈ plan.procedure.flow.graph.nextOf block ∧ t.stack = [] ∧ ∀ y, t.lookup y = s.lookup y := by
  obtain ⟨e, he, hd⟩ := List.mem_filterMap.1 ht
  obtain ⟨hjump, hbranch⟩ := h.depth hbuilt hbalanced he
  obtain ⟨rfl, hlookup, hstack⟩ := Departure.into_ofEdge hd
  refine ⟨h.tail_mem_nextOf hbuilt he, ?_, hlookup⟩
  rcases hstack with ⟨hlabel, hstack⟩ | ⟨hlabel, hstack⟩ | hstack
  · rw [hstack]
    exact List.length_eq_zero_iff.1 (hs.trans (hjump hlabel))
  · rw [hstack, List.drop_eq_nil_iff]
    exact Nat.le_of_eq (hs.trans (hbranch hlabel))
  · exact hstack

/-- An exception departs through an edge with an empty stack. -/
theorem mem_handlers {block b : Nat} {s t : State} (ht : .into b t ∈ plan.handlers block s) :
    (∃ e ∈ plan.edgesOut block, e.tail = b) ∧ t.stack = [] ∧ ∀ y, t.lookup y = s.lookup y := by
  obtain ⟨e, he, hd⟩ := List.mem_filterMap.1 ht
  unfold Departure.ofHandler at hd
  split at hd
  · obtain ⟨rfl, rfl⟩ := Departure.into.inj (Option.some.inj hd)
    exact ⟨⟨e, he, rfl⟩, rfl, fun _ => rfl⟩
  · cases hd

end Plan

/-! ## Working on a node -/

/-- What a stage has to do with the node that is worked on. -/
def Stage.Within (plan : Plan) (node : Node) : Stage → Prop
  | .idle => True
  | .executing point rest s =>
    point.block = node.point.block ∧ node.state.Since plan node.point.block s ∧
      ∃ done, plan.instructions node.point.block = done ++ rest ∧
        s.stack.length = depthAfter done 0
  | .leaving departures => ∀ b s, .into b s ∈ departures →
    b ∈ plan.procedure.flow.graph.nextOf node.point.block ∧ s.stack = [] ∧
      node.state.Since plan node.point.block s

/-- How a situation has come from a run by work on a node that has added new nodes. -/
structure Working (plan : Plan) (run : Run) (node : Node) (x : Situation) (new : List Node) :
    Prop where
  /-- The new nodes are at the end of the worklist. -/
  worklist : x.run.worklist.toList = run.worklist.toList ++ new
  /-- What was met stays so. -/
  visited : ∀ {b f}, run.hasVisited b f = true → x.run.hasVisited b f = true
  /-- The visits of a header do not become less. -/
  visits : ∀ b, run.nextVisit b ≤ x.run.nextVisit b
  /-- The new nodes are settled. -/
  settled : ∀ n ∈ new, n.Settled
  /-- They are behind the node. -/
  hop : ∀ n ∈ new, Hop plan node n
  /-- They were not met before. -/
  fresh : ∀ n ∈ new, run.hasVisited n.point.block n.state.fingerprint = false
  /-- They are met now. -/
  met : ∀ n ∈ new, x.run.hasVisited n.point.block n.state.fingerprint = true
  /-- Their visits are counted. -/
  counted : ∀ n ∈ new, plan.assigned.contains n.point.block = true →
    run.nextVisit n.point.block ≤ n.point.visits ∧ n.point.visits < x.run.nextVisit n.point.block
  /-- The work is on the node. -/
  stage : x.stage.Within plan node

namespace Working

variable {p : Procedure} {t : Setting} {settings : Settings} {polls : Option Polls} {plan : Plan}
variable {run : Run} {node : Node} {x y : Situation} {new : List Node} {l : List Value}

/-- The work on a settled node starts with all instructions of its block. -/
theorem start (plan : Plan) (run : Run) (hnode : node.Settled) :
    Working plan run node (.exploring plan run node) [] where
  worklist := (List.append_nil _).symm
  visited := id
  visits := fun _ => Nat.le_refl _
  settled := by simp
  hop := by simp
  fresh := by simp
  met := by simp
  counted := by simp
  stage := by
    refine ⟨rfl, .refl _ _ _, [], ?_, ?_⟩
    · rw [hnode.offset, List.drop_zero, List.nil_append]
    · rw [hnode.stack]
      rfl

/-- Nothing is added. -/
theorem still (h : Working plan run node x new) (hworklist : y.run.worklist = x.run.worklist)
    (hvisited : y.run.visited = x.run.visited) (hvisits : y.run.headerVisits = x.run.headerVisits)
    (hstage : y.stage.Within plan node) : Working plan run node y new := by
  have hmet : ∀ b f, y.run.hasVisited b f = x.run.hasVisited b f := by
    intro b f
    rw [Run.hasVisited, hvisited]
    rfl
  have hnext : ∀ b, y.run.nextVisit b = x.run.nextVisit b := by
    intro b
    rw [Run.nextVisit, hvisits]
    rfl
  exact {
    worklist := by rw [hworklist, h.worklist]
    visited := fun hb => hmet _ _ ▸ h.visited hb
    visits := fun b => hnext b ▸ h.visits b
    settled := h.settled
    hop := h.hop
    fresh := h.fresh
    met := fun n hn => hmet _ _ ▸ h.met n hn
    counted := fun n hn hheader => hnext n.point.block ▸ h.counted n hn hheader
    stage := hstage }

/-- Control arrives at a block. -/
theorem arrive {b : Nat} {s : State} {rest : List Departure} {run' : Run}
    (hplan : plan.Prepared p t settings polls)
    (hdrawn : Situation.Drawn ⟨run', .leaving (.into b s :: rest)⟩ l)
    (h : Working plan run node ⟨run', .leaving (.into b s :: rest)⟩ new) :
    ∃ new', Working plan run node ⟨run'.enter plan b s, .leaving rest⟩ new' := by
  have hs : s.DrawnFrom l := hdrawn.stage s (List.mem_append_left _ List.mem_cons_self)
  obtain ⟨hedge, hstack, hsince⟩ := h.stage b s List.mem_cons_self
  have hrest : (Stage.leaving rest).Within plan node :=
    fun b' s' hmem => h.stage b' s' (List.mem_cons_of_mem _ hmem)
  have hvisits : ∀ b', run'.nextVisit b' ≤ (run'.enter plan b s).nextVisit b' := by
    intro b'
    rw [Run.nextVisit_enter]
    split <;> omega
  have hcounted : ∀ n ∈ new, plan.assigned.contains n.point.block = true →
      run.nextVisit n.point.block ≤ n.point.visits ∧
        n.point.visits < (run'.enter plan b s).nextVisit n.point.block := by
    intro n hn hheader
    obtain ⟨hle, hlt⟩ := h.counted n hn hheader
    exact ⟨hle, Nat.lt_of_lt_of_le hlt (hvisits _)⟩
  rcases Run.enter_cases plan run' b s with ⟨-, hlist, hmet⟩ | ⟨hfresh, hlist, hmet⟩
  · exact ⟨new, {
      worklist := hlist.trans h.worklist
      visited := fun hb => (hmet _ _).trans (h.visited hb)
      visits := fun b' => Nat.le_trans (h.visits b') (hvisits b')
      settled := h.settled
      hop := h.hop
      fresh := h.fresh
      met := fun n hn => (hmet _ _).trans (h.met n hn)
      counted := hcounted
      stage := hrest }⟩
  · have hmem : ∀ {P : Node → Prop}, (∀ n ∈ new, P n) → P (run'.arriving plan b s) →
        ∀ n ∈ new ++ [run'.arriving plan b s], P n := by
      intro P hnew hlast n hn
      rcases List.mem_append.1 hn with hn | hn
      · exact hnew n hn
      · exact List.mem_singleton.1 hn ▸ hlast
    refine ⟨new ++ [run'.arriving plan b s], {
      worklist := by rw [hlist, h.worklist, List.append_assoc]
      visited := fun hb => (hmet _ _).2 (.inr (h.visited hb))
      visits := fun b' => Nat.le_trans (h.visits b') (hvisits b')
      settled := hmem h.settled
        (Run.arriving_settled plan b hdrawn.ledger hdrawn.tracks hs hstack)
      hop := hmem h.hop (Run.arriving_hop hplan hdrawn.ledger hdrawn.tracks hs hedge hsince)
      fresh := hmem h.fresh ?_
      met := hmem (fun n hn => (hmet _ _).2 (.inr (h.met n hn))) ((hmet _ _).2 (.inl ⟨rfl, rfl⟩))
      counted := hmem hcounted fun hheader => ?_
      stage := hrest }⟩
    · -- what was met at the start of the work would still be met
      cases hbefore : run.hasVisited b (run'.arriving plan b s).state.fingerprint with
      | false => exact hbefore
      | true =>
        have hstill := h.visited hbefore
        simp [hfresh] at hstill
    · have hheader : plan.assigned.contains b = true := hheader
      have hpoint : (run'.arriving plan b s).point.visits = run'.nextVisit b := by
        simp [Run.arriving, hheader]
      rw [hpoint]
      refine ⟨h.visits b, ?_⟩
      show _ < (run'.enter plan b s).nextVisit b
      rw [Run.nextVisit_enter, if_pos ⟨rfl, hheader⟩]
      exact Nat.lt_succ_self _

/-- One instruction of the block is executed. -/
theorem execute {point : Point} {i : Instruction} {rest : List Instruction} {s s' : State}
    {run' run'' : Run} (hdrawn : Situation.Drawn ⟨run', .executing point (i :: rest) s⟩ l)
    (h : Working plan run node ⟨run', .executing point (i :: rest) s⟩ new)
    (hstep : (run'.count .countStep).step plan point i s = (some s', run'')) :
    node.state.Since plan node.point.block s' ∧
      ∃ done, plan.instructions node.point.block = done ++ rest ∧
        s'.stack.length = depthAfter done 0 := by
  obtain ⟨-, hsince, done, hdone, hdepth⟩ := h.stage
  have hrun : (run'.count .countStep).Standard := hdrawn.standard
  have hi : i ∈ plan.instructions node.point.block := by simp [hdone]
  obtain ⟨hsince', hdepth'⟩ := hsince.step hrun hi hstep
  refine ⟨hsince', done ++ [i], by simp [hdone], ?_⟩
  rw [hdepth', hdepth]
  simp [depthAfter]

/-- One move of the work. -/
theorem move (hbuilt : p.flow.Built) (hbalanced : p.flow.Balanced)
    (hplan : plan.Prepared p t settings polls) (hdrawn : x.Drawn l)
    (h : Working plan run node x new) (hbusy : x.stage ≠ .idle) (hmove : Move plan x y) :
    ∃ new', Working plan run node y new' := by
  cases hmove with
  | take => exact absurd rfl hbusy
  | @finish run' point s =>
    obtain ⟨hblock, hsince, done, hdone, hdepth⟩ := h.stage
    rw [List.append_nil] at hdone
    refine ⟨new, h.still rfl rfl rfl fun b s' hmem => ?_⟩
    rw [hblock] at hmem
    obtain ⟨hedge, hstack, hlookup⟩ :=
      hplan.mem_departures hbuilt hbalanced (by rw [hdone, hdepth]) hmem
    exact ⟨hedge, hstack, hsince.of_lookup hlookup⟩
  | prune _ hstep =>
    obtain ⟨hworklist, hvisited, hvisits, -⟩ := Run.step_fields hstep
    exact ⟨new, h.still hworklist hvisited hvisits trivial⟩
  | raise _ hstep _ =>
    obtain ⟨hworklist, hvisited, hvisits, -⟩ := Run.step_fields hstep
    obtain ⟨hsince, -⟩ := h.execute hdrawn hstep
    refine ⟨new, h.still hworklist hvisited hvisits fun b s' hmem => ?_⟩
    rw [h.stage.1] at hmem
    obtain ⟨⟨e, he, rfl⟩, hstack, hlookup⟩ := Plan.mem_handlers hmem
    exact ⟨hplan.tail_mem_nextOf hbuilt he, hstack, hsince.of_lookup hlookup⟩
  | proceed _ hstep _ =>
    obtain ⟨hworklist, hvisited, hvisits, -⟩ := Run.step_fields hstep
    exact ⟨new, h.still hworklist hvisited hvisits ⟨h.stage.1, h.execute hdrawn hstep⟩⟩
  | @depart run' d rest =>
    cases d with
    | blocked =>
      exact ⟨new, h.still rfl rfl rfl fun b s hmem => h.stage b s (List.mem_cons_of_mem _ hmem)⟩
    | into b s => exact h.arrive hplan hdrawn
  | settle => exact ⟨new, h.still rfl rfl rfl trivial⟩

/-- All of the work. -/
theorem works (hbuilt : p.flow.Built) (hbalanced : p.flow.Balanced)
    (hplan : plan.Prepared p t settings polls) (hdrawn : x.Drawn l)
    (h : Working plan run node x new) (hworks : Works plan x y) :
    ∃ new', Working plan run node y new' := by
  induction hworks with
  | refl => exact ⟨new, h⟩
  | tail hworks hmove ih =>
    obtain ⟨new', h'⟩ := ih
    obtain ⟨l', -, hdrawn'⟩ := hdrawn.leads (Works.leads hworks)
    exact h'.move hbuilt hbalanced hplan hdrawn' hmove.1 hmove.2

end Working

/-- A turn works on the first node of the worklist. -/
theorem Run.turn_working {p : Procedure} {t : Setting} {settings : Settings} {polls : Option Polls}
    {plan : Plan} {run run' : Run} {l : List Value} (hbuilt : p.flow.Built)
    (hbalanced : p.flow.Balanced) (hplan : plan.Prepared p t settings polls)
    (hdrawn : Situation.Drawn ⟨run, .idle⟩ l)
    (hsettled : ∀ n ∈ run.worklist.toList, n.Settled) (h : run.turn plan = (none, run')) :
    ∃ node rest new, run.worklist.toList = node :: rest.toList ∧
      Working plan (run.taking rest) node ⟨run', .idle⟩ new := by
  obtain ⟨node, rest, hpop, hcancelled, hworks⟩ := Works.turn h
  have hlist := Queue.toList_of_pop? hpop
  obtain ⟨ext, htaken⟩ := hdrawn.move (.take hcancelled hpop)
  have hnode : node.Settled := hsettled node (hlist ▸ List.mem_cons_self)
  obtain ⟨new, hworking⟩ :=
    (Working.start plan (run.taking rest) hnode).works hbuilt hbalanced hplan htaken hworks
  exact ⟨node, rest, new, hlist, hworking⟩

end Pathwise
