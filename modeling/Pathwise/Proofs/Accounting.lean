import Pathwise.Proofs.Bounds
import Pathwise.Proofs.Whereabouts

/-!
# The counters account for what happened

The history of an exploration lists the blocks that control entered and the nodes that were taken
from the worklist. At every point of the exploration and however it ends, the counters of the run
are what the history says: every arrival is a new node or a duplicate, every arrival at a loop
header beyond the limit is a widening, and the nodes visited are those that were taken and those
that still wait, each of them once.
-/

namespace Pathwise

/-! ## The history of an exploration -/

/-- What tells a node from others: its block and its state. -/
def Node.key (node : Node) : Nat × Fingerprint := (node.point.block, node.state.fingerprint)

/-- What has happened in an exploration. -/
structure History where
  /-- The blocks that control entered, the first one first. -/
  entered : List Nat
  /-- The nodes taken from the worklist, the first one first. -/
  taken : List Node
  /-- The nodes whose exploration began, the first one first. -/
  processed : List Node

namespace History

/-- Nothing has happened. -/
def start : History := ⟨[], [], []⟩

/-- A block is entered. -/
def enter (h : History) (block : Nat) : History := { h with entered := h.entered ++ [block] }

/-- A node is taken from the worklist. -/
def take (h : History) (node : Node) : History := { h with taken := h.taken ++ [node] }

/-- A node is taken from the worklist and explored. -/
def process (h : History) (node : Node) : History :=
  { h.take node with processed := h.processed ++ [node] }

/-- What has happened after the next move. -/
def advance (x : Situation) (h : History) : History :=
  match x.stage with
  | .idle => (x.run.worklist.pop?.map fun next => h.process next.1).getD h
  | .leaving (.into block _ :: _) => h.enter block
  | _ => h

end History

/-- An exploration reaches a situation with a history. -/
inductive Recorded (plan : Plan) (checks : List Check) : Situation → History → Prop where
  /-- Nothing has happened on entry. -/
  | enter : Recorded plan checks (.entering plan (.start checks)) .start
  /-- The history follows every move. -/
  | move {x y : Situation} {h : History} (hx : Recorded plan checks x h) (hmove : Move plan x y) :
    Recorded plan checks y (h.advance x)

/-- A point of an exploration: how it ended if it has, how far the run has come, and what has
happened. -/
inductive Observed (plan : Plan) (checks : List Check) : Option Status → Run → History → Prop where
  /-- The run is going on. -/
  | going {x : Situation} {h : History} (hx : Recorded plan checks x h) :
    Observed plan checks none x.run h
  /-- No node was left. -/
  | completed {run : Run} {h : History} (hx : Recorded plan checks ⟨run, .idle⟩ h)
    (hpop : run.worklist.pop? = none) : Observed plan checks (some .completed) run h
  /-- A node was taken, but the run had been asked to end. -/
  | cancelled {run : Run} {h : History} {node : Node} {rest : Queue Node}
    (hx : Recorded plan checks ⟨run, .idle⟩ h) (hpop : run.worklist.pop? = some (node, rest))
    (hcancelled : run.isCancelled plan = true) :
    Observed plan checks (some (.incomplete .cancelled)) (run.taking rest) (h.take node)
  /-- An instruction was left, but no step. -/
  | exceeded {run : Run} {h : History} {point : Point} {i : Instruction}
    {rest : List Instruction} {s : State}
    (hx : Recorded plan checks ⟨run, .executing point (i :: rest) s⟩ h)
    (hbudget : plan.settings.maxSteps ≤ run.statistics.steps) :
    Observed plan checks (some (.incomplete .stepBudgetExceeded)) (run.count .countStep) h

variable {plan : Plan} {checks : List Check} {x y : Situation} {h : History}

theorem Recorded.reached (hx : Recorded plan checks x h) : Reached plan checks x := by
  induction hx with
  | enter => exact .refl
  | move _ hmove ih => exact ih.move hmove

/-- Whatever is reached is reached with a history. -/
theorem Reached.exists_recorded (hx : Reached plan checks x) : ∃ h, Recorded plan checks x h := by
  induction hx with
  | refl => exact ⟨_, .enter⟩
  | tail _ hmove ih =>
    obtain ⟨h, hx⟩ := ih
    exact ⟨_, hx.move hmove⟩

/-- What an exploration comes to is observed at its end. -/
theorem Concludes.exists_observed {status : Status} {run : Run} (hx : Reached plan checks x)
    (hend : Concludes plan x status run) : ∃ h, Observed plan checks (some status) run h := by
  obtain ⟨h, hrecorded⟩ := hx.exists_recorded
  cases hend with
  | done hpop => exact ⟨h, .completed hrecorded hpop⟩
  | cancelled hpop hcancelled => exact ⟨_, .cancelled hrecorded hpop hcancelled⟩
  | exceeded hbudget => exact ⟨h, .exceeded hrecorded hbudget⟩

/-! ## What is visited -/

namespace Run

/-- The nodes visited, by block and state. -/
def visitedNodes (run : Run) : List (Nat × Fingerprint) :=
  run.visited.entries.flatMap fun e => e.2.map fun f => (e.1, f)

theorem mem_visitedNodes {run : Run} {block : Nat} {f : Fingerprint} :
    (block, f) ∈ run.visitedNodes ↔ run.hasVisited block f = true := by
  have hmem : (block, f) ∈ run.visitedNodes ↔
      ∃ states, run.visited.get? block = some states ∧ f ∈ states := by
    simp only [visitedNodes, List.mem_flatMap, List.mem_map, SortedMap.get?_eq_some_iff]
    constructor
    · rintro ⟨e, he, f', hf', heq⟩
      obtain ⟨rfl, rfl⟩ := Prod.mk.inj heq
      exact ⟨e.2, he, hf'⟩
    · rintro ⟨states, hstates, hf⟩
      exact ⟨_, hstates, f, hf, rfl⟩
  rw [hmem, hasVisited]
  cases run.visited.get? block <;> simp

theorem visitedNodes_nodup {run : Run}
    (h : ∀ {block states}, run.visited.get? block = some states → states.Nodup) :
    run.visitedNodes.Nodup := by
  rw [visitedNodes, List.nodup_flatMap]
  refine ⟨fun e he => ?_, run.visited.sorted.imp fun {a b} hlt => ?_⟩
  · have hstates : e.2.Nodup := h (SortedMap.get?_eq_some_iff.2 he)
    exact hstates.map fun f g hfg => (Prod.mk.inj hfg).2
  · intro key ha hb
    obtain ⟨f, -, rfl⟩ := List.mem_map.1 ha
    obtain ⟨g, -, heq⟩ := List.mem_map.1 hb
    have hless := Nat.compare_eq_lt.1 hlt
    have hsame := (Prod.mk.inj heq).1
    omega

theorem length_visitedNodes (run : Run) :
    run.visitedNodes.length = (run.visited.mapValues List.length).values.sum := by
  simp [visitedNodes, SortedMap.mapValues, SortedMap.values, List.length_flatMap,
    Function.comp_def]

/-- What an arrival counts: a duplicate, or one more node at the block. -/
theorem enter_counts (plan : Plan) (run : Run) (block : Nat) (s : State) :
    (run.hasVisited block (run.arriving plan block s).state.fingerprint = true ∧
        (run.enter plan block s).visited = run.visited ∧
        (run.enter plan block s).statistics.nodes = run.statistics.nodes ∧
        (run.enter plan block s).statistics.nodesPerBlock = run.statistics.nodesPerBlock ∧
        (run.enter plan block s).statistics.deduplicated = run.statistics.deduplicated + 1) ∨
      (run.hasVisited block (run.arriving plan block s).state.fingerprint = false ∧
        (run.enter plan block s).visited = run.visited.insert block
          ((run.arriving plan block s).state.fingerprint :: (run.visited.get? block).getD []) ∧
        (run.enter plan block s).statistics.nodes = run.statistics.nodes + 1 ∧
        (run.enter plan block s).statistics.nodesPerBlock =
          run.statistics.nodesPerBlock.insert block (run.statistics.nodesIn block + 1) ∧
        (run.enter plan block s).statistics.deduplicated = run.statistics.deduplicated) := by
  have hcounting : (run.counting plan block s).statistics.nodes = run.statistics.nodes ∧
      (run.counting plan block s).statistics.nodesPerBlock = run.statistics.nodesPerBlock ∧
      (run.counting plan block s).statistics.deduplicated = run.statistics.deduplicated := by
    simp only [counting]
    split <;> exact ⟨rfl, rfl, rfl⟩
  obtain ⟨hnodes, hperBlock, hduplicates⟩ := hcounting
  rw [enter_eq, meet]
  split
  · next hvisited =>
    exact .inl ⟨hvisited, rfl, hnodes, hperBlock, congrArg (· + 1) hduplicates⟩
  · next hvisited =>
    refine .inr ⟨Bool.eq_false_iff.2 hvisited, rfl, congrArg (· + 1) hnodes, ?_, hduplicates⟩
    simp only [Statistics.countNode, Statistics.nodesIn, hperBlock]
    rfl

/-! ## What the counters say -/

/-- The nodes of a run are those of its history. -/
structure Stocked (plan : Plan) (run : Run) (h : History) : Prop where
  /-- At each block as many nodes are counted as states were visited. -/
  perBlock : run.statistics.nodesPerBlock = run.visited.mapValues List.length
  /-- No state is visited twice. -/
  distinct : ∀ {block states}, run.visited.get? block = some states → states.Nodup
  /-- Only reachable blocks are visited. -/
  reachable : ∀ {block states}, run.visited.get? block = some states → plan.Reachable block
  /-- The nodes counted are those that were taken and those that wait. -/
  nodes : run.statistics.nodes = (h.taken ++ run.worklist.toList).length
  /-- No two of them agree. -/
  apart : ((h.taken ++ run.worklist.toList).map Node.key).Nodup
  /-- They are the nodes visited. -/
  known : ∀ block f, (block, f) ∈ (h.taken ++ run.worklist.toList).map Node.key ↔
    run.hasVisited block f = true

/-- The counters of a run agree with its history, given the loop headers. -/
structure Tallied (plan : Plan) (headers : Finset Nat) (run : Run) (h : History) : Prop
    extends run.Stocked plan h where
  /-- An arrival is counted as a node or as a duplicate. -/
  arrivals : h.entered.length = run.statistics.nodes + run.statistics.deduplicated
  /-- The arrivals at loop headers are counted. -/
  visits : ∀ header ∈ headers, run.nextVisit header = h.entered.count header + 1
  /-- Those beyond the limit are counted as widenings. -/
  widenings : run.statistics.widenings =
    ∑ header ∈ headers, (h.entered.count header - plan.settings.loopVisitLimit)

namespace Stocked

variable {run run' : Run} {h h' : History} {node : Node}

/-- Taking a node from the worklist changes nothing. -/
theorem still (hs : run.Stocked plan h)
    (hmet : h'.taken ++ run'.worklist.toList = h.taken ++ run.worklist.toList)
    (hvisited : run'.visited = run.visited)
    (hnodes : run'.statistics.nodes = run.statistics.nodes)
    (hperBlock : run'.statistics.nodesPerBlock = run.statistics.nodesPerBlock) :
    run'.Stocked plan h' where
  perBlock := by rw [hperBlock, hvisited, hs.perBlock]
  distinct := by
    rw [hvisited]
    exact hs.distinct
  reachable := by
    rw [hvisited]
    exact hs.reachable
  nodes := by rw [hnodes, hmet, hs.nodes]
  apart := hmet ▸ hs.apart
  known := by
    intro block f
    rw [hmet, hs.known, hasVisited, hasVisited, hvisited]

/-- A new node goes to the worklist and to the nodes visited. -/
theorem push (hs : run.Stocked plan h) (hblock : plan.Reachable node.point.block)
    (hnew : run.hasVisited node.point.block node.state.fingerprint = false)
    (hmet : h'.taken ++ run'.worklist.toList = h.taken ++ run.worklist.toList ++ [node])
    (hvisited : run'.visited = run.visited.insert node.point.block
      (node.state.fingerprint :: (run.visited.get? node.point.block).getD []))
    (hnodes : run'.statistics.nodes = run.statistics.nodes + 1)
    (hperBlock : run'.statistics.nodesPerBlock = run.statistics.nodesPerBlock.insert
      node.point.block (run.statistics.nodesIn node.point.block + 1))
    (hknown : ∀ b f, run'.hasVisited b f = true ↔
      (b = node.point.block ∧ f = node.state.fingerprint) ∨ run.hasVisited b f = true) :
    run'.Stocked plan h' where
  perBlock := by
    rw [hperBlock, hvisited, SortedMap.mapValues_insert, Statistics.nodesIn, hs.perBlock,
      SortedMap.get?_mapValues]
    cases run.visited.get? node.point.block <;> rfl
  distinct := by
    intro b states hget
    rw [hvisited, SortedMap.get?_insert_eq] at hget
    split at hget
    · obtain rfl := Option.some.inj hget
      rw [hasVisited] at hnew
      cases hstates : run.visited.get? node.point.block with
      | none => exact List.nodup_singleton _
      | some states =>
        rw [hstates] at hnew
        exact List.nodup_cons.2 ⟨by simpa using hnew, hs.distinct hstates⟩
    · exact hs.distinct hget
  reachable := by
    intro b states hget
    rw [hvisited, SortedMap.get?_insert_eq] at hget
    split at hget
    · next heq => exact heq ▸ hblock
    · exact hs.reachable hget
  nodes := by simp [hnodes, hmet, hs.nodes, Nat.add_assoc]
  apart := by
    have hfresh : node.key ∉ (h.taken ++ run.worklist.toList).map Node.key := by
      intro hmem
      rw [(hs.known _ _).1 hmem] at hnew
      cases hnew
    rw [hmet, List.map_append]
    exact List.concat_eq_append ▸ hs.apart.concat hfresh
  known := by
    intro b f
    rw [hmet, List.map_append, List.mem_append, hs.known, hknown, or_comm]
    simp [Node.key]

/-- An arrival adds its node, or the node is known. -/
theorem enter (hs : run.Stocked plan h) {block : Nat} (hblock : plan.Reachable block) (s : State) :
    (run.enter plan block s).Stocked plan (h.enter block) := by
  rcases enter_counts plan run block s with
    ⟨hold, hvisited, hnodes, hperBlock, -⟩ | ⟨hnew, hvisited, hnodes, hperBlock, -⟩ <;>
    rcases enter_cases plan run block s with ⟨hold', hlist, -⟩ | ⟨hnew', hlist, hknown⟩
  · exact hs.still (by rw [hlist]; rfl) hvisited hnodes hperBlock
  · simp [hold] at hnew'
  · simp [hnew] at hold'
  · have hmet : (h.enter block).taken ++ (run.enter plan block s).worklist.toList =
        h.taken ++ run.worklist.toList ++ [run.arriving plan block s] := by
      rw [hlist, List.append_assoc]
      rfl
    exact hs.push hblock hnew hmet hvisited hnodes hperBlock hknown

end Stocked

namespace Tallied

variable {headers : Finset Nat} {run run' : Run} {h h' : History} {block : Nat}

theorem start (plan : Plan) (headers : Finset Nat) {run : Run} (hvisited : run.visited = .empty)
    (hlist : run.worklist.toList = []) (hvisits : run.headerVisits = .empty)
    (hstatistics : run.statistics = .zero) : run.Tallied plan headers .start where
  perBlock := by
    rw [hstatistics, hvisited]
    rfl
  distinct := by simp [hvisited]
  reachable := by simp [hvisited]
  nodes := by simp [hstatistics, hlist, History.start, Statistics.zero]
  apart := by simp [hlist, History.start]
  known := by simp [hlist, hasVisited, hvisited, History.start]
  arrivals := by simp [hstatistics, History.start, Statistics.zero]
  visits := by simp [nextVisit, hvisits, History.start]
  widenings := by simp [hstatistics, History.start, Statistics.zero]

/-- Nothing changes while no block is entered. -/
theorem still (ht : run.Tallied plan headers h)
    (hmet : h'.taken ++ run'.worklist.toList = h.taken ++ run.worklist.toList)
    (hentered : h'.entered = h.entered) (hvisited : run'.visited = run.visited)
    (hvisits : run'.headerVisits = run.headerVisits)
    (hnodes : run'.statistics.nodes = run.statistics.nodes)
    (hperBlock : run'.statistics.nodesPerBlock = run.statistics.nodesPerBlock)
    (hduplicates : run'.statistics.deduplicated = run.statistics.deduplicated)
    (hwidenings : run'.statistics.widenings = run.statistics.widenings) :
    run'.Tallied plan headers h' where
  toStocked := ht.toStocked.still hmet hvisited hnodes hperBlock
  arrivals := by rw [hentered, hnodes, hduplicates, ht.arrivals]
  visits := by
    intro header hheader
    rw [hentered, nextVisit, hvisits]
    exact ht.visits header hheader
  widenings := by rw [hwidenings, hentered, ht.widenings]

/-- An arrival is one more node or one more duplicate. -/
theorem arrivals_enter (ht : run.Tallied plan headers h) (block : Nat) (s : State) :
    (h.enter block).entered.length = (run.enter plan block s).statistics.nodes +
      (run.enter plan block s).statistics.deduplicated := by
  have harrivals := ht.arrivals
  rw [History.enter, List.length_append, List.length_singleton]
  rcases enter_counts plan run block s with
    ⟨-, -, hnodes, -, hduplicates⟩ | ⟨-, -, hnodes, -, hduplicates⟩ <;> omega

/-- An arrival at a loop header is one more visit. -/
theorem visits_enter (ht : run.Tallied plan headers h)
    (hheaders : ∀ header ∈ headers, plan.assigned.contains header = true) (block : Nat)
    (s : State) :
    ∀ header ∈ headers, (run.enter plan block s).nextVisit header =
      (h.enter block).entered.count header + 1 := by
  intro header hheader
  rw [nextVisit_enter, ht.visits header hheader, History.enter, List.count_append]
  by_cases hblock : header = block
  · subst hblock
    simp [hheaders header hheader]
  · have hne : (block == header) = false := by simpa using fun h => hblock h.symm
    simp [hblock, List.count_singleton, hne]

/-- An arrival beyond the limit is one more widening. -/
theorem widenings_enter (ht : run.Tallied plan headers h)
    (hheaders : ∀ header, header ∈ headers ↔ plan.assigned.contains header = true) (block : Nat)
    (s : State) :
    (run.enter plan block s).statistics.widenings = ∑ header ∈ headers,
      ((h.enter block).entered.count header - plan.settings.loopVisitLimit) := by
  have hterm : ∀ header ∈ headers,
      (h.enter block).entered.count header - plan.settings.loopVisitLimit =
        (h.entered.count header - plan.settings.loopVisitLimit) +
          if header = block then if Widens plan run block then 1 else 0 else 0 := by
    intro header hheader
    rw [History.enter, List.count_append, List.count_singleton]
    by_cases hblock : header = block
    · subst hblock
      have hvisit := ht.visits header hheader
      simp only [beq_self_eq_true, if_true, Widens, (hheaders header).1 hheader, true_and, hvisit]
      split <;> omega
    · have hne : (block == header) = false := by simpa using fun h => hblock h.symm
      simp [hblock, hne]
  rw [Run.widenings_enter, ht.widenings, Finset.sum_congr rfl hterm, Finset.sum_add_distrib,
    Finset.sum_ite_eq']
  congr 1
  by_cases hblock : block ∈ headers
  · rw [if_pos hblock]
  · have hnot : ¬Widens plan run block := fun hwidens => hblock ((hheaders block).2 hwidens.1)
    rw [if_neg hblock, if_neg hnot]

/-- An arrival is counted on both sides. -/
theorem enter (ht : run.Tallied plan headers h)
    (hheaders : ∀ header, header ∈ headers ↔ plan.assigned.contains header = true)
    (hblock : plan.Reachable block) (s : State) :
    (run.enter plan block s).Tallied plan headers (h.enter block) where
  toStocked := ht.toStocked.enter hblock s
  arrivals := ht.arrivals_enter block s
  visits := ht.visits_enter (fun header => (hheaders header).1) block s
  widenings := ht.widenings_enter hheaders block s

/-- An instruction counts nothing but its step. -/
theorem step (ht : run.Tallied plan headers h) {point : Point} {i : Instruction} {s : State}
    {o : Option State} (hstep : (run.count .countStep).step plan point i s = (o, run')) :
    run'.Tallied plan headers h := by
  obtain ⟨hlist, hvisited, hvisits, hstatistics⟩ := step_fields hstep
  refine ht.still (by rw [hlist]; rfl) rfl hvisited hvisits ?_ ?_ ?_ ?_ <;>
    rw [hstatistics] <;> rfl

/-- Every move keeps the counters and the history in agreement. -/
theorem move (hheaders : ∀ header, header ∈ headers ↔ plan.assigned.contains header = true)
    (hplaced : x.Placed plan) (ht : x.run.Tallied plan headers h) (hmove : Move plan x y) :
    y.run.Tallied plan headers (h.advance x) := by
  cases hmove with
  | @take run node rest hcancelled hpop =>
    have hlist := Queue.toList_of_pop? hpop
    have hadvance : h.advance ⟨run, .idle⟩ = h.process node := by simp [History.advance, hpop]
    rw [hadvance]
    refine ht.still ?_ rfl rfl rfl rfl rfl rfl rfl
    simp [History.process, History.take, Situation.exploring, taking, hlist]
  | finish | settle => exact ht
  | prune _ hprune => exact (ht.step hprune).still rfl rfl rfl rfl rfl rfl rfl rfl
  | raise _ hraise _ => exact ht.step hraise
  | proceed _ hproceed _ => exact ht.step hproceed
  | @depart run d rest =>
    cases d with
    | blocked => exact ht.still rfl rfl rfl rfl rfl rfl rfl rfl
    | into block s => exact ht.enter hheaders (hplaced.stage block s List.mem_cons_self) s

end Tallied

end Run

/-- While an exploration is going on, the counters agree with the history. -/
theorem Recorded.tallied {headers : Finset Nat}
    (hheaders : ∀ header, header ∈ headers ↔ plan.assigned.contains header = true)
    (hx : Recorded plan checks x h) : x.run.Tallied plan headers h := by
  induction hx with
  | enter => exact .start plan headers rfl rfl rfl rfl
  | move hx hmove ih => exact ih.move hheaders hx.reached.placed hmove

theorem History.processed_advance (x : Situation) {h : History} (heq : h.processed = h.taken) :
    (h.advance x).processed = (h.advance x).taken := by
  unfold advance
  split
  · cases x.run.worklist.pop? with
    | none => exact heq
    | some next => exact congrArg (· ++ [next.1]) heq
  · exact heq
  · exact heq

/-- While an exploration is going on, every node taken is explored. -/
theorem Recorded.processed_eq (hx : Recorded plan checks x h) : h.processed = h.taken := by
  induction hx with
  | enter => rfl
  | move _ _ ih => exact History.processed_advance _ ih

namespace Observed

variable {status : Option Status} {run : Run}

/-- At every point of an exploration the counters agree with the history. -/
theorem tallied {headers : Finset Nat}
    (hheaders : ∀ header, header ∈ headers ↔ plan.assigned.contains header = true)
    (ho : Observed plan checks status run h) : run.Tallied plan headers h := by
  cases ho with
  | going hx | completed hx _ => exact hx.tallied hheaders
  | cancelled hx hpop _ =>
    refine (hx.tallied hheaders).still ?_ rfl rfl rfl rfl rfl rfl rfl
    simp [History.take, Run.taking, Queue.toList_of_pop? hpop]
  | exceeded hx _ => exact (hx.tallied hheaders).still rfl rfl rfl rfl rfl rfl rfl rfl

/-- Nodes are explored in the order in which they are taken, all but one that is taken when the run
has been asked to end. -/
theorem processed_prefix (ho : Observed plan checks status run h) : h.processed <+: h.taken := by
  cases ho with
  | going hx | completed hx _ | exceeded hx _ => exact hx.processed_eq ▸ List.prefix_refl _
  | cancelled hx _ _ => exact hx.processed_eq ▸ List.prefix_append _ _

/-- A completed exploration has taken and explored every node. -/
theorem length_processed (ho : Observed plan checks (some .completed) run h) :
    h.processed.length = (h.taken ++ run.worklist.toList).length := by
  cases ho with
  | completed hx hpop =>
    rw [hx.processed_eq, Queue.toList_eq_nil_of_pop? hpop, List.append_nil]

theorem steps_le (ho : Observed plan checks status run h) :
    run.statistics.steps ≤ plan.settings.maxSteps + 1 := by
  cases ho with
  | going hx | completed hx _ | cancelled hx _ _ => exact Nat.le_succ_of_le hx.reached.steps_le
  | exceeded hx _ => exact Nat.succ_le_succ hx.reached.steps_le

end Observed

/-! ## The account -/

/-- The counters of a run account for what happened in it. -/
structure Accounted (p : Procedure) (settings : Settings) (loops : List Loop)
    (status : Option Status) (run : Run) (h : History) : Prop where
  /-- The nodes counted are those visited. -/
  nodes : run.statistics.nodes = run.visitedNodes.length
  /-- No node is visited twice. -/
  distinct : run.visitedNodes.Nodup
  /-- The nodes counted at the blocks are all nodes. -/
  sum : run.statistics.nodes = run.statistics.nodesPerBlock.values.sum
  /-- Nodes are counted only at blocks to which edges lead from the entry. -/
  reachable : ∀ block ∈ run.statistics.nodesPerBlock.keys,
    ∃ entry, p.flow.entry = some entry ∧ p.flow.graph.Reaches entry block
  /-- An arrival is counted as a node or as a duplicate. -/
  arrivals : h.entered.length = run.statistics.nodes + run.statistics.deduplicated
  /-- The arrivals at loop headers beyond the limit are the widenings. -/
  widenings : run.statistics.widenings =
    ∑ header ∈ (loops.map Loop.header).toFinset,
      (h.entered.count header - settings.loopVisitLimit)
  /-- A node visited either waits or was taken. -/
  whereabouts : run.visitedNodes.Perm ((h.taken ++ run.worklist.toList).map Node.key)
  /-- No node is explored twice. -/
  once : (h.processed.map Node.key).Nodup
  /-- When the exploration is completed, all nodes have been explored. -/
  completed : status = some .completed → h.processed.length = run.statistics.nodes
  /-- There is at most one step more than allowed. -/
  steps : run.statistics.steps ≤ settings.maxSteps + 1

namespace Plan

variable {p : Procedure} {x : Setting} {settings : Settings} {polls : Option Polls} {plan : Plan}

/-- The headers of a plan are those of the loops. -/
theorem Prepared.mem_headers_iff (hplan : plan.Prepared p x settings polls) {loops : List Loop}
    (hloops : p.flow.loops = .ok loops) (header : Nat) :
    header ∈ (loops.map Loop.header).toFinset ↔ plan.assigned.contains header = true := by
  rw [List.mem_toFinset, List.mem_map]
  constructor
  · intro hheader
    exact (hplan.exists_assignedAt hloops hheader).1
  · intro hcontains
    obtain ⟨symbols, hget⟩ := SortedMap.contains_iff.1 hcontains
    obtain ⟨loops', hloops', l, hl, hheader, -⟩ := hplan.assigned_get? hget
    obtain rfl := Except.ok.inj (hloops.symm.trans hloops')
    exact ⟨l, hl, hheader⟩

end Plan

/-- At every point of an exploration and however it ends, the counters account for what happened:
the nodes are those visited, block by block, at blocks to which edges lead from the entry; each
arrival is a node or a duplicate; the widenings are the arrivals at loop headers beyond the limit;
no node is explored twice, and every node visited waits or was taken; a completed exploration has
explored all nodes; and there is at most one step more than allowed. -/
theorem statistics_account_for_transitions {p : Procedure} {x : Setting} {settings : Settings}
    {polls : Option Polls} {plan : Plan} (hplan : Plan.prepare p x settings polls = .ok plan)
    (hbuilt : p.flow.Built) (checks : List Check) :
    ∃ loops, p.flow.loops = .ok loops ∧
      (∀ y, Reached plan checks y → ∃ h, Observed plan checks none y.run h) ∧
      (∃ h, Observed plan checks (some ((Run.start checks).explore plan).1)
        ((Run.start checks).explore plan).2 h) ∧
      ∀ status run h, Observed plan checks status run h →
        Accounted p settings loops status run h := by
  have hprepared := Plan.prepared hplan
  obtain ⟨loops, hloops, -⟩ := hprepared.assigned
  obtain ⟨y, hy, hend⟩ := Concludes.exists_reached hprepared hbuilt checks
  refine ⟨loops, hloops, fun y hy => ?_, hend.exists_observed hy, fun status run h ho => ?_⟩
  · obtain ⟨h, hrecorded⟩ := hy.exists_recorded
    exact ⟨h, .going hrecorded⟩
  have ht := ho.tallied (hprepared.mem_headers_iff hloops)
  have hdistinct := Run.visitedNodes_nodup ht.distinct
  have hperm : run.visitedNodes.Perm ((h.taken ++ run.worklist.toList).map Node.key) := by
    refine (List.perm_ext_iff_of_nodup hdistinct ht.apart).2 fun key => ?_
    exact Run.mem_visitedNodes.trans (ht.known key.1 key.2).symm
  have hnodes : run.statistics.nodes = run.visitedNodes.length := by
    rw [ht.nodes, hperm.length_eq, List.length_map]
  refine ⟨hnodes, hdistinct, ?_, fun block hblock => ?_, ht.arrivals, ?_, hperm, ?_, ?_, ?_⟩
  · rw [hnodes, Run.length_visitedNodes, ht.perBlock]
  · obtain ⟨n, hn⟩ := SortedMap.mem_keys.1 hblock
    rw [ht.perBlock, SortedMap.get?_mapValues] at hn
    obtain ⟨states, hstates, -⟩ := Option.map_eq_some_iff.1 hn
    exact ⟨plan.entry, hprepared.entry, hprepared.reaches hbuilt (ht.reachable hstates)⟩
  · rw [ht.widenings, hprepared.settings]
  · have hkeys := ht.apart
    rw [List.map_append] at hkeys
    exact (List.nodup_append.1 hkeys).1.sublist (ho.processed_prefix.sublist.map _)
  · rintro rfl
    rw [ht.nodes, ho.length_processed]
  · exact hprepared.settings ▸ ho.steps_le

open AskedAgain in
/-- The loop of the sample is entered three times with a limit of one: the counters tell of five
arrivals, of which one was a duplicate, and of the four nodes that were explored. -/
theorem statistics_account_for_transitions_askedAgain :
    sample.procedure.flow.Built ∧
      ∃ h, Observed sample.plan sample.checks (some .completed)
          ((Run.start sample.checks).explore sample.plan).2 h ∧
        h.entered.length = 5 ∧ h.entered.count 1 = 3 ∧ h.processed.length = 4 := by
  have hend : ((Run.start sample.checks).explore sample.plan).1 = .completed ∧
      ((Run.start sample.checks).explore sample.plan).2.statistics.nodes = 4 ∧
      ((Run.start sample.checks).explore sample.plan).2.statistics.deduplicated = 1 ∧
      ((Run.start sample.checks).explore sample.plan).2.statistics.widenings = 2 := by
    decide +kernel
  have hheaders : sample.procedure.flow.loops.toOption.map (·.map Loop.header) = some [1] := by
    decide +kernel
  obtain ⟨hstatus, hnodes, hduplicates, hwidenings⟩ := hend
  obtain ⟨loops, hloops, -, ⟨h, ho⟩, hall⟩ := statistics_account_for_transitions
    (Sample.prepare_eq (x := sample) (by decide +kernel)) sample.built sample.checks
  have haccounted := hall _ _ h ho
  rw [hstatus] at ho haccounted
  have hheader : loops.map Loop.header = [1] := by
    rw [hloops] at hheaders
    exact Option.some.inj hheaders
  have hcount : 2 = h.entered.count 1 - 1 := by
    have hsum := haccounted.widenings
    rw [hheader, hwidenings] at hsum
    exact hsum
  refine ⟨sample.built, h, ho, ?_, ?_, ?_⟩
  · rw [haccounted.arrivals, hnodes, hduplicates]
  · omega
  · rw [haccounted.completed rfl, hnodes]

end Pathwise
