import Mathlib.Order.WellFounded
import Pathwise.Proofs.Budget
import Pathwise.Proofs.Sample
import Pathwise.Proofs.Threads

/-!
# Every exploration comes to an end

If a run could take turns without end, each node would still be taken after finitely many turns,
since the worklist is a queue. Every node but the first is added by the turn of an earlier one, and
a turn adds finitely many, so some nodes would form an endless thread. There is none, and therefore
the exploration of a balanced procedure is completed if it may take enough steps.
-/

namespace Pathwise

/-! ## Chains of numbers -/

/-- A number stands behind another one, whose part of all numbers ends where that of the next one
begins. -/
def Behind (ends : Nat → Nat) (j k : Nat) : Prop := ends k ≤ j ∧ j < ends (k + 1)

namespace Behind

variable {ends : Nat → Nat}

/-- Finitely many numbers are behind a number without endless chains behind it. -/
theorem finite_of_acc {k : Nat} (hk : Acc (Behind ends) k) :
    {j | Relation.ReflTransGen (fun k j => Behind ends j k) k j}.Finite := by
  induction hk with
  | intro k _ ih =>
    have hnext : {j | Behind ends j k}.Finite :=
      (Set.finite_lt_nat (ends (k + 1))).subset fun j hj => hj.2
    refine ((Set.finite_singleton k).union (hnext.biUnion ih)).subset fun j hj => ?_
    rcases Relation.ReflTransGen.cases_head hj with rfl | ⟨k', hk', hj⟩
    · exact .inl rfl
    · exact .inr (Set.mem_biUnion hk' hj)

/-- All numbers are behind zero. -/
theorem of_zero (hstart : ends 0 = 1) (hlt : ∀ k, k < ends k) (j : Nat) :
    Relation.ReflTransGen (fun k j => Behind ends j k) 0 j := by
  induction j using Nat.strong_induction_on with
  | _ j ih =>
    rcases Nat.eq_zero_or_pos j with rfl | hpos
    · exact .refl
    · have hexists : ∃ k, j < ends k := ⟨j, hlt j⟩
      have hfind := Nat.find_spec hexists
      cases hk : Nat.find hexists with
      | zero =>
        rw [hk, hstart] at hfind
        omega
      | succ k =>
        have hbefore : ends k ≤ j := Nat.le_of_not_lt (Nat.find_min hexists (by omega))
        exact .tail (ih k (Nat.lt_of_lt_of_le (hlt k) hbefore)) ⟨hbefore, hk ▸ hfind⟩

/-- There is an endless chain from zero. -/
theorem exists_chain (hstart : ends 0 = 1) (hlt : ∀ k, k < ends k) :
    ∃ f : Nat → Nat, f 0 = 0 ∧ ∀ i, Behind ends (f (i + 1)) (f i) := by
  by_contra hnone
  have hacc : Acc (Behind ends) 0 := by
    by_contra hnot
    exact hnone (not_acc_iff_exists_descending_chain.1 hnot)
  exact Set.infinite_univ ((finite_of_acc hacc).subset fun j _ => of_zero hstart hlt j)

end Behind

/-! ## Endless turns -/

section Turns

variable {p : Procedure} {x : Setting} {settings : Settings} {polls : Option Polls} {plan : Plan}

/-- The values of a run come from a ledger, and its nodes are settled. -/
structure Run.Ready (run : Run) (l : List Value) : Prop where
  /-- The values come from the ledger. -/
  drawn : Situation.Drawn ⟨run, .idle⟩ l
  /-- The nodes are settled. -/
  settled : ∀ n ∈ run.worklist.toList, n.Settled

theorem Plan.Prepared.within (h : plan.Prepared p x settings polls) (m : Nat) :
    (plan.within m).Prepared p x { settings with maxSteps := m } polls :=
  ⟨h.valid, h.procedure, h.entry, h.setting, by rw [Plan.within, h.settings], h.polls, h.assigned⟩

/-- The bound on the steps plays no part in what a turn has added. -/
theorem Working.of_within {m : Nat} {run run' : Run} {node : Node} {new : List Node}
    (h : Working (plan.within m) run node ⟨run', .idle⟩ new) :
    Working plan run node ⟨run', .idle⟩ new where
  worklist := h.worklist
  visited := h.visited
  visits := h.visits
  settled := h.settled
  hop := fun n hn =>
    ⟨(h.hop n hn).edge, (h.hop n hn).kept, (h.hop n hn).named, (h.hop n hn).widened⟩
  fresh := h.fresh
  met := h.met
  counted := h.counted
  stage := trivial

/-- A turn works on the first node and leaves a run that is ready for the next one. -/
theorem Run.Ready.turns {run run' : Run} {l : List Value} (h : run.Ready l)
    (hbuilt : p.flow.Built) (hbalanced : p.flow.Balanced)
    (hplan : plan.Prepared p x settings polls) (hturns : run.Turns plan run') :
    (∃ l', l <+: l' ∧ run'.Ready l') ∧
      ∃ node rest new, run.worklist.toList = node :: rest.toList ∧
        Working plan (run.taking rest) node ⟨run', .idle⟩ new := by
  obtain ⟨enough, hturn⟩ := hturns
  have hturn := hturn enough (Nat.le_refl enough)
  obtain ⟨node, rest, new, hlist, hworking⟩ :=
    turn_working hbuilt hbalanced (hplan.within enough) h.drawn h.settled hturn
  obtain ⟨l', hprefix, hdrawn⟩ := h.drawn.leads (Leads.turn hturn)
  refine ⟨⟨l', hprefix, hdrawn, fun n hn => ?_⟩, node, rest, new, hlist, hworking.of_within⟩
  rw [hworking.worklist] at hn
  rcases List.mem_append.1 hn with hn | hn
  · exact h.settled n (hlist ▸ List.mem_cons_of_mem _ hn)
  · exact hworking.settled n hn

/-- A sequence of turns without end, with the node that each takes, the nodes that it adds, and the
ledger before it. -/
structure Endless (plan : Plan) (run : Nat → Run) (node : Nat → Node) (new : Nat → List Node)
    (l : Nat → List Value) : Prop where
  /-- There is one node at the start. -/
  start : (run 0).worklist.toList = [node 0]
  /-- It is at the entry. -/
  entry : (node 0).point.block = plan.entry
  /-- Every run is ready. -/
  ready : ∀ k, (run k).Ready (l k)
  /-- The ledger grows. -/
  grows : ∀ k, l k <+: l (k + 1)
  /-- Each turn works on the first node. -/
  turn : ∀ k, ∃ rest, (run k).worklist.toList = node k :: rest.toList ∧
    Working plan ((run k).taking rest) (node k) ⟨run (k + 1), .idle⟩ (new k)

namespace Endless

variable {run : Nat → Run} {node : Nat → Node} {new : Nat → List Node} {l : Nat → List Value}
variable {j k : Nat}

/-- How many nodes have been added before a turn. -/
def ends (new : Nat → List Node) : Nat → Nat
  | 0 => 1
  | k + 1 => ends new k + (new k).length

theorem ledger_prefix (h : Endless plan run node new l) (hjk : j ≤ k) : l j <+: l k := by
  induction k, hjk using Nat.le_induction with
  | base => exact List.prefix_refl _
  | succ k _ ih => exact ih.trans (h.grows k)

theorem mem_ledger (h : Endless plan run node new l) (hjk : j ≤ k) {y : Symbol} {v : Value}
    (hv : (node j).state.lookup y = some v) : v ∈ l k := by
  obtain ⟨rest, hlist, -⟩ := h.turn j
  have hdrawn := (h.ready j).drawn.worklist (node j) (hlist ▸ List.mem_cons_self)
  exact (h.ledger_prefix hjk).subset (hdrawn.lookup_mem hv)

theorem hasVisited_of_le (h : Endless plan run node new l) (hjk : j ≤ k) {b : Nat} {f : Fingerprint}
    (hf : (run j).hasVisited b f = true) : (run k).hasVisited b f = true := by
  induction k, hjk using Nat.le_induction with
  | base => exact hf
  | succ k _ ih =>
    obtain ⟨rest, -, hworking⟩ := h.turn k
    exact hworking.visited ih

theorem nextVisit_le (h : Endless plan run node new l) (hjk : j ≤ k) (b : Nat) :
    (run j).nextVisit b ≤ (run k).nextVisit b := by
  induction k, hjk using Nat.le_induction with
  | base => exact Nat.le_refl _
  | succ k _ ih =>
    obtain ⟨rest, -, hworking⟩ := h.turn k
    exact ih.trans (hworking.visits b)

/-- A node on the worklist is taken when those before it have been. -/
theorem node_eq (h : Endless plan run node new l) {n : Node}
    (hn : (run k).worklist.toList[j]? = some n) : node (k + j) = n := by
  obtain ⟨rest, hlist, hworking⟩ := h.turn k
  induction j generalizing k rest with
  | zero =>
    rw [hlist] at hn
    exact Option.some.inj hn
  | succ j ih =>
    rw [hlist, List.getElem?_cons_succ] at hn
    obtain ⟨rest', hlist', hworking'⟩ := h.turn (k + 1)
    have hnext : (run (k + 1)).worklist.toList[j]? = some n := by
      rw [hworking.worklist]
      exact List.getElem?_append_left (List.getElem?_eq_some_iff.1 hn).1 ▸ hn
    rw [← ih hnext rest' hlist' hworking', Nat.add_right_comm]
    rfl

/-- The nodes on the worklist are those that have been added and not taken. -/
theorem length_worklist (h : Endless plan run node new l) (k : Nat) :
    (run k).worklist.toList.length + k = ends new k := by
  induction k with
  | zero =>
    rw [h.start]
    rfl
  | succ k ih =>
    obtain ⟨rest, hlist, hworking⟩ := h.turn k
    rw [hlist, List.length_cons] at ih
    rw [hworking.worklist, List.length_append, ends, ← ih]
    show rest.toList.length + _ + _ = _
    omega

theorem lt_ends (h : Endless plan run node new l) (k : Nat) : k < ends new k := by
  obtain ⟨rest, hlist, -⟩ := h.turn k
  have hlength := h.length_worklist k
  rw [hlist, List.length_cons] at hlength
  omega

/-- The nodes behind a number are those that its turn adds. -/
theorem mem_new (h : Endless plan run node new l) (hjk : Behind (ends new) j k) :
    node j ∈ new k := by
  obtain ⟨hle, hlt⟩ := hjk
  obtain ⟨rest, hlist, hworking⟩ := h.turn k
  have hlength := h.length_worklist k
  rw [hlist, List.length_cons] at hlength
  rw [ends] at hlt
  obtain ⟨n, hn⟩ : ∃ n, (new k)[j - ends new k]? = some n :=
    ⟨_, List.getElem?_eq_getElem (by omega)⟩
  have hplace : (run (k + 1)).worklist.toList[j - (k + 1)]? = some n := by
    rw [hworking.worklist, List.getElem?_append_right (by show rest.toList.length ≤ _; omega), ← hn]
    congr 1
    show _ - rest.toList.length = _
    omega
  have hnode := h.node_eq hplace
  rw [Nat.add_sub_cancel' (by omega)] at hnode
  rw [hnode]
  exact List.mem_of_getElem? hn

/-- Endless turns have an endless thread. -/
theorem exists_thread (h : Endless plan run node new l) : ∃ n, Thread plan n := by
  have hstart : ends new 0 = 1 := rfl
  obtain ⟨f, hzero, hbehind⟩ := Behind.exists_chain hstart h.lt_ends
  have hnew : ∀ i, node (f (i + 1)) ∈ new (f i) := fun i => h.mem_new (hbehind i)
  have hstep : ∀ i, f i < f (i + 1) := fun i => (h.lt_ends (f i)).trans_le (hbehind i).1
  have hless : ∀ {i j}, i < j → f i + 1 ≤ f j := fun hij => strictMono_nat_of_lt_succ hstep hij
  refine ⟨fun i => node (f i), {
    entry := by rw [hzero, h.entry]
    settled := fun i => ?_
    hop := fun i => ?_
    distinct := fun {i j} hij hblock hstate => ?_
    visits := fun {i j} hij hblock hheader => ?_
    canonical := fun {i j id id' header y} hi hj => ?_ }⟩
  · obtain ⟨rest, hlist, -⟩ := h.turn (f i)
    exact (h.ready (f i)).settled _ (hlist ▸ List.mem_cons_self)
  · obtain ⟨rest, -, hworking⟩ := h.turn (f i)
    exact hworking.hop _ (hnew i)
  · obtain ⟨_, -, hearlier⟩ := h.turn (f i)
    obtain ⟨_, -, hlater⟩ := h.turn (f j)
    have hmet := h.hasVisited_of_le (hless hij) (hearlier.met _ (hnew i))
    rw [hblock, hstate] at hmet
    exact Bool.false_ne_true ((hlater.fresh _ (hnew j)).symm.trans hmet)
  · obtain ⟨_, -, hearlier⟩ := h.turn (f i)
    obtain ⟨_, -, hlater⟩ := h.turn (f j)
    calc (node (f (i + 1))).point.visits
        < (run (f i + 1)).nextVisit _ := (hearlier.counted _ (hnew i) hheader).2
      _ ≤ (run (f j)).nextVisit _ := h.nextVisit_le (hless hij) _
      _ ≤ (node (f (j + 1))).point.visits := by
        rw [hblock]
        exact (hlater.counted _ (hnew j) (hblock ▸ hheader)).1
  · -- both values stand in the ledger before the later turn, whose supply knows one of them
    have htracks := (h.ready (max (f i) (f j))).drawn.tracks
    have hi := htracks.canonical_eq (h.mem_ledger (Nat.le_max_left _ _) hi)
    have hj := htracks.canonical_eq (h.mem_ledger (Nat.le_max_right _ _) hj)
    simpa using hi.symm.trans hj

end Endless

namespace Run

variable {checks : List Check}

/-- An exploration starts with one settled node at the entry. -/
theorem begin_ready (plan : Plan) (hchecks : ∀ c ∈ checks, c.Standard) :
    (∃ l, ((start checks).begin plan).Ready l) ∧
      ∃ node, ((start checks).begin plan).worklist.toList = [node] ∧
        node.point.block = plan.entry := by
  obtain ⟨l, hentering⟩ := Situation.entering_drawn plan hchecks
  have hs := hentering.stage _ (List.mem_append_left _ List.mem_cons_self)
  obtain ⟨hstack, -⟩ := bindParameters_bare plan.procedure.parameters
  have hsettled :=
    arriving_settled plan plan.entry hentering.ledger hentering.tracks hs hstack
  have hlist : ((start checks).begin plan).worklist.toList =
      [(Situation.entering plan (start checks)).run.arriving plan plan.entry
        (bindParameters plan.procedure.parameters .start).1] := by
    rcases enter_cases plan (Situation.entering plan (start checks)).run plan.entry
      (bindParameters plan.procedure.parameters .start).1 with ⟨hvisited, -, -⟩ | ⟨-, hlist, -⟩
    · simp [hasVisited, Situation.entering, start] at hvisited
    · exact hlist
  obtain ⟨l', -, hdrawn⟩ := hentering.leads (Works.leaving plan _ _).leads
  refine ⟨⟨l', hdrawn, fun n hn => ?_⟩, _, hlist, rfl⟩
  obtain rfl := List.mem_singleton.1 (hlist ▸ hn)
  exact hsettled

/-- Turns without end from the start of an exploration. -/
theorem exists_endless (hbuilt : p.flow.Built) (hbalanced : p.flow.Balanced)
    (hplan : plan.Prepared p x settings polls) (hchecks : ∀ c ∈ checks, c.Standard)
    {run : Nat → Run} (hstart : run 0 = (start checks).begin plan)
    (hturns : ∀ k, (run k).Turns plan (run (k + 1))) :
    ∃ node new l, Endless plan run node new l := by
  obtain ⟨⟨l₀, hready⟩, first, hfirst, hentry⟩ := begin_ready plan hchecks
  rw [← hstart] at hready hfirst
  have hnext : ∀ k (l : { l // (run k).Ready l }), ∃ l' : { l // (run (k + 1)).Ready l },
      l.1 <+: l'.1 := by
    intro k l
    obtain ⟨⟨l', hprefix, hready'⟩, -⟩ := l.2.turns hbuilt hbalanced hplan (hturns k)
    exact ⟨⟨l', hready'⟩, hprefix⟩
  choose next hprefix using hnext
  let ledger : ∀ k, { l // (run k).Ready l } := Nat.rec ⟨l₀, hready⟩ next
  choose node rest new hlist hworking using
    fun k => ((ledger k).2.turns hbuilt hbalanced hplan (hturns k)).2
  have hzero : node 0 = first := (List.cons.inj ((hlist 0).symm.trans hfirst)).1
  exact ⟨node, new, fun k => (ledger k).1, {
    start := by rw [hfirst, hzero]
    entry := by rw [hzero, hentry]
    ready := fun k => (ledger k).2
    grows := fun k => hprefix k (ledger k)
    turn := fun k => ⟨rest k, hlist k, hworking k⟩ }⟩

end Run

end Turns

/-! ## Completion -/

/-- With enough steps the exploration of a balanced procedure of admitted shape is completed,
whatever its loops are like, unless someone asks to end it. -/
theorem exploration_finite {p : Procedure} (hbuilt : p.flow.Built) (hvalid : p.validate = .ok ())
    (hbalanced : p.flow.Balanced) (x : Setting) (settings : Settings) {polls : Option Polls}
    (hpolls : ∀ ask ∈ polls, ∀ k, ask k = false) {checks : List Check}
    (hchecks : ∀ c ∈ checks, c.Standard) :
    ∃ enough, ∀ maxSteps, enough ≤ maxSteps → ∃ plan,
      Plan.prepare p x { settings with maxSteps } polls = .ok plan ∧
        ((Run.start checks).explore plan).1 = .completed := by
  obtain ⟨plan, hprepare, hwithin⟩ := Plan.exists_prepare hbuilt hvalid x settings polls
  have hplan := Plan.prepared hprepare
  have hacc : Acc (fun run' run => run.Turns plan run') ((Run.start checks).begin plan) := by
    by_contra hnot
    obtain ⟨run, hstart, hturns⟩ := not_acc_iff_exists_descending_chain.1 hnot
    obtain ⟨node, new, l, hendless⟩ :=
      Run.exists_endless hbuilt hbalanced hplan hchecks hstart hturns
    obtain ⟨n, hthread⟩ := hendless.exists_thread
    exact hthread.false hbuilt hplan
  obtain ⟨enough, hcompleted⟩ :=
    Run.explore_completed (hplan.charted hbuilt) (hplan.polls ▸ hpolls) hchecks hacc
  exact ⟨enough, fun maxSteps hm => ⟨_, hwithin maxSteps, hcompleted maxSteps hm⟩⟩

/-! ## A cycle with two entries -/

namespace TwoEntries

/-- The variable that the cycle assigns. -/
def x : Symbol := ⟨"x", .localVariable⟩

/-- What the nodes name. -/
def semantics : Semantics where
  symbol n := if n.val = 3 then some x else none
  typeOf _ := none
  method _ := none
  constant _ := none

/-- Control may enter the cycle of the blocks 1 and 2 at either of them. -/
def blocks : List Block := [
  ⟨0, [⟨⟨1⟩, .invocation [] false, none⟩]⟩,
  ⟨1, [⟨⟨2⟩, .invocation [] false, none⟩, ⟨⟨3⟩, .assign, none⟩]⟩,
  ⟨2, [⟨⟨4⟩, .invocation [] false, none⟩]⟩,
  ⟨3, []⟩]

/-- The edges between the blocks. -/
def edges : List FlowEdge :=
  [⟨0, 1, .whenTrue⟩, ⟨0, 2, .whenFalse⟩, ⟨1, 2, .jump⟩, ⟨2, 1, .whenTrue⟩, ⟨2, 3, .whenFalse⟩]

/-- The cycle is widened when it is entered for the second time. -/
def sample : Sample := ⟨[], semantics, blocks, edges, 1⟩

end TwoEntries

/-- A cycle that can be entered at two blocks is explored to the end. -/
theorem exploration_finite_twoEntries :
    ∃ enough, ∀ maxSteps, enough ≤ maxSteps → ∃ plan,
      Plan.prepare TwoEntries.sample.procedure TwoEntries.sample.setting
          { TwoEntries.sample.settings with maxSteps } none = .ok plan ∧
        ((Run.start TwoEntries.sample.checks).explore plan).1 = .completed :=
  exploration_finite TwoEntries.sample.built (by decide +kernel) (by decide +kernel) _ _ (by simp)
    fun _ => Registry.standard_enabled

end Pathwise
