import Pathwise.Proofs.Covering

/-!
# Reverse post order and retreating edges

Reverse post order lists what can be reached from the root, the root first. Where an edge does not
go forward in this order, its tail was still open when its head was left, so that the tail leads to
the head: every retreating edge closes a cycle. If there is none, every edge goes forward, and no
cycle can be reached.
-/

namespace Pathwise.Graph

variable {V L : Type} {g : Graph V L} {root u v : Nat} {order : List Nat} {retreating : List Ends}

/-- How reverse post order lists the vertices. -/
theorem Sound.order_settled (h : g.Sound) (horder : g.reversePostOrder root = .ok order) :
    order.Nodup ∧ order.head? = some root ∧ Walk.Settled g.nextOf order := by
  unfold reversePostOrder at horder
  split at horder
  · next hroot =>
    obtain rfl := Except.ok.inj horder
    have horderly := h.walk_orderly hroot
    rw [h.run_eq_visit hroot]
    exact ⟨horderly.nodup, (h.goesThrough hroot _).head?_left, horderly.settled⟩
  · cases horder

/-! ## Retreating edges -/

/-- The retreating edges are the edges between reachable vertices that do not go forward. -/
theorem Linked.mem_retreating_iff (h : g.Linked) (hsound : g.Sound)
    (horder : g.reversePostOrder root = .ok order)
    (hretreating : g.retreatingEdges root = .ok retreating) :
    ⟨u, v⟩ ∈ retreating ↔ g.hasEdge u v = true ∧ g.Connects root u ∧ g.Connects root v ∧
      order.idxOf v ≤ order.idxOf u := by
  rw [mem_retreatingEdges horder hretreating, hsound.mem_order_iff horder, h.next, h.connects_eq]
  constructor
  · rintro ⟨-, hu, hedge, hle⟩
    exact ⟨hedge, hu, .tail hu hedge, hle⟩
  · rintro ⟨hedge, hu, -, hle⟩
    exact ⟨mem_indices.2 (hsound.hasVertex_of_next hedge), hu, hedge, hle⟩

/-- The tail of a retreating edge leads to its head. -/
theorem Linked.connects_of_retreating (h : g.Linked) (hsound : g.Sound)
    (hretreating : g.retreatingEdges root = .ok retreating) (hedge : ⟨u, v⟩ ∈ retreating) :
    g.Connects v u := by
  obtain ⟨order, horder⟩ := exists_order hretreating
  obtain ⟨hnodup, -, hsettled⟩ := hsound.order_settled horder
  obtain ⟨-, hu, hnext, hle⟩ := (mem_retreatingEdges horder hretreating).1 hedge
  rw [h.connects_eq, ← leads_eq_reaches]
  exact hsettled.leads hnodup hu hnext hle

theorem nextOf_sorted (g : Graph V L) (v : Nat) : (g.nextOf v).Pairwise (· < ·) := by
  unfold nextOf
  split
  · next set _ => exact set.keys_increasing
  · exact .nil

/-- The retreating edges come by head and tail, each once. -/
theorem retreatingEdges_sorted (hretreating : g.retreatingEdges root = .ok retreating) :
    retreating.Pairwise fun a b => compare a b = .lt := by
  obtain ⟨order, horder⟩ := exists_order hretreating
  simp only [retreatingEdges, horder, bind, Except.bind, pure, Except.pure] at hretreating
  obtain rfl := Except.ok.inj hretreating
  rw [List.pairwise_flatMap]
  constructor
  · intro head _
    refine List.pairwise_map.2 (((g.nextOf_sorted head).filter _).imp fun {a b} hlt => ?_)
    simpa [compare_ends] using Nat.compare_eq_lt.2 hlt
  · refine (g.vertices.keys_increasing.filter _).imp fun {a b} hlt x hx y hy => ?_
    obtain ⟨tail, -, rfl⟩ := List.mem_map.1 hx
    obtain ⟨tail', -, rfl⟩ := List.mem_map.1 hy
    simp [compare_ends, Nat.compare_eq_lt.2 hlt]

/-! ## Cycles -/

/-- A vertex lies on a cycle if one edge or more lead from it back to it. -/
def OnCycle (g : Graph V L) (v : Nat) : Prop :=
  Relation.TransGen (fun a b => g.hasEdge a b = true) v v

/-- Without retreating edges every edge goes forward. -/
theorem Linked.lt_of_hasEdge (h : g.Linked) (hsound : g.Sound)
    (horder : g.reversePostOrder root = .ok order) (hnone : g.retreatingEdges root = .ok [])
    (hu : g.Connects root u) (hedge : g.hasEdge u v = true) : order.idxOf u < order.idxOf v := by
  by_contra hnot
  have hmem := (h.mem_retreating_iff hsound horder hnone).2
    ⟨hedge, hu, .tail hu hedge, Nat.le_of_not_lt hnot⟩
  cases hmem

/-- Without retreating edges all that lies behind a vertex comes later in order. -/
theorem Linked.lt_of_transGen (h : g.Linked) (hsound : g.Sound)
    (horder : g.reversePostOrder root = .ok order) (hnone : g.retreatingEdges root = .ok [])
    (hu : g.Connects root u) (hpath : Relation.TransGen (fun a b => g.hasEdge a b = true) u v) :
    order.idxOf u < order.idxOf v := by
  induction hpath with
  | single hedge => exact h.lt_of_hasEdge hsound horder hnone hu hedge
  | tail hpath hedge ih =>
    have hmiddle := Relation.ReflTransGen.trans hu hpath.to_reflTransGen
    exact ih.trans (h.lt_of_hasEdge hsound horder hnone hmiddle hedge)

/-- There are no retreating edges exactly if no vertex on a cycle can be reached. -/
theorem Linked.retreating_eq_nil_iff (h : g.Linked) (hsound : g.Sound)
    (hretreating : g.retreatingEdges root = .ok retreating) :
    retreating = [] ↔ ∀ v, g.Connects root v → ¬g.OnCycle v := by
  obtain ⟨order, horder⟩ := exists_order hretreating
  constructor
  · rintro rfl v hv hcycle
    exact Nat.lt_irrefl _ (h.lt_of_transGen hsound horder hretreating hv hcycle)
  · intro hfree
    rw [List.eq_nil_iff_forall_not_mem]
    rintro ⟨u, v⟩ hmem
    obtain ⟨hedge, -, hv, -⟩ := (h.mem_retreating_iff hsound horder hretreating).1 hmem
    refine hfree v hv (Relation.TransGen.tail' ?_ hedge)
    exact h.connects_of_retreating hsound hretreating hmem

/-- The reverse post order of a root has every vertex that can be reached from it once, and no
other, the root first. The retreating edges, by head and tail, are just the edges between such
vertices whose tail comes no later than their head, and each such tail leads to the head. So there
are none exactly if no cycle can be reached, and then every edge goes forward. -/
theorem retreating_edges_close_cycles [DecidableEq L] (hbuilt : g.Built)
    (hroot : g.hasVertex root = true) :
    ∃ order retreating, g.reversePostOrder root = .ok order ∧
      g.retreatingEdges root = .ok retreating ∧
      order.Nodup ∧ order.head? = some root ∧ (∀ v, v ∈ order ↔ g.Connects root v) ∧
      retreating.Pairwise (fun a b => compare a b = .lt) ∧
      (∀ u v, ⟨u, v⟩ ∈ retreating ↔ g.hasEdge u v = true ∧ g.Connects root u ∧
        g.Connects root v ∧ order.idxOf v ≤ order.idxOf u) ∧
      (∀ u v, ⟨u, v⟩ ∈ retreating → g.Connects v u) ∧
      (retreating = [] ↔ ∀ v, g.Connects root v → ¬g.OnCycle v) ∧
      (retreating = [] → ∀ u v, g.Connects root u → g.hasEdge u v = true →
        order.idxOf u < order.idxOf v) := by
  obtain ⟨hsound, hlinked⟩ := hbuilt.sound
  obtain ⟨loops, hloops⟩ := exists_loops hroot
  obtain ⟨order, retreating, horder, hretreating, -⟩ := loops_ok hloops
  obtain ⟨hnodup, hhead, -⟩ := hsound.order_settled horder
  refine ⟨order, retreating, horder, hretreating, hnodup, hhead, fun v => ?_,
    retreatingEdges_sorted hretreating,
    fun u v => hlinked.mem_retreating_iff hsound horder hretreating,
    fun u v hedge => hlinked.connects_of_retreating hsound hretreating hedge,
    hlinked.retreating_eq_nil_iff hsound hretreating, ?_⟩
  · rw [hsound.mem_order_iff horder, hlinked.connects_eq]
  · rintro rfl u v hu hedge
    exact hlinked.lt_of_hasEdge hsound horder hretreating hu hedge

/-- Of the cycle with two ways in, the vertex that is walked first gets the retreating edge, and so
does the vertex on which the other cycle hangs. -/
theorem retreating_edges_close_cycles_entangled : entangled.Built ∧
    entangled.hasVertex 0 = true ∧ entangled.reversePostOrder 0 = .ok [0, 1, 2, 3] ∧
    entangled.retreatingEdges 0 = .ok [⟨2, 1⟩, ⟨3, 2⟩] ∧
    entangled.Connects 1 2 ∧ entangled.Connects 2 3 ∧
    ¬∀ v, entangled.Connects 0 v → ¬entangled.OnCycle v := by
  have hbuilt : entangled.Built := built_ofEnds _ _
  have hroot : entangled.hasVertex 0 = true := by decide
  have horder : entangled.reversePostOrder 0 = .ok [0, 1, 2, 3] := by decide
  have hretreating : entangled.retreatingEdges 0 = .ok [⟨2, 1⟩, ⟨3, 2⟩] := by decide
  obtain ⟨order, retreating, horder', hretreating', -, -, -, -, -, hback, hnone, -⟩ :=
    retreating_edges_close_cycles hbuilt hroot
  obtain rfl := Except.ok.inj (hretreating.symm.trans hretreating')
  refine ⟨hbuilt, hroot, horder, hretreating, hback 2 1 (by decide), hback 3 2 (by decide), ?_⟩
  exact fun hfree => List.cons_ne_nil _ _ (hnone.2 hfree)

end Pathwise.Graph
