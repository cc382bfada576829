import Mathlib.Data.List.Sort
import Mathlib.Logic.Relation
import Pathwise.Proofs.FlowGraph

/-!
# Edges and neighbours

A graph keeps its edges by their two ends and, apart from them, the neighbours of each vertex. In
a graph that was built by insertions the two agree: the successors of a vertex are the tails of its
edges, and the edges that leave it are those of all edges that have it as their head, in the same
order.
-/

namespace Pathwise

namespace Graph

variable {V L : Type} {g g' : Graph V L}

/-- The graphs that insertions build. -/
inductive Built [DecidableEq L] : Graph V L → Prop where
  /-- The empty graph. -/
  | empty : Built .empty
  /-- A vertex is put in. -/
  | insertVertex {g g' : Graph V L} {index : Nat} {v : V} (h : Built g)
    (hinsert : g.insertVertex index v = .ok g') : Built g'
  /-- An edge is put in. -/
  | insertEdge {g g' : Graph V L} {e : Edge L} (h : Built g)
    (hinsert : g.insertEdge e = .ok g') : Built g'

/-- The neighbours of a vertex are the other ends of its edges. -/
structure Linked (g : Graph V L) : Prop where
  /-- The successors of a vertex are the tails of the edges that leave it. -/
  next : ∀ head tail, g.hasEdge head tail = true ↔ tail ∈ g.nextOf head
  /-- The predecessors of a vertex are the heads of the edges that enter it. -/
  previous : ∀ head tail, g.hasEdge head tail = true ↔ head ∈ g.previousOf tail

theorem empty_linked : (empty : Graph V L).Linked where
  next := by simp [hasEdge, SortedMap.contains, empty, nextOf]
  previous := by simp [hasEdge, SortedMap.contains, empty, previousOf]

/-- An empty set under a new key has no members. -/
theorem lists_insert_new {sets : SortedMap Nat (SortedSet Nat)} {index k m : Nat}
    (hnew : (sets.get? index).isSome = false) :
    Lists (sets.insert index .empty) k m ↔ Lists sets k m := by
  rw [lists_insert_empty, and_iff_right_iff_imp]
  rintro ⟨set, hset, -⟩ rfl
  rw [hset] at hnew
  cases hnew

theorem Linked.insertVertex (h : g.Linked) (hsound : g.Sound) {index : Nat} {v : V}
    (hinsert : g.insertVertex index v = .ok g') : g'.Linked := by
  obtain ⟨hfree, rfl⟩ := insertVertex_ok hinsert
  constructor
  · intro head tail
    rw [mem_nextOf, lists_insert_new ((hsound.outgoing index).trans hfree), ← mem_nextOf]
    exact h.next head tail
  · intro head tail
    rw [mem_previousOf, lists_insert_new ((hsound.incoming index).trans hfree), ← mem_previousOf]
    exact h.previous head tail

/-- A new edge makes its ends neighbours. -/
theorem Linked.insertEdge [DecidableEq L] (h : g.Linked) (hsound : g.Sound) {e : Edge L}
    (hinsert : g.insertEdge e = .ok g') : g'.Linked := by
  obtain ⟨hhead, htail, -, rfl⟩ := insertEdge_ok hinsert
  have hout : (g.outgoing.get? e.head).isSome := (hsound.outgoing e.head).trans hhead
  have hin : (g.incoming.get? e.tail).isSome := (hsound.incoming e.tail).trans htail
  have hedge : ∀ labels head tail,
      (g.parallel.insert ⟨e.head, e.tail⟩ labels).contains ⟨head, tail⟩ = true ↔
      (head = e.head ∧ tail = e.tail) ∨ g.hasEdge head tail = true := by
    intro labels head tail
    unfold hasEdge SortedMap.contains
    rw [SortedMap.get?_insert_eq]
    by_cases hends : head = e.head ∧ tail = e.tail <;> simp [hends]
  constructor
  · intro head tail
    rw [mem_nextOf, lists_link hout, hasEdge, hedge, h.next head tail, mem_nextOf]
  · intro head tail
    rw [mem_previousOf, lists_link hin, hasEdge, hedge, h.previous head tail, mem_previousOf,
      and_comm]

theorem Built.sound [DecidableEq L] (h : g.Built) : g.Sound ∧ g.Linked := by
  induction h with
  | empty => exact ⟨empty_sound, empty_linked⟩
  | insertVertex _ hinsert ih => exact ⟨ih.1.insertVertex hinsert, ih.2.insertVertex ih.1 hinsert⟩
  | insertEdge _ hinsert ih => exact ⟨ih.1.insertEdge hinsert, ih.2.insertEdge ih.1 hinsert⟩

/-- Other data in place of those of a vertex could have been put in with the vertex. -/
theorem Built.replaceVertex [DecidableEq L] (h : g.Built) {index : Nat}
    (hvertex : g.hasVertex index = true) (v : V) :
    Built { g with vertices := g.vertices.insert index v } := by
  induction h with
  | empty => cases hvertex
  | @insertVertex g g' i w hbuilt hinsert ih =>
    obtain ⟨hfree, hg'⟩ := insertVertex_ok hinsert
    by_cases hi : i = index
    · subst hi
      refine @Built.insertVertex _ _ _ g _ i v hbuilt ?_
      simp [Graph.insertVertex, hfree, hg', SortedMap.insert_insert]
    · have hold : g.hasVertex index = true := by
        simpa [hasVertex_insertVertex hinsert, Ne.symm hi] using hvertex
      refine @Built.insertVertex _ _ _ _ _ i w (ih hold) ?_
      have hstill : (g.vertices.insert index v).contains i = false := by
        rw [SortedMap.contains_insert, decide_eq_false hi]
        exact hfree
      simp [Graph.insertVertex, hasVertex, hstill, hg', SortedMap.insert_comm _ hi]
  | @insertEdge g g' e hbuilt hinsert ih =>
    obtain ⟨hhead, htail, hnew, rfl⟩ := insertEdge_ok hinsert
    refine .insertEdge (e := e) (ih hvertex) ?_
    have hstill : ∀ u, g.hasVertex u = true →
        (g.vertices.insert index v).contains u = true := by
      intro u hu
      rw [SortedMap.contains_insert, ← hasVertex, hu, Bool.or_true]
    simp [Graph.insertEdge, hasVertex, hstill _ hhead, hstill _ htail, hnew]

/-! ## The edges at a vertex -/

/-- The edges kept for one pair of ends. -/
theorem between_of_mem {ends : Ends} {labels : List L} (h : (ends, labels) ∈ g.parallel.entries) :
    g.between ends = labels.map (⟨ends.head, ends.tail, ·⟩) := by
  rw [between, SortedMap.get?_eq_some_iff.2 h, Option.getD_some]

/-- Picking from what is made from the items of a list is making from picked items, if all that is
made from an item is picked or none of it. -/
theorem filter_flatMap_of_forall {α β : Type} {f : α → List β} {p : β → Bool} {q : α → Bool}
    (items : List α) (h : ∀ a, ∀ b ∈ f a, p b = q a) :
    (items.flatMap f).filter p = (items.filter q).flatMap f := by
  induction items with
  | nil => rfl
  | cons a items ih =>
    rw [List.flatMap_cons, List.filter_append, ih, List.filter_cons]
    cases hq : q a with
    | true =>
      have hall : (f a).filter p = f a := List.filter_eq_self.2 fun b hb => (h a b hb).trans hq
      rw [hall, if_pos rfl, List.flatMap_cons]
    | false =>
      have hnone : (f a).filter p = [] := by
        refine List.filter_eq_nil_iff.2 fun b hb => ?_
        simp [h a b hb, hq]
      rw [hnone, List.nil_append, if_neg Bool.false_ne_true]

/-- Picking edges by their ends is taking the edges between the pairs of ends that are picked. -/
theorem edges_filter_ends (g : Graph V L) (p : Ends → Bool) :
    g.edges.filter (fun e => p ⟨e.head, e.tail⟩) =
      (g.parallel.keys.filter p).flatMap g.between := by
  have hpicked := filter_flatMap_of_forall g.parallel.entries
    (f := fun e : Ends × List L => e.2.map (⟨e.1.head, e.1.tail, ·⟩))
    (p := fun e : Edge L => p ⟨e.head, e.tail⟩) (q := fun e => p e.1) (by simp)
  rw [edges, hpicked, SortedMap.keys, List.filter_map, List.flatMap_map]
  refine List.flatMap_congr fun e he => ?_
  exact (between_of_mem (List.mem_filter.1 he).1).symm

theorem compare_ends (a b : Ends) :
    compare a b = (compare a.head b.head).then (compare a.tail b.tail) := rfl

/-- The pairs of ends with one end in common are listed by the set of the other ends. -/
theorem keys_filter_eq {p : Ends → Bool} {pair : Nat → Ends} {set : SortedSet Nat}
    (hpair : ∀ {a b}, a < b → compare (pair a) (pair b) = .lt)
    (hmem : ∀ ends, ends ∈ g.parallel.keys ∧ p ends = true ↔ ∃ n ∈ set.toList, pair n = ends) :
    g.parallel.keys.filter p = set.toList.map pair := by
  have hkeys : (g.parallel.keys.filter p).Pairwise fun a b => compare a b = .lt :=
    (List.pairwise_map.2 g.parallel.sorted).filter p
  have hset : (set.toList.map pair).Pairwise fun a b => compare a b = .lt := by
    refine List.pairwise_map.2 (List.pairwise_map.2 (set.sorted.imp fun {a b} hlt => ?_))
    exact hpair (Nat.compare_eq_lt.1 hlt)
  have hirrefl : Std.Irrefl fun a b : Ends => compare a b = .lt := ⟨fun a => by simp⟩
  have hantisymm : Std.Antisymm fun a b : Ends => compare a b = .lt := by
    refine ⟨fun a b hab hba => ?_⟩
    rw [Std.OrientedCmp.gt_iff_lt.2 hba] at hab
    cases hab
  refine hkeys.eq_of_mem_iff hset fun ends => ?_
  rw [List.mem_filter, hmem, List.mem_map]

/-- The edges that leave a vertex are all edges with that head, in the same order. -/
theorem Linked.edgesOut_eq (h : g.Linked) (hsound : g.Sound) {index : Nat}
    (hvertex : g.hasVertex index = true) :
    g.edgesOut index = .ok (g.edges.filter (·.head == index)) := by
  obtain ⟨set, hset⟩ := Option.isSome_iff_exists.1 ((hsound.outgoing index).trans hvertex)
  have hkeys : g.parallel.keys.filter (·.head == index) = set.toList.map (⟨index, ·⟩) := by
    refine keys_filter_eq (fun {a b} hlt => ?_) fun ends => ?_
    · simpa [compare_ends] using Nat.compare_eq_lt.2 hlt
    · have hedge := h.next ends.head ends.tail
      rw [SortedMap.mem_keys, ← SortedMap.contains_iff, beq_iff_eq]
      constructor
      · rintro ⟨hcontains, rfl⟩
        rw [nextOf, hset] at hedge
        exact ⟨ends.tail, hedge.1 hcontains, rfl⟩
      · rintro ⟨tail, htail, rfl⟩
        rw [nextOf, hset] at hedge
        exact ⟨hedge.2 htail, rfl⟩
  rw [edgesOut, successors, hset, edges_filter_ends g (·.head == index), hkeys, List.flatMap_map]
  rfl

/-- The edges that enter a vertex are all edges with that tail, in the same order. -/
theorem Linked.edgesIn_eq (h : g.Linked) (hsound : g.Sound) {index : Nat}
    (hvertex : g.hasVertex index = true) :
    g.edgesIn index = .ok (g.edges.filter (·.tail == index)) := by
  obtain ⟨set, hset⟩ := Option.isSome_iff_exists.1 ((hsound.incoming index).trans hvertex)
  have hkeys : g.parallel.keys.filter (·.tail == index) = set.toList.map (⟨·, index⟩) := by
    refine keys_filter_eq (fun {a b} hlt => ?_) fun ends => ?_
    · simpa [compare_ends] using Nat.compare_eq_lt.2 hlt
    · have hedge := h.previous ends.head ends.tail
      rw [SortedMap.mem_keys, ← SortedMap.contains_iff, beq_iff_eq]
      constructor
      · rintro ⟨hcontains, rfl⟩
        rw [previousOf, hset] at hedge
        exact ⟨ends.head, hedge.1 hcontains, rfl⟩
      · rintro ⟨head, hhead, rfl⟩
        rw [previousOf, hset] at hedge
        exact ⟨hedge.2 hhead, rfl⟩
  rw [edgesIn, predecessors, hset, edges_filter_ends g (·.tail == index), hkeys, List.flatMap_map]
  rfl

end Graph

namespace FlowGraph

variable {g : FlowGraph}

/-- The graph of blocks is one that insertions build. -/
theorem Built.graph (h : g.Built) : g.graph.Built := by
  induction h with
  | empty => exact .empty
  | insertBlock _ hinsert ih => exact .insertVertex ih hinsert
  | advance _ ih => exact ih
  | modifyBlock _ _ hmodify ih =>
    obtain ⟨b, hb, rfl, -⟩ := modifyBlock_ok hmodify
    exact ih.replaceVertex (SortedMap.contains_iff.2 ⟨b, hb⟩) _
  | connect _ hconnect ih =>
    obtain ⟨graph, hedge, rfl⟩ := connect_ok hconnect
    exact .insertEdge ih hedge
  | setEntry _ hset ih =>
    obtain ⟨-, rfl⟩ := setEntry_ok hset
    exact ih

theorem Built.linked (h : g.Built) : g.graph.Linked := h.graph.sound.2

end FlowGraph

end Pathwise
