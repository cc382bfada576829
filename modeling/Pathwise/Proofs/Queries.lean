import Pathwise.Proofs.Covering

/-!
# What a graph answers

A graph keeps its edges by their ends and the neighbours of each vertex apart from them, so that no
query searches all edges. Whatever changes have been asked of it, made or refused, its answers are
those of one list: the edges that were put in, sorted by head and tail, with parallel edges in the
order in which they were put in. The graph as a whole is known by its vertices and that list.
-/

namespace Pathwise

/-! ## Stable sorting by a key -/

section StableSort

variable {α κ : Type} [Ord κ] [Std.TransOrd κ]

/-- Whether the key of one item comes no later than the key of another. -/
def keyLE (key : α → κ) (a b : α) : Bool := (compare (key a) (key b)).isLE

variable {key : α → κ}

theorem keyLE_trans (a b c : α) (hab : keyLE key a b = true) (hbc : keyLE key b c = true) :
    keyLE key a c = true :=
  Std.TransCmp.isLE_trans hab hbc

theorem keyLE_total (a b : α) : (keyLE key a b || keyLE key b a) = true := by
  have hswap : compare (key b) (key a) = (compare (key a) (key b)).swap := Std.OrientedCmp.eq_swap
  rw [keyLE, keyLE, hswap]
  cases compare (key a) (key b) <;> rfl

/-- The first item of a sorted list comes no later than any. -/
theorem keyLE_of_mem_cons {a b : α} {l : List α}
    (h : (a :: l).Pairwise fun a b => keyLE key a b = true) (hb : b ∈ a :: l) :
    keyLE key a b = true := by
  rcases List.mem_cons.1 hb with rfl | hb
  · simp [keyLE]
  · exact (List.pairwise_cons.1 h).1 b hb

variable [Std.LawfulEqOrd κ] [DecidableEq κ] {l l' : List α}

/-- Sorting leaves the items of one key in their order. -/
theorem filter_mergeSort (l : List α) (k : κ) :
    (l.mergeSort (keyLE key)).filter (key · = k) = l.filter (key · = k) := by
  have halike : (l.filter (key · = k)).Pairwise fun a b => keyLE key a b = true := by
    refine List.pairwise_iff_forall_sublist.2 fun {a b} hsub => ?_
    have hab : ∀ c ∈ [a, b], key c = k := by
      intro c hc
      simpa using (List.mem_filter.1 (hsub.subset hc)).2
    simp [keyLE, hab a, hab b]
  have hsub : (l.filter (key · = k)).Sublist (l.mergeSort (keyLE key)) :=
    List.sublist_mergeSort keyLE_trans keyLE_total halike List.filter_sublist
  have hfiltered := hsub.filter (key · = k)
  rw [List.filter_filter] at hfiltered
  simp only [Bool.and_self] at hfiltered
  exact (hfiltered.eq_of_length ((List.mergeSort_perm l _).filter _).length_eq.symm).symm

/-- Two sorted lists that have for each key the same items in the same order are equal. -/
theorem eq_of_alike (hl : l.Pairwise fun a b => keyLE key a b = true)
    (hl' : l'.Pairwise fun a b => keyLE key a b = true)
    (h : ∀ k, l.filter (key · = k) = l'.filter (key · = k)) : l = l' := by
  induction l generalizing l' with
  | nil =>
    cases l' with
    | nil => rfl
    | cons b l' =>
      have hb := h (key b)
      simp at hb
  | cons a l ih =>
    cases l' with
    | nil =>
      have ha := h (key a)
      simp at ha
    | cons b l' =>
      -- each of the two first items has a copy in the other list, so that neither key is smaller
      have hmem : b ∈ (a :: l).filter (key · = key b) := by rw [h]; simp
      have hmem' : a ∈ (b :: l').filter (key · = key a) := by rw [← h]; simp
      have hab := keyLE_of_mem_cons hl (List.mem_filter.1 hmem).1
      have hba := keyLE_of_mem_cons hl' (List.mem_filter.1 hmem').1
      have hkey : key a = key b :=
        Std.LawfulEqCmp.eq_of_compare (Std.OrientedCmp.isLE_antisymm hab hba)
      have hfirst := h (key a)
      rw [List.filter_cons_of_pos (by simp), List.filter_cons_of_pos (by simp [hkey])] at hfirst
      obtain ⟨rfl, halike⟩ := List.cons.inj hfirst
      have htail : ∀ k, l.filter (key · = k) = l'.filter (key · = k) := by
        intro k
        by_cases hk : key a = k
        · rw [← hk]
          exact halike
        · have hthis := h k
          rwa [List.filter_cons_of_neg (by simpa using hk),
            List.filter_cons_of_neg (by simpa using hk)] at hthis
      rw [ih hl.of_cons hl'.of_cons htail]

/-- What it is to be sorted stably by a key. -/
theorem eq_mergeSort (hl : l.Pairwise fun a b => keyLE key a b = true)
    (h : ∀ k, l.filter (key · = k) = l'.filter (key · = k)) : l = l'.mergeSort (keyLE key) :=
  eq_of_alike hl (List.pairwise_mergeSort keyLE_trans keyLE_total l') fun k =>
    (h k).trans (filter_mergeSort l' k).symm

end StableSort

/-- The two ends of an edge. -/
def Edge.ends {L : Type} (e : Edge L) : Ends := ⟨e.head, e.tail⟩

namespace Graph

variable {V L : Type} {g g' : Graph V L} {put : List (Edge L)}

/-! ## Edges by their ends -/

/-- There are no edges between ends that are not listed. -/
theorem between_eq_nil {ends : Ends} (h : ends ∉ g.parallel.keys) : g.between ends = [] := by
  have hnone : g.parallel.get? ends = none := by
    rw [Option.eq_none_iff_forall_not_mem]
    intro labels hlabels
    exact h (SortedMap.mem_keys.2 ⟨labels, hlabels⟩)
  rw [between, hnone]
  rfl

/-- The edges with given ends are those kept for the pair. -/
theorem edges_filter_eq (g : Graph V L) (ends : Ends) :
    g.edges.filter (·.ends = ends) = g.between ends := by
  refine (edges_filter_ends g (· = ends)).trans ?_
  rw [List.filter_eq, g.parallel.keys_nodup.count]
  by_cases hmem : ends ∈ g.parallel.keys
  · simp [hmem]
  · simp [hmem, between_eq_nil hmem]

/-- The edges are sorted by their ends. -/
theorem edges_sorted (g : Graph V L) :
    g.edges.Pairwise fun a b => keyLE Edge.ends a b = true := by
  rw [edges, List.pairwise_flatMap]
  constructor
  · intro e _
    refine List.pairwise_map.2 (List.pairwise_of_forall fun a b => ?_)
    simp [keyLE, Edge.ends]
  · refine g.parallel.sorted.imp fun {x y} hlt a ha b hb => ?_
    obtain ⟨label, -, rfl⟩ := List.mem_map.1 ha
    obtain ⟨label', -, rfl⟩ := List.mem_map.1 hb
    exact Ordering.isLE_of_eq_lt hlt

/-- The graph has the edges that were put in, in this order, and no room for others. -/
structure Keeps (g : Graph V L) (put : List (Edge L)) : Prop where
  /-- The edges between two vertices are those that were put in between them. -/
  between : ∀ ends, g.between ends = put.filter (·.ends = ends)
  /-- No edge was put in twice. -/
  nodup : put.Nodup
  /-- Room is kept only for edges that are there. -/
  occupied : ∀ {ends labels}, g.parallel.get? ends = some labels → labels ≠ []

/-- The empty graph keeps nothing. -/
theorem empty_keeps : (empty : Graph V L).Keeps [] where
  between := fun _ => rfl
  nodup := List.nodup_nil
  occupied := by
    intro ends labels h
    cases h

/-- A vertex adds no edge. -/
theorem Keeps.insertVertex (h : g.Keeps put) {index : Nat} {v : V}
    (hinsert : g.insertVertex index v = .ok g') : g'.Keeps put := by
  obtain ⟨-, rfl⟩ := insertVertex_ok hinsert
  exact ⟨h.between, h.nodup, h.occupied⟩

/-- The label of an edge is kept for its ends exactly if the edge was put in. -/
theorem Keeps.label_mem_iff (h : g.Keeps put) {e : Edge L} :
    e.label ∈ (g.parallel.get? ⟨e.head, e.tail⟩).getD [] ↔ e ∈ put := by
  have hbetween : e ∈ g.between e.ends ↔ e ∈ put := by simp [h.between]
  rw [← hbetween, Graph.between, List.mem_map]
  constructor
  · intro hlabel
    exact ⟨e.label, hlabel, rfl⟩
  · rintro ⟨label, hlabel, hedge⟩
    obtain rfl : label = e.label := congrArg Edge.label hedge
    exact hlabel

/-- A new edge is behind the edges with the same ends. -/
theorem Keeps.insertEdge [DecidableEq L] (h : g.Keeps put) {e : Edge L}
    (hinsert : g.insertEdge e = .ok g') : g'.Keeps (put ++ [e]) := by
  obtain ⟨-, -, hnew, rfl⟩ := insertEdge_ok hinsert
  refine ⟨fun ends => ?_, ?_, fun {ends labels} hlabels => ?_⟩
  · rw [List.filter_append, ← h.between ends, Graph.between, Graph.between,
      SortedMap.get?_insert_eq]
    by_cases hends : ends = e.ends
    · subst hends
      simp [Edge.ends]
    · have hne : e.ends ≠ ends := fun heq => hends heq.symm
      have hne' : ends ≠ ⟨e.head, e.tail⟩ := hends
      simp [hne, hne']
  · have hfresh : e ∉ put := fun hold => hnew (h.label_mem_iff.2 hold)
    exact List.concat_eq_append ▸ h.nodup.concat hfresh
  · dsimp only at hlabels
    rw [SortedMap.get?_insert_eq] at hlabels
    split at hlabels
    · obtain rfl := Option.some.inj hlabels
      simp
    · exact h.occupied hlabels

/-- All edges of a graph are those that were put in, sorted by their ends, parallel ones in the
order in which they were put in. -/
theorem Keeps.edges_eq (h : g.Keeps put) : g.edges = put.mergeSort (keyLE Edge.ends) :=
  eq_mergeSort g.edges_sorted fun ends => (g.edges_filter_eq ends).trans (h.between ends)

/-- No edge is listed twice. -/
theorem Keeps.edges_nodup (h : g.Keeps put) : g.edges.Nodup := by
  rw [h.edges_eq]
  exact (List.mergeSort_perm put _).nodup_iff.2 h.nodup

/-- An edge leads from one vertex to another exactly if one of all edges does. -/
theorem Keeps.hasEdge_iff (h : g.Keeps put) {head tail : Nat} :
    g.hasEdge head tail = true ↔ ∃ e ∈ g.edges, e.head = head ∧ e.tail = tail := by
  have hbetween := g.edges_filter_eq ⟨head, tail⟩
  constructor
  · intro hedge
    obtain ⟨labels, hlabels⟩ := SortedMap.contains_iff.1 hedge
    obtain ⟨label, rest, rfl⟩ := List.exists_cons_of_ne_nil (h.occupied hlabels)
    have hmem : (⟨head, tail, label⟩ : Edge L) ∈ g.edges.filter (·.ends = ⟨head, tail⟩) := by
      rw [hbetween, Graph.between, hlabels]
      exact List.mem_cons_self
    exact ⟨_, (List.mem_filter.1 hmem).1, rfl, rfl⟩
  · rintro ⟨e, he, rfl, rfl⟩
    have hmem : e ∈ g.between e.ends := by
      rw [← g.edges_filter_eq]
      simpa using he
    by_contra hnot
    have hkey : e.ends ∉ g.parallel.keys := fun hkey =>
      hnot (SortedMap.contains_iff.2 (SortedMap.mem_keys.1 hkey))
    rw [between_eq_nil hkey] at hmem
    cases hmem

/-- What is kept for a pair of ends, as far as the edges tell. -/
theorem Keeps.parallel_eq {put' : List (Edge L)} (h : g.Keeps put) (h' : g'.Keeps put')
    (hedges : g.edges = g'.edges) : g.parallel = g'.parallel := by
  -- a pair of ends for which edges are kept has them in the other graph, too
  have hget : ∀ {a b : Graph V L} {put : List (Edge L)} {ends labels}, a.Keeps put →
      a.edges = b.edges → a.parallel.get? ends = some labels →
      b.parallel.get? ends = some labels := by
    intro a b put ends labels hkeeps hedges hlabels
    have hbetween : a.between ends = b.between ends := by
      rw [← edges_filter_eq, ← edges_filter_eq, hedges]
    rw [Graph.between, Graph.between, hlabels, Option.getD_some] at hbetween
    have hmap : labels = (b.parallel.get? ends).getD [] := by
      refine (List.map_inj_right fun x y hxy => ?_).1 hbetween
      exact congrArg Edge.label hxy
    cases hother : b.parallel.get? ends with
    | none =>
      rw [hother] at hmap
      exact absurd hmap (hkeeps.occupied hlabels)
    | some labels' =>
      rw [hother] at hmap
      exact congrArg some hmap.symm
  refine SortedMap.ext_get? fun ends => Option.ext fun labels => ⟨hget h hedges, ?_⟩
  exact hget h' hedges.symm

/-- Neighbours are known by the vertices that have any and by who they are. -/
theorem eq_of_lists {m m' : SortedMap Nat (SortedSet Nat)}
    (hsome : ∀ v, (m.get? v).isSome = (m'.get? v).isSome)
    (hlists : ∀ v n, Lists m v n ↔ Lists m' v n) : m = m' := by
  refine SortedMap.ext_get? fun v => ?_
  have hv := hsome v
  cases hm : m.get? v with
  | none =>
    rw [hm, Option.isSome_none] at hv
    exact (Option.isNone_iff_eq_none.1 (Option.isSome_eq_false_iff.1 hv.symm)).symm
  | some set =>
    cases hm' : m'.get? v with
    | none => simp [hm, hm'] at hv
    | some set' =>
      refine congrArg some (SortedSet.ext_mem fun n => ?_)
      simpa [Lists, hm, hm'] using hlists v n

/-- A graph is known by its vertices and its edges. -/
theorem Keeps.eq_of_edges {put' : List (Edge L)} (h : g.Keeps put) (h' : g'.Keeps put')
    (hsound : g.Sound) (hsound' : g'.Sound) (hlinked : g.Linked) (hlinked' : g'.Linked)
    (hvertices : g.vertices = g'.vertices) (hedges : g.edges = g'.edges) : g = g' := by
  have hparallel := h.parallel_eq h' hedges
  have hvertex : ∀ v, g.hasVertex v = g'.hasVertex v :=
    fun v => by rw [hasVertex, hasVertex, hvertices]
  have hedge : ∀ a b, g.hasEdge a b = g'.hasEdge a b :=
    fun a b => by rw [hasEdge, hasEdge, hparallel]
  have houtgoing : g.outgoing = g'.outgoing := by
    refine eq_of_lists (fun v => ?_) fun v n => ?_
    · rw [hsound.outgoing, hsound'.outgoing, hvertex]
    · rw [← mem_nextOf, ← mem_nextOf, ← hlinked.next, ← hlinked'.next, hedge]
  have hincoming : g.incoming = g'.incoming := by
    refine eq_of_lists (fun v => ?_) fun v n => ?_
    · rw [hsound.incoming, hsound'.incoming, hvertex]
    · rw [← mem_previousOf, ← mem_previousOf, ← hlinked.previous, ← hlinked'.previous, hedge]
  cases g
  cases g'
  cases hvertices
  cases hparallel
  cases houtgoing
  cases hincoming
  rfl

/-- The edges between two vertices are those of all edges that have them as ends, and to ask for
them fails exactly if there are none. -/
theorem Keeps.edgesBetween_eq (h : g.Keeps put) (head tail : Nat) :
    g.edgesBetween head tail =
      if g.edges.filter (·.ends = ⟨head, tail⟩) = [] then .error (.edgeNotFound head tail)
      else .ok (g.edges.filter (·.ends = ⟨head, tail⟩)) := by
  have hnone : g.edges.filter (·.ends = ⟨head, tail⟩) = [] ↔ ¬g.hasEdge head tail = true := by
    rw [List.filter_eq_nil_iff, h.hasEdge_iff]
    simp [Edge.ends]
  rw [edgesBetween]
  by_cases hedge : g.hasEdge head tail = true
  · rw [if_pos hedge, if_neg (fun hnil => hnone.1 hnil hedge), edges_filter_eq]
  · rw [if_neg hedge, if_pos (hnone.2 hedge)]

/-- The numbers of a list in increasing order, each once. -/
def Increasing (numbers of : List Nat) : Prop :=
  numbers.Pairwise (· < ·) ∧ ∀ n, n ∈ numbers ↔ n ∈ of

/-- The successors of a vertex are the tails of the edges that leave it. -/
theorem Keeps.successors_eq (h : g.Keeps put) (hsound : g.Sound) (hlinked : g.Linked) {index : Nat}
    (hvertex : g.hasVertex index = true) :
    ∃ tails, g.successors index = .ok tails ∧
      Increasing tails ((g.edges.filter (·.head == index)).map (·.tail)) := by
  obtain ⟨set, hset⟩ := Option.isSome_iff_exists.1 ((hsound.outgoing index).trans hvertex)
  refine ⟨set.toList, by rw [successors, hset], ?_, fun tail => ?_⟩
  · exact set.keys_increasing
  · have hnext : tail ∈ set.toList ↔ g.hasEdge index tail = true := by
      rw [hlinked.next, nextOf, hset]
    rw [hnext, h.hasEdge_iff]
    simp [and_assoc]

/-- The predecessors of a vertex are the heads of the edges that enter it. -/
theorem Keeps.predecessors_eq (h : g.Keeps put) (hsound : g.Sound) (hlinked : g.Linked)
    {index : Nat} (hvertex : g.hasVertex index = true) :
    ∃ heads, g.predecessors index = .ok heads ∧
      Increasing heads ((g.edges.filter (·.tail == index)).map (·.head)) := by
  obtain ⟨set, hset⟩ := Option.isSome_iff_exists.1 ((hsound.incoming index).trans hvertex)
  refine ⟨set.toList, by rw [predecessors, hset], ?_, fun head => ?_⟩
  · exact set.keys_increasing
  · have hprevious : head ∈ set.toList ↔ g.hasEdge head index = true := by
      rw [hlinked.previous, previousOf, hset]
    rw [hprevious, h.hasEdge_iff]
    simp [and_assoc, and_comm]

/-! ## Look-ups -/

/-- Whatever is looked up on the way to an answer is found. -/
structure Complete (g : Graph V L) : Prop where
  /-- A vertex has its sets of neighbours. -/
  vertex : ∀ index, g.hasVertex index = true →
    (g.outgoing.get? index).isSome = true ∧ (g.incoming.get? index).isSome = true
  /-- A successor is a vertex, and there are edges to it. -/
  successor : ∀ index tails, g.outgoing.get? index = some tails → ∀ tail ∈ tails.toList,
    g.hasVertex tail = true ∧ (g.parallel.get? ⟨index, tail⟩).isSome = true
  /-- A predecessor is a vertex, and there are edges from it. -/
  predecessor : ∀ index heads, g.incoming.get? index = some heads → ∀ head ∈ heads.toList,
    g.hasVertex head = true ∧ (g.parallel.get? ⟨head, index⟩).isSome = true
  /-- From each vertex there is an order, in which the successors of its vertices have a place. -/
  order : ∀ root, g.hasVertex root = true → ∃ order, g.reversePostOrder root = .ok order ∧
    ∀ index ∈ order, g.hasVertex index = true ∧ ∀ tail ∈ g.nextOf index, tail ∈ order
  /-- The loops can be found from each vertex. -/
  loops : ∀ root, g.hasVertex root = true → ∃ loops, g.loops root = .ok loops

/-- A sound graph with its links is complete. -/
theorem Sound.complete (h : g.Sound) (hlinked : g.Linked) : g.Complete where
  vertex := fun index hvertex =>
    ⟨(h.outgoing index).trans hvertex, (h.incoming index).trans hvertex⟩
  successor := by
    intro index tails htails tail htail
    have hnext : tail ∈ g.nextOf index := by rwa [nextOf, htails]
    exact ⟨(h.next hnext).1, (hlinked.next index tail).2 hnext⟩
  predecessor := by
    intro index heads hheads head hhead
    have hprevious : head ∈ g.previousOf index := by rwa [previousOf, hheads]
    exact ⟨h.previous hprevious, (hlinked.previous head index).2 hprevious⟩
  order := by
    intro root hroot
    obtain ⟨order, horder⟩ : ∃ order, g.reversePostOrder root = .ok order := ⟨_, if_pos hroot⟩
    refine ⟨order, horder, fun index hindex => ?_⟩
    have hpath := (h.mem_order_iff horder).1 hindex
    refine ⟨h.hasVertex_of_reaches hroot hpath, fun tail htail => ?_⟩
    exact (h.mem_order_iff horder).2 (.tail hpath htail)
  loops := fun _ hroot => exists_loops hroot

/-! ## Changes -/

/-- What can be asked of a graph. -/
inductive Change (V L : Type) where
  /-- To put a vertex in at an index. -/
  | vertex (index : Nat) (v : V)
  /-- To put an edge in. -/
  | edge (e : Edge L)

variable [DecidableEq L]

/-- Makes a change or refuses it. -/
def Change.make (g : Graph V L) : Change V L → Except GraphError (Graph V L)
  | .vertex index v => g.insertVertex index v
  | .edge e => g.insertEdge e

/-- Makes a change step by step in place, and tells what became of it. Room for an edge is made
between its ends before it is known whether the edge is new. -/
def Change.inPlace (g : Graph V L) : Change V L → Except GraphError Unit × Graph V L
  | .vertex index v =>
    if g.hasVertex index then
      (.error (.duplicateVertex index), g)
    else
      let g := { g with outgoing := g.outgoing.insert index .empty }
      let g := { g with incoming := g.incoming.insert index .empty }
      (.ok (), { g with vertices := g.vertices.insert index v })
  | .edge e =>
    if !g.hasVertex e.head then
      (.error (.vertexNotFound e.head), g)
    else if !g.hasVertex e.tail then
      (.error (.vertexNotFound e.tail), g)
    else
      let labels := (g.parallel.get? ⟨e.head, e.tail⟩).getD []
      let g := { g with parallel := g.parallel.insert ⟨e.head, e.tail⟩ labels }
      if e.label ∈ labels then
        (.error (.duplicateEdge e.head e.tail), g)
      else
        let g := { g with parallel := g.parallel.insert ⟨e.head, e.tail⟩ (labels ++ [e.label]) }
        let g := { g with outgoing := link g.outgoing e.head e.tail }
        (.ok (), { g with incoming := link g.incoming e.tail e.head })

/-- A change in place leaves the graph with the change, or as it was if it is refused. -/
theorem Change.inPlace_eq (g : Graph V L) (c : Change V L) :
    c.inPlace g = match c.make g with
      | .ok changed => (.ok (), changed)
      | .error e => (.error e, g) := by
  cases c with
  | vertex index v =>
    simp only [inPlace, make, insertVertex]
    split <;> rfl
  | edge e =>
    simp only [inPlace, make, insertEdge]
    split
    · rfl
    · split
      · rfl
      · split
        · next hold =>
          -- an old edge has its room, which stays as it is
          have hsame : g.parallel.insert ⟨e.head, e.tail⟩
              ((g.parallel.get? ⟨e.head, e.tail⟩).getD []) = g.parallel := by
            cases hlabels : g.parallel.get? ⟨e.head, e.tail⟩ with
            | none => simp [hlabels] at hold
            | some labels => exact SortedMap.insert_of_get? hlabels
          rw [hsame]
        · rw [SortedMap.insert_insert]

/-- A graph and the edges that were put in, in their order. -/
structure Grown (V L : Type) where
  /-- The graph. -/
  graph : Graph V L
  /-- The edges that were put in. -/
  put : List (Edge L)

namespace Grown

/-- What is there after a change was asked for; the same as before if it is refused. -/
def ask (x : Grown V L) (c : Change V L) : Grown V L :=
  match c, c.make x.graph with
  | .vertex _ _, .ok g => { x with graph := g }
  | .edge e, .ok g => ⟨g, x.put ++ [e]⟩
  | _, .error _ => x

/-- What is there after some changes were asked for one after the other. -/
def after (changes : List (Change V L)) : Grown V L := changes.foldl ask ⟨.empty, []⟩

/-- What each change keeps. -/
structure Tidy (x : Grown V L) : Prop where
  /-- Neighbours agree. -/
  sound : x.graph.Sound
  /-- They are the other ends of edges. -/
  linked : x.graph.Linked
  /-- The edges are those that were put in. -/
  keeps : x.graph.Keeps x.put

/-- Every change, made or refused, leaves things tidy. -/
theorem Tidy.ask {x : Grown V L} (h : x.Tidy) (c : Change V L) : (x.ask c).Tidy := by
  cases c with
  | vertex index v =>
    cases hmake : x.graph.insertVertex index v with
    | error e => simpa [Grown.ask, Change.make, hmake] using h
    | ok g =>
      simp only [Grown.ask, Change.make, hmake]
      exact ⟨h.sound.insertVertex hmake, h.linked.insertVertex h.sound hmake,
        h.keeps.insertVertex hmake⟩
  | edge e =>
    cases hmake : x.graph.insertEdge e with
    | error e => simpa [Grown.ask, Change.make, hmake] using h
    | ok g =>
      simp only [Grown.ask, Change.make, hmake]
      exact ⟨h.sound.insertEdge hmake, h.linked.insertEdge h.sound hmake,
        h.keeps.insertEdge hmake⟩

theorem tidy_after (changes : List (Change V L)) : (after changes).Tidy :=
  List.foldlRecOn changes _ ⟨empty_sound, empty_linked, empty_keeps⟩ fun _ h c _ => h.ask c

end Grown

/-- After any changes that were asked of a graph, whether made or refused, a change that is refused
leaves the graph as it was, also if it is made step by step in place; the edges are those that were
put in, each once, sorted by head and tail with parallel ones in their order; every query at a
vertex or a pair of vertices is answered from that list; and nothing that is looked up for an answer
is missing. -/
theorem queries_agree_with_edges (changes : List (Change V L)) :
    let g := (Grown.after changes).graph
    let put := (Grown.after changes).put
    (∀ c : Change V L, c.inPlace g = match c.make g with
        | .ok changed => (.ok (), changed)
        | .error e => (.error e, g)) ∧
      g.edges = put.mergeSort (keyLE Edge.ends) ∧ g.edges.Nodup ∧
      (∀ index, g.hasVertex index = true →
        g.edgesOut index = .ok (g.edges.filter (·.head == index)) ∧
        g.edgesIn index = .ok (g.edges.filter (·.tail == index)) ∧
        (∃ tails, g.successors index = .ok tails ∧
          Increasing tails ((g.edges.filter (·.head == index)).map (·.tail))) ∧
        ∃ heads, g.predecessors index = .ok heads ∧
          Increasing heads ((g.edges.filter (·.tail == index)).map (·.head))) ∧
      (∀ head tail, g.edgesBetween head tail =
        if g.edges.filter (·.ends = ⟨head, tail⟩) = [] then .error (.edgeNotFound head tail)
        else .ok (g.edges.filter (·.ends = ⟨head, tail⟩))) ∧
      g.Complete := by
  intro g put
  obtain ⟨hsound, hlinked, hkeeps⟩ := Grown.tidy_after changes
  refine ⟨Change.inPlace_eq g, hkeeps.edges_eq, hkeeps.edges_nodup, fun index hvertex => ?_,
    hkeeps.edgesBetween_eq, hsound.complete hlinked⟩
  exact ⟨hlinked.edgesOut_eq hsound hvertex, hlinked.edgesIn_eq hsound hvertex,
    hkeeps.successors_eq hsound hlinked hvertex, hkeeps.predecessors_eq hsound hlinked hvertex⟩

end Graph

end Pathwise
