import Mathlib.Data.Set.Finite.Lemmas
import Mathlib.Order.Filter.AtTopBot.Basic
import Mathlib.Order.Filter.Finite
import Pathwise.Proofs.FlowGraph
import Pathwise.Proofs.Walks

/-!
# Endless walks and loops

The loop of a header has all vertices that lie on a way from the header back to it. A walk through
the graph that never ends keeps to the vertices that it comes to again and again, and the one of
them that is first in reverse post order is the header of a loop that has them all, however the
cycles overlap.
-/

namespace Pathwise

/-! ## Loops -/

/-- Going through a list without an error gives one result for each item, if the results tell what
they were made from. -/
theorem mapM_ok {α β ε : Type} {f : α → Except ε β} {as : List α} {bs : List β} {key : β → α}
    (hkey : ∀ {a b}, f a = .ok b → key b = a) (h : as.mapM f = .ok bs) :
    bs.map key = as ∧ ∀ b ∈ bs, f (key b) = .ok b := by
  have hanswers : bs.map Except.ok = as.map f := map_of_mapM_ok (fun h => h.symm) h
  refine ⟨by simpa using map_of_mapM_ok (k := id) hkey h, fun b hb => ?_⟩
  obtain ⟨a, -, ha⟩ := List.mem_map.1 (hanswers ▸ List.mem_map_of_mem hb)
  rwa [hkey ha]

/-- There is no error if no item has one. -/
theorem exists_mapM_ok {α β ε : Type} {f : α → Except ε β} {as : List α}
    (h : ∀ a ∈ as, ∃ b, f a = .ok b) : ∃ bs, as.mapM f = .ok bs := by
  induction as with
  | nil => exact ⟨[], rfl⟩
  | cons a as ih =>
    obtain ⟨b, hb⟩ := h a List.mem_cons_self
    obtain ⟨bs, hbs⟩ := ih fun c hc => h c (List.mem_cons_of_mem _ hc)
    exact ⟨b :: bs, by simp [List.mapM_cons, hb, hbs, bind, Except.bind, pure, Except.pure]⟩

namespace Graph

variable {V L : Type} {g : Graph V L} {root header latch v : Nat} {loops : List Loop}

theorem mem_indices : v ∈ g.indices ↔ g.hasVertex v = true := by
  rw [indices, SortedMap.mem_keys, hasVertex, SortedMap.contains_iff]

theorem card_indices_le : g.indices.toFinset.card ≤ g.size :=
  (List.toFinset_card_le _).trans (by simp [indices, SortedMap.keys, size, SortedMap.size])

/-- A search that has one vertex in the queue goes on from no more vertices than there are. -/
theorem pending_le {found : List Nat} (hv : g.hasVertex v = true) (hfound : v ∈ found) :
    Search.pending g.indices.toFinset ⟨found, [v]⟩ ≤ g.size := by
  have hmem : v ∈ g.indices.toFinset := by simpa [mem_indices] using hv
  have hless : (g.indices.toFinset \ found.toFinset).card < g.indices.toFinset.card := by
    refine Finset.card_lt_card ⟨Finset.sdiff_subset, fun hsub => ?_⟩
    exact (Finset.mem_sdiff.1 (hsub hmem)).2 (List.mem_toFinset.2 hfound)
  have hcard := g.card_indices_le
  simp only [Search.pending, List.length_singleton]
  omega

/-- The errands of a walk are those that its vertices give rise to, and the first one. -/
theorem errands_eq (g : Graph V L) : g.errands = 1 + Walk.load g.nextOf [] g.indices := by
  have hfold : ∀ (span : List Nat) (n : Nat),
      span.foldl (fun n v => n + ((g.nextOf v).length + 1)) n =
        n + Walk.load g.nextOf [] span := by
    intro span
    induction span with
    | nil => exact fun n => rfl
    | cons u span ih =>
      intro n
      rw [List.foldl_cons, ih, Walk.load, if_neg List.not_mem_nil]
      omega
  exact hfold g.indices 1

/-- Edges lead from one vertex to another. -/
def Reaches (g : Graph V L) : Nat → Nat → Prop := Relation.ReflTransGen fun a b => b ∈ g.nextOf a

theorem leads_eq_reaches : Walk.Leads g.nextOf = g.Reaches := rfl

namespace Sound

theorem nextOf_mem_indices (h : g.Sound) : ∀ u ∈ g.indices.toFinset, ∀ t ∈ g.nextOf u,
    t ∈ g.indices.toFinset := by
  intro u _ t ht
  simpa [mem_indices] using (h.next ht).1

theorem previousOf_mem_indices (h : g.Sound) : ∀ u ∈ g.indices.toFinset, ∀ t ∈ g.previousOf u,
    t ∈ g.indices.toFinset := by
  intro u _ t ht
  simpa [mem_indices] using h.previous ht

theorem hasVertex_of_reaches (h : g.Sound) (hroot : g.hasVertex root = true)
    (hv : g.Reaches root v) : g.hasVertex v = true := by
  induction hv with
  | refl => exact hroot
  | tail _ hstep _ => exact (h.next hstep).1

/-- From a vertex the walk by recursion is never cut short. -/
theorem goesThrough (h : g.Sound) (hv : g.hasVertex v = true) (w : Walk) :
    Walk.GoesThrough g.nextOf [v] w (Walk.visit g.nextOf g.size w v) :=
  Walk.visit_goesThrough h.nextOf_mem_indices (by simpa [mem_indices] using hv)
    ((Finset.card_le_card Finset.sdiff_subset).trans card_indices_le)

/-- Nor is the walk with a stack: it comes to the same as the walk by recursion. -/
theorem run_eq_visit (h : g.Sound) (hroot : g.hasVertex root = true) :
    Walk.start.run g.nextOf g.errands [.enter root] =
      Walk.visit g.nextOf g.size Walk.start root := by
  have hspan : ∀ u ∈ g.indices, ∀ t ∈ g.nextOf u, t ∈ g.indices := by
    simpa using h.nextOf_mem_indices
  exact (h.goesThrough hroot Walk.start).run_enter hspan (mem_indices.2 hroot)
    (Nat.le_of_eq g.errands_eq.symm)

/-- A walk from the root enters what can be reached. -/
theorem mem_walk_iff (h : g.Sound) (hroot : g.hasVertex root = true) :
    v ∈ (Walk.visit g.nextOf g.size Walk.start root).seen ↔ g.Reaches root v := by
  rw [(h.goesThrough hroot _).mem_seen_iff, leads_eq_reaches]

/-- It leaves all that it enters, in good order. -/
theorem walk_orderly (h : g.Sound) (hroot : g.hasVertex root = true) :
    Walk.Orderly g.nextOf (Walk.visit g.nextOf g.size Walk.start root) :=
  ((h.goesThrough hroot _).orderly Walk.orderly_start fun _ hu => absurd hu List.not_mem_nil).1

/-- Reverse post order has every vertex that can be reached and no other. -/
theorem mem_order_iff (h : g.Sound) {order : List Nat}
    (horder : g.reversePostOrder root = .ok order) : v ∈ order ↔ g.Reaches root v := by
  unfold reversePostOrder at horder
  split at horder
  · next hroot =>
    obtain rfl := Except.ok.inj horder
    rw [h.run_eq_visit hroot, ← h.mem_walk_iff hroot]
    refine ⟨(h.walk_orderly hroot).entered v, fun hseen => ?_⟩
    have hextends := (h.goesThrough hroot Walk.start).extends_and_seen.1
    exact (hextends.left v hseen).resolve_left List.not_mem_nil
  · cases horder

/-- A search from a vertex is never cut short and finds what can be reached. -/
theorem mem_search_iff (h : g.Sound) (hroot : g.hasVertex root = true) :
    v ∈ (Search.run g.nextOf g.size ⟨[root], [root]⟩).found ↔ g.Reaches root v := by
  have hmem : root ∈ g.indices.toFinset := by simpa [mem_indices] using hroot
  have hunderway : Search.Underway g.nextOf g.indices.toFinset ⟨[root], [root]⟩ :=
    ⟨fun u hu => ⟨hu, List.mem_singleton.1 hu ▸ hmem⟩, fun u hu => .inl hu⟩
  rw [hunderway.mem_found_iff h.nextOf_mem_indices (pending_le hroot List.mem_cons_self),
    ← leads_eq_reaches]
  constructor
  · rintro (hv | ⟨t, ht, hpath⟩)
    · exact List.mem_singleton.1 hv ▸ .refl
    · exact List.mem_singleton.1 ht ▸ hpath
  · exact fun hpath => .inr ⟨root, List.mem_singleton_self root, hpath⟩

/-- The reachable vertices are those that can be reached. -/
theorem mem_reachable_iff (h : g.Sound) {vs : List Nat} (hvs : g.reachable root = .ok vs) :
    v ∈ vs ↔ g.Reaches root v := by
  unfold reachable at hvs
  split at hvs
  · next hroot =>
    obtain rfl := Except.ok.inj hvs
    rw [List.mem_filter, decide_eq_true_iff, h.mem_search_iff hroot, and_iff_right_iff_imp]
    exact fun hv => mem_indices.2 (h.hasVertex_of_reaches hroot hv)
  · cases hvs

/-- What is found backwards from a latch is the header and what leads to the latch without going on
from the header. -/
theorem mem_towards_iff (h : g.Sound) (hlatch : g.hasVertex latch = true) :
    v ∈ g.towards header latch ↔ v = header ∨
      Relation.ReflTransGen (fun a c => a ≠ header ∧ c ∈ g.previousOf a) latch v := by
  have hmem : latch ∈ g.indices.toFinset := by simpa [mem_indices] using hlatch
  have hback : ∀ a c, c ∈ (if a = header then [] else g.previousOf a) ↔
      a ≠ header ∧ c ∈ g.previousOf a := by
    intro a c
    by_cases ha : a = header <;> simp [ha]
  have harea : ∀ u ∈ g.indices.toFinset, ∀ t ∈ (if u = header then [] else g.previousOf u),
      t ∈ g.indices.toFinset :=
    fun u hu t ht => h.previousOf_mem_indices u hu t ((hback u t).1 ht).2
  have hunderway : Search.Underway (fun a => if a = header then [] else g.previousOf a)
      g.indices.toFinset ⟨[latch, header], [latch]⟩ := by
    refine ⟨fun u hu => ?_, fun u hu => ?_⟩
    · obtain rfl := List.mem_singleton.1 hu
      exact ⟨List.mem_cons_self, hmem⟩
    · rcases List.mem_cons.1 hu with rfl | hu
      · exact .inl List.mem_cons_self
      · exact .inr fun t ht => absurd (List.mem_singleton.1 hu) ((hback u t).1 ht).1
  rw [towards, hunderway.mem_found_iff harea (pending_le hlatch List.mem_cons_self), Walk.Leads]
  simp only [hback, List.mem_cons, List.not_mem_nil, or_false, exists_eq_left]
  constructor
  · rintro ((rfl | hv) | hpath)
    · exact .inr .refl
    · exact .inl hv
    · exact .inr hpath
  · exact Or.imp_left .inr

end Sound

/-- Retreating edges are found in an order. -/
theorem exists_order {retreating : List Ends} (h : g.retreatingEdges root = .ok retreating) :
    ∃ order, g.reversePostOrder root = .ok order := by
  cases horder : g.reversePostOrder root with
  | error e => simp [retreatingEdges, horder, bind, Except.bind] at h
  | ok order => exact ⟨order, rfl⟩

/-- The retreating edges are those between reachable vertices that do not go forward in order. -/
theorem mem_retreatingEdges {order : List Nat} {retreating : List Ends}
    (horder : g.reversePostOrder root = .ok order)
    (hretreating : g.retreatingEdges root = .ok retreating) {head tail : Nat} :
    ⟨head, tail⟩ ∈ retreating ↔ head ∈ g.indices ∧ head ∈ order ∧ tail ∈ g.nextOf head ∧
      order.idxOf tail ≤ order.idxOf head := by
  simp only [retreatingEdges, horder, bind, Except.bind, pure, Except.pure] at hretreating
  obtain rfl := Except.ok.inj hretreating
  simp [and_assoc]

/-- What a loop is made from. -/
theorem loopOf_ok {latches : List Nat} {l : Loop} (h : g.loopOf header latches = .ok l) :
    l.header = header ∧ l.nodes.Sublist g.indices ∧ ∃ vs, g.reachable header = .ok vs ∧
      ∀ v, v ∈ l.nodes ↔ v ∈ vs ∧ ∃ latch ∈ latches, v ∈ g.towards header latch := by
  unfold loopOf at h
  cases hvs : g.reachable header with
  | error e => simp [hvs, bind, Except.bind] at h
  | ok vs =>
    simp only [hvs, bind, Except.bind, pure, Except.pure] at h
    obtain rfl := Except.ok.inj h
    have hsub : vs.Sublist g.indices := by
      unfold reachable at hvs
      split at hvs
      · obtain rfl := Except.ok.inj hvs
        exact List.filter_sublist
      · cases hvs
    exact ⟨rfl, List.filter_sublist.trans hsub, vs, rfl, by simp⟩

/-- Loops as they are made from retreating edges: one for each tail, by header. -/
structure LoopsOf (g : Graph V L) (retreating : List Ends) (loops : List Loop) : Prop where
  /-- The headers are the tails, in the order of vertices. -/
  headers : loops.map (·.header) = g.indices.filter fun v => retreating.any (·.tail == v)
  /-- The vertices of a loop are vertices of the graph, in their order. -/
  sublist : ∀ l ∈ loops, l.nodes.Sublist g.indices
  /-- They are what lies on a way from the header to a latch. -/
  nodes : ∀ l ∈ loops, ∃ vs, g.reachable l.header = .ok vs ∧
    ∀ v, v ∈ l.nodes ↔ v ∈ vs ∧ ∃ latch, ⟨latch, l.header⟩ ∈ retreating ∧
      v ∈ g.towards l.header latch

/-- What the loops of a graph are made from. -/
theorem loops_ok (h : g.loops root = .ok loops) :
    ∃ order retreating, g.reversePostOrder root = .ok order ∧
      g.retreatingEdges root = .ok retreating ∧ g.LoopsOf retreating loops := by
  unfold Graph.loops at h
  cases hretreating : g.retreatingEdges root with
  | error e => simp [hretreating, bind, Except.bind] at h
  | ok retreating =>
    obtain ⟨order, horder⟩ := exists_order hretreating
    simp only [hretreating, bind, Except.bind] at h
    obtain ⟨hheaders, hall⟩ := mapM_ok (fun hloop => (loopOf_ok hloop).1) h
    refine ⟨order, retreating, horder, rfl, hheaders, fun l hl => (loopOf_ok (hall l hl)).2.1,
      fun l hl => ?_⟩
    obtain ⟨-, -, vs, hvs, hnodes⟩ := loopOf_ok (hall l hl)
    refine ⟨vs, hvs, fun v => (hnodes v).trans (and_congr_right fun _ => ⟨?_, ?_⟩)⟩
    · rintro ⟨latch, hlatch, hv⟩
      obtain ⟨⟨head, tail⟩, hedge, rfl⟩ := List.mem_map.1 hlatch
      obtain ⟨hmem, htail⟩ := List.mem_filter.1 hedge
      exact ⟨head, beq_iff_eq.1 htail ▸ hmem, hv⟩
    · rintro ⟨latch, hedge, hv⟩
      exact ⟨latch, List.mem_map.2
        ⟨_, List.mem_filter.2 ⟨hedge, beq_self_eq_true _⟩, rfl⟩, hv⟩

/-- The headers of loops are the tails of retreating edges. -/
theorem LoopsOf.mem_headers_iff {retreating : List Ends} (h : g.LoopsOf retreating loops) :
    (∃ l ∈ loops, l.header = header) ↔
      g.hasVertex header = true ∧ ∃ latch, ⟨latch, header⟩ ∈ retreating := by
  rw [← List.mem_map, h.headers, List.mem_filter, mem_indices, List.any_eq_true]
  refine and_congr_right fun _ => ⟨?_, ?_⟩
  · rintro ⟨⟨latch, tail⟩, hedge, htail⟩
    exact ⟨latch, beq_iff_eq.1 htail ▸ hedge⟩
  · rintro ⟨latch, hedge⟩
    exact ⟨_, hedge, beq_self_eq_true _⟩

/-- From a vertex the loops can always be found. -/
theorem exists_loops (hroot : g.hasVertex root = true) : ∃ loops, g.loops root = .ok loops := by
  obtain ⟨retreating, hretreating⟩ : ∃ retreating, g.retreatingEdges root = .ok retreating := by
    simp [retreatingEdges, reversePostOrder, hroot, bind, Except.bind, pure, Except.pure]
  have hloop : ∀ header ∈ g.indices.filter fun v => retreating.any (·.tail == v),
      ∃ l, g.loopOf header ((retreating.filter (·.tail == header)).map (·.head)) = .ok l := by
    intro header hheader
    have hvertex := mem_indices.1 (List.mem_filter.1 hheader).1
    simp [loopOf, reachable, hvertex, bind, Except.bind, pure, Except.pure]
  obtain ⟨loops, hloops⟩ := exists_mapM_ok hloop
  refine ⟨loops, ?_⟩
  simp only [Graph.loops, hretreating, bind, Except.bind]
  exact hloops

/-- The vertices of a loop are vertices of the graph. -/
theorem hasVertex_of_mem_loop (hloops : g.loops root = .ok loops) {l : Loop} (hl : l ∈ loops)
    (hv : v = l.header ∨ v ∈ l.nodes) : g.hasVertex v = true := by
  obtain ⟨-, retreating, -, -, hof⟩ := loops_ok hloops
  rcases hv with rfl | hv
  · exact (hof.mem_headers_iff.1 ⟨l, hl, rfl⟩).1
  · exact mem_indices.1 ((hof.sublist l hl).subset hv)

/-- The part of an endless walk between two visits of a header leads back along the edges. -/
theorem Sound.path_back (h : g.Sound) {b : Nat → Nat} (hwalk : ∀ i, b (i + 1) ∈ g.nextOf (b i))
    (i n : Nat) (havoid : ∀ j, i < j → j ≤ i + n → b j ≠ header) :
    Relation.ReflTransGen (fun a c => a ≠ header ∧ c ∈ g.previousOf a) (b (i + n)) (b i) := by
  induction n with
  | zero => exact .refl
  | succ n ih =>
    refine .head ⟨?_, (h.next (hwalk (i + n))).2⟩ (ih fun j hj hjn => havoid j hj (by omega))
    exact havoid (i + (n + 1)) (by omega) (by omega)

section Endless

open Filter

variable {b : Nat → Nat}

theorem reaches_walk (hwalk : ∀ i, b (i + 1) ∈ g.nextOf (b i)) (i n : Nat) :
    g.Reaches (b i) (b (i + n)) := by
  induction n with
  | zero => exact .refl
  | succ n ih => exact .tail ih (hwalk (i + n))

/-- What keeps to finitely many vertices comes after some time only to those that recur. -/
theorem eventually_recurs {area : Finset Nat} (harea : ∀ i, b i ∈ area) :
    ∀ᶠ i in atTop, ∃ᶠ j in atTop, b j = b i := by
  have hrare : ∀ᶠ i in atTop, ∀ v ∈ (area : Set Nat), (¬∃ᶠ j in atTop, b j = v) → b i ≠ v := by
    refine (eventually_all_finite area.finite_toSet).2 fun v _ => ?_
    by_cases hv : ∃ᶠ j in atTop, b j = v
    · exact .of_forall fun _ hnot => absurd hv hnot
    · exact (not_frequently.1 hv).mono fun _ hne _ => hne
  filter_upwards [hrare] with i hi
  by_contra hnot
  exact hi (b i) (harea i) hnot rfl

/-- The next visit of a vertex that recurs. -/
theorem exists_next_visit {v : Nat} (hv : ∃ᶠ i in atTop, b i = v) (i : Nat) :
    ∃ n, b (i + n + 1) = v ∧ ∀ j, i < j → j ≤ i + n → b j ≠ v := by
  have hagain : ∃ n, b (i + n + 1) = v := by
    obtain ⟨k, hk, hkv⟩ := frequently_atTop'.1 hv i
    exact ⟨k - i - 1, by rwa [show i + (k - i - 1) + 1 = k by omega]⟩
  refine ⟨Nat.find hagain, Nat.find_spec hagain, fun j hj hjn => ?_⟩
  have hbefore := Nat.find_min hagain (m := j - i - 1) (by omega)
  rwa [show i + (j - i - 1) + 1 = j by omega] at hbefore

/-- A walk through the graph that never ends comes again and again to the header of a loop that it
does not leave after some time. -/
theorem Sound.exists_loop (h : g.Sound) (hroot : g.hasVertex root = true)
    (hloops : g.loops root = .ok loops) (hstart : g.Reaches root (b 0))
    (hwalk : ∀ i, b (i + 1) ∈ g.nextOf (b i)) :
    ∃ header, (∃ l ∈ loops, l.header = header) ∧ (∃ᶠ i in atTop, b i = header) ∧
      ∀ l ∈ loops, l.header = header → ∀ᶠ i in atTop, b i ∈ l.nodes := by
  obtain ⟨order, retreating, horder, hretreating, hof⟩ := loops_ok hloops
  have hreach : ∀ i, g.Reaches root (b i) := by
    intro i
    have hfrom : g.Reaches (b 0) (b i) := by simpa using reaches_walk hwalk 0 i
    exact Relation.ReflTransGen.trans hstart hfrom
  have hvertex : ∀ i, g.hasVertex (b i) = true := fun i => h.hasVertex_of_reaches hroot (hreach i)
  have harea : ∀ i, b i ∈ g.indices.toFinset := fun i => by simpa [mem_indices] using hvertex i
  have hrecur := eventually_recurs harea
  have hfinite : {v | ∃ᶠ i in atTop, b i = v}.Finite := by
    refine g.indices.toFinset.finite_toSet.subset fun v hv => ?_
    obtain ⟨i, rfl⟩ := hv.exists
    exact harea i
  -- the first in order of the vertices that recur is the header
  obtain ⟨header, hheader, hmin⟩ := Set.exists_min_image _ order.idxOf hfinite
    (hrecur.exists.imp' b fun _ hi => hi)
  obtain ⟨i₀, hi₀⟩ := eventually_atTop.1 hrecur
  have hlatch : ∀ i ≥ i₀, b (i + 1) = header → ⟨b i, header⟩ ∈ retreating := by
    intro i hi hnext
    exact (mem_retreatingEdges horder hretreating).2 ⟨mem_indices.2 (hvertex i),
      (h.mem_order_iff horder).2 (hreach i), hnext ▸ hwalk i, hmin (b i) (hi₀ i hi)⟩
  refine ⟨header, ?_, hheader, fun l hl hlheader => ?_⟩
  · obtain ⟨n, hnext, -⟩ := exists_next_visit hheader i₀
    have hedge := hlatch (i₀ + n) (by omega) hnext
    exact hof.mem_headers_iff.2 ⟨hnext ▸ hvertex _, _, hedge⟩
  · obtain ⟨vs, hvs, hnodes⟩ := hof.nodes l hl
    obtain rfl := hlheader
    obtain ⟨j₀, hj₀, hjheader⟩ := frequently_atTop.1 hheader i₀
    filter_upwards [eventually_ge_atTop j₀] with i hi
    have hfrom : g.Reaches l.header (b i) := by
      have hreaches := reaches_walk hwalk j₀ (i - j₀)
      rwa [hjheader, Nat.add_sub_cancel' hi] at hreaches
    -- the next visit of the header goes through a latch
    obtain ⟨n, hnext, hfirst⟩ := exists_next_visit hheader i
    have hedge := hlatch (i + n) (by omega) hnext
    refine (hnodes (b i)).2 ⟨(h.mem_reachable_iff hvs).2 hfrom, b (i + n), hedge, ?_⟩
    exact (h.mem_towards_iff (hvertex _)).2 (.inr (h.path_back hwalk i _ hfirst))

end Endless

end Graph

end Pathwise
