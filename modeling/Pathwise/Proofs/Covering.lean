import Mathlib.Data.List.Chain
import Pathwise.Proofs.Cycles
import Pathwise.Proofs.Edges

/-!
# Every cycle has a covering header

A closed walk may pass through a vertex more than once and may be entered anywhere. Going around it
without end is an endless walk that comes to all its vertices again and again, and such a walk keeps
to a loop whose header it visits. So one of the vertices of a closed walk heads a loop that has all
of them. A loop has nothing else than vertices on ways from its header back to it.
-/

namespace Pathwise

namespace Graph

open Filter

variable {V L : Type} {g : Graph V L} {walk : List Nat} {root v : Nat}

/-- Edges lead from one vertex to another. -/
def Connects (g : Graph V L) : Nat → Nat → Prop :=
  Relation.ReflTransGen fun a b => g.hasEdge a b = true

/-- A walk along edges that ends where it starts, as the list of its vertices: an edge leads from
each of them to the next and from the last to the first. -/
def ClosedWalk (g : Graph V L) (walk : List Nat) : Prop :=
  walk ≠ [] ∧ List.IsChain (fun a b => g.hasEdge a b = true) (walk ++ walk.head?.toList)

instance (g : Graph V L) (walk : List Nat) : Decidable (g.ClosedWalk walk) :=
  inferInstanceAs (Decidable (_ ∧ _))

/-- The successors of vertices are found along edges, and the other way round. -/
theorem Linked.connects_eq (h : g.Linked) : g.Connects = g.Reaches := by
  have hstep : (fun a b => g.hasEdge a b = true) = fun a b => b ∈ g.nextOf a :=
    funext fun a => funext fun b => propext (h.next a b)
  rw [Connects, Reaches, hstep]

/-! ## What a loop has -/

/-- Edges lead from one vertex to another without passing through a third one, not even at the
ends. -/
def Bypasses (g : Graph V L) (header a b : Nat) : Prop :=
  a ≠ header ∧
    Relation.ReflTransGen (fun x y => g.hasEdge x y = true ∧ x ≠ header ∧ y ≠ header) a b

theorem Bypasses.connects {header a b : Nat} (h : g.Bypasses header a b) : g.Connects a b :=
  Relation.ReflTransGen.mono (fun _ _ hstep => hstep.1) _ _ h.2

/-- What leads to a latch without going on from the header is the header, or leads to it past the
header. -/
theorem Linked.back_iff (h : g.Linked) {header latch : Nat} :
    v = header ∨ Relation.ReflTransGen (fun a c => a ≠ header ∧ c ∈ g.previousOf a) latch v ↔
      v = header ∨ g.Bypasses header v latch := by
  by_cases hv : v = header
  · simp [hv]
  · simp only [hv, false_or, Bypasses, ne_eq, not_false_eq_true, true_and]
    constructor
    · intro hpath
      induction hpath with
      | refl => exact .refl
      | @tail a c _ hstep ih =>
        exact .head ⟨(h.previous c a).2 hstep.2, hv, hstep.1⟩ (ih hstep.1)
    · intro hpath
      induction hpath using Relation.ReflTransGen.head_induction_on with
      | refl => exact .refl
      | @head a c hstep _ ih =>
        exact .tail (ih hstep.2.2) ⟨hstep.2.2, (h.previous a c).1 hstep.1⟩

/-- What is found backwards from a latch is the header and what leads to the latch past it. -/
theorem Linked.mem_towards (h : g.Linked) (hsound : g.Sound) {header latch : Nat}
    (hlatch : g.hasVertex latch = true) :
    v ∈ g.towards header latch ↔ v = header ∨ g.Bypasses header v latch :=
  (hsound.mem_towards_iff hlatch).trans h.back_iff

section Loops

variable {loops : List Loop} {retreating : List Ends} {l : Loop}

/-- A retreating edge leads from a vertex along an edge. -/
theorem Linked.hasEdge_of_retreating (h : g.Linked)
    (hretreating : g.retreatingEdges root = .ok retreating) {head tail : Nat}
    (hedge : ⟨head, tail⟩ ∈ retreating) :
    g.hasVertex head = true ∧ g.hasEdge head tail = true := by
  obtain ⟨order, horder⟩ := exists_order hretreating
  obtain ⟨hhead, -, htail, -⟩ := (mem_retreatingEdges horder hretreating).1 hedge
  exact ⟨mem_indices.1 hhead, (h.next head tail).2 htail⟩

/-- What a loop has: the header, and what it reaches and from where a latch is reached past it. -/
theorem Linked.mem_loop_iff (h : g.Linked) (hsound : g.Sound)
    (hretreating : g.retreatingEdges root = .ok retreating) (hof : g.LoopsOf retreating loops)
    (hl : l ∈ loops) :
    v ∈ l.nodes ↔ v = l.header ∨ (g.Connects l.header v ∧
      ∃ latch, ⟨latch, l.header⟩ ∈ retreating ∧ g.Bypasses l.header v latch) := by
  obtain ⟨-, latch, hlatch⟩ := hof.mem_headers_iff.1 ⟨l, hl, rfl⟩
  obtain ⟨vs, hvs, hnodes⟩ := hof.nodes l hl
  have hvertex : ∀ {latch}, ⟨latch, l.header⟩ ∈ retreating → g.hasVertex latch = true :=
    fun hedge => (h.hasEdge_of_retreating hretreating hedge).1
  rw [hnodes, hsound.mem_reachable_iff hvs, ← h.connects_eq]
  constructor
  · rintro ⟨hreach, latch, hedge, htowards⟩
    rcases (h.mem_towards hsound (hvertex hedge)).1 htowards with rfl | hpath
    · exact .inl rfl
    · exact .inr ⟨hreach, latch, hedge, hpath⟩
  · rintro (rfl | ⟨hreach, latch, hedge, hpath⟩)
    · exact ⟨.refl, latch, hlatch, (h.mem_towards hsound (hvertex hlatch)).2 (.inl rfl)⟩
    · exact ⟨hreach, latch, hedge, (h.mem_towards hsound (hvertex hedge)).2 (.inr hpath)⟩

/-- The vertices of a loop lie on ways from its header back to it. -/
theorem Linked.connects_of_mem_loop (h : g.Linked) (hsound : g.Sound)
    (hloops : g.loops root = .ok loops) (hl : l ∈ loops) (hv : v ∈ l.nodes) :
    g.Connects l.header v ∧ g.Connects v l.header := by
  obtain ⟨-, retreating, -, hretreating, hof⟩ := loops_ok hloops
  rcases (h.mem_loop_iff hsound hretreating hof hl).1 hv with rfl | ⟨hreach, latch, hedge, hpath⟩
  · exact ⟨.refl, .refl⟩
  · exact ⟨hreach, .tail hpath.connects (h.hasEdge_of_retreating hretreating hedge).2⟩

end Loops

/-! ## Going around -/

/-- The vertex at which one is after a number of steps around a closed walk. -/
def around (walk : List Nat) (i : Nat) : Nat := walk[i % walk.length]?.getD 0

theorem getElem?_around (hne : walk ≠ []) (i : Nat) :
    walk[i % walk.length]? = some (around walk i) := by
  have hlt : i % walk.length < walk.length := Nat.mod_lt _ (List.length_pos_iff.2 hne)
  rw [around, List.getElem?_eq_getElem hlt, Option.getD_some]

theorem around_mem (hne : walk ≠ []) (i : Nat) : around walk i ∈ walk :=
  List.mem_of_getElem? (getElem?_around hne i)

/-- Every vertex of the walk comes again and again. -/
theorem frequently_around (hv : v ∈ walk) : ∃ᶠ i in atTop, around walk i = v := by
  obtain ⟨k, hk⟩ := List.getElem?_of_mem hv
  have hlt : k < walk.length := (List.getElem?_eq_some_iff.1 hk).1
  refine frequently_atTop.2 fun n => ⟨k + walk.length * n, ?_, ?_⟩
  · calc n ≤ walk.length * n := Nat.le_mul_of_pos_left n (by omega)
      _ ≤ k + walk.length * n := Nat.le_add_left _ _
  · rw [around, Nat.add_mul_mod_self_left, Nat.mod_eq_of_lt hlt, hk, Option.getD_some]

/-- Each step around a closed walk is along an edge. -/
theorem ClosedWalk.hasEdge_around (h : g.ClosedWalk walk) (i : Nat) :
    g.hasEdge (around walk i) (around walk (i + 1)) = true := by
  obtain ⟨hne, hchain⟩ := h
  have hlt : i % walk.length < walk.length := Nat.mod_lt _ (List.length_pos_iff.2 hne)
  -- the walk with its first vertex once more at its end
  obtain ⟨closed, hclosed⟩ : ∃ closed, closed = walk ++ walk.head?.toList := ⟨_, rfl⟩
  have hlength : closed.length = walk.length + 1 := by
    rw [hclosed, List.length_append, List.head?_eq_some_head hne]
    rfl
  have hhere : closed[i % walk.length]? = some (around walk i) := by
    rw [hclosed, List.getElem?_append_left hlt, getElem?_around hne]
  have hnext : closed[i % walk.length + 1]? = some (around walk (i + 1)) := by
    rw [← getElem?_around hne, hclosed]
    by_cases hlast : i % walk.length + 1 = walk.length
    · have hmod : (i + 1) % walk.length = 0 := by
        rw [← Nat.mod_add_mod, hlast, Nat.mod_self]
      rw [hlast, hmod, List.getElem?_append_right le_rfl, Nat.sub_self,
        ← List.head?_eq_getElem?, ← List.head?_eq_getElem?]
      cases walk.head? <;> rfl
    · have hmod : (i + 1) % walk.length = i % walk.length + 1 := by
        rw [← Nat.mod_add_mod, Nat.mod_eq_of_lt (by omega)]
      rw [hmod, List.getElem?_append_left (by omega)]
  have hstep := List.isChain_iff_getElem.1 (hclosed ▸ hchain) (i % walk.length) (by omega)
  rw [List.getElem?_eq_some_iff] at hhere hnext
  rwa [hhere.2, hnext.2] at hstep

/-- A closed walk among vertices that are reachable from a root passes through the header of a loop
that has all its vertices, and no vertex but those on ways from the header back to it. -/
theorem closedWalk_covered [DecidableEq L] (hbuilt : g.Built) (hwalk : g.ClosedWalk walk)
    (hreach : ∀ v ∈ walk, g.Connects root v) :
    ∃ loops, g.loops root = .ok loops ∧ ∃ l ∈ loops, l.header ∈ walk ∧ (∀ v ∈ walk, v ∈ l.nodes) ∧
      ∀ v ∈ l.nodes, g.Connects l.header v ∧ g.Connects v l.header := by
  obtain ⟨hsound, hlinked⟩ := hbuilt.sound
  rw [hlinked.connects_eq] at hreach
  have hnext : ∀ i, around walk (i + 1) ∈ g.nextOf (around walk i) :=
    fun i => (hlinked.next _ _).1 (hwalk.hasEdge_around i)
  have hstart : g.Reaches root (around walk 0) := hreach _ (around_mem hwalk.1 0)
  have hroot : g.hasVertex root = true := by
    rcases hstart.cases_head with heq | ⟨next, hfirst, -⟩
    · exact heq ▸ hsound.hasVertex_of_next (hnext 0)
    · exact hsound.hasVertex_of_next hfirst
  obtain ⟨loops, hloops⟩ := exists_loops hroot
  obtain ⟨header, ⟨l, hl, rfl⟩, hagain, hkeeps⟩ := hsound.exists_loop hroot hloops hstart hnext
  refine ⟨loops, hloops, l, hl, ?_, fun v hv => ?_,
    fun v hv => hlinked.connects_of_mem_loop hsound hloops hl hv⟩
  · obtain ⟨i, hi⟩ := hagain.exists
    exact hi ▸ around_mem hwalk.1 i
  · -- after some time the walk is in the loop, and then it comes to the vertex once more
    obtain ⟨i, hi, hmem⟩ := ((frequently_around hv).and_eventually (hkeeps l hl rfl)).exists
    exact hi ▸ hmem

/-- The graph with vertices up to a number and with edges between them. -/
def ofEnds (n : Nat) (edges : List Ends) : Graph Unit Unit :=
  edges.foldl (fun g e => (g.insertEdge ⟨e.head, e.tail, ()⟩).toOption.getD g)
    ((List.range n).foldl (fun g v => (g.insertVertex v ()).toOption.getD g) empty)

theorem built_ofEnds (n : Nat) (edges : List Ends) : (ofEnds n edges).Built := by
  refine List.foldlRecOn edges _ (List.foldlRecOn (List.range n) _ .empty fun g hg v _ => ?_)
    fun g hg e _ => ?_
  · cases hinsert : g.insertVertex v () with
    | error _ => exact hg
    | ok g' => exact .insertVertex hg hinsert
  · cases hinsert : g.insertEdge ⟨e.head, e.tail, ()⟩ with
    | error _ => exact hg
    | ok g' => exact .insertEdge hg hinsert

/-- Two ways lead into a cycle of two vertices, on which another cycle hangs. -/
def entangled : Graph Unit Unit :=
  ofEnds 4 [⟨0, 1⟩, ⟨0, 2⟩, ⟨1, 2⟩, ⟨2, 1⟩, ⟨2, 3⟩, ⟨3, 2⟩]

theorem closedWalk_covered_entangled : entangled.Built ∧ entangled.ClosedWalk [1, 2, 3, 2] ∧
    (∀ v ∈ [1, 2, 3, 2], entangled.Connects 0 v) ∧
    ∃ loops, entangled.loops 0 = .ok loops ∧ ∃ l ∈ loops, l.header ∈ [1, 2, 3, 2] ∧
      (∀ v ∈ [1, 2, 3, 2], v ∈ l.nodes) ∧
      ∀ v ∈ l.nodes, entangled.Connects l.header v ∧ entangled.Connects v l.header := by
  have hbuilt : entangled.Built := built_ofEnds _ _
  have hwalk : entangled.ClosedWalk [1, 2, 3, 2] := by decide
  have hone : entangled.Connects 0 1 := .single (by decide)
  have htwo : entangled.Connects 0 2 := .single (by decide)
  have hthree : entangled.Connects 0 3 := .tail htwo (by decide)
  have hreach : ∀ v ∈ [1, 2, 3, 2], entangled.Connects 0 v := by
    simp only [List.forall_mem_cons]
    exact ⟨hone, htwo, hthree, htwo, List.forall_mem_nil _⟩
  exact ⟨hbuilt, hwalk, hreach, closedWalk_covered hbuilt hwalk hreach⟩

end Graph

end Pathwise
