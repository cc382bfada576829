import Pathwise.Proofs.Queries

/-!
# What can be reached

From a vertex one gets along edges to other vertices, each edge starting where the one before it
ends. The vertices that are found from a root are those to which such a path leads, the root among
them, and none else, however the edges run in cycles. The successors of whatever is found are known
and found, too, so that nothing is missing on the way.
-/

namespace Pathwise.Graph

variable {V L : Type} {g : Graph V L} {put : List (Edge L)} {root v : Nat}

/-- A path goes along edges of the graph, each of which starts where the one before it ends. -/
inductive Path (g : Graph V L) : Nat → List (Edge L) → Nat → Prop where
  /-- Without an edge one stays where one is. -/
  | stay (v : Nat) : Path g v [] v
  /-- The first edge leads to where the rest starts. -/
  | along {e : Edge L} {rest : List (Edge L)} {v : Nat} (he : e ∈ g.edges)
    (hrest : Path g e.tail rest v) : Path g e.head (e :: rest) v

/-- Edges lead from one vertex to another exactly if there is a path. -/
theorem Keeps.connects_iff_path (h : g.Keeps put) :
    g.Connects root v ↔ ∃ path, g.Path root path v := by
  constructor
  · intro hconnects
    induction hconnects using Relation.ReflTransGen.head_induction_on with
    | refl => exact ⟨[], .stay v⟩
    | head hedge _ ih =>
      obtain ⟨e, he, rfl, rfl⟩ := h.hasEdge_iff.1 hedge
      obtain ⟨rest, hrest⟩ := ih
      exact ⟨e :: rest, .along he hrest⟩
  · rintro ⟨path, hpath⟩
    induction hpath with
    | stay => exact .refl
    | along he _ ih => exact .head (h.hasEdge_iff.2 ⟨_, he, rfl, rfl⟩) ih

/-- The look-up of the successors of a vertex succeeds. -/
theorem Sound.successors_eq (h : g.Sound) (hvertex : g.hasVertex v = true) :
    g.successors v = .ok (g.nextOf v) := by
  obtain ⟨set, hset⟩ := Option.isSome_iff_exists.1 ((h.outgoing v).trans hvertex)
  rw [successors, nextOf, hset]

theorem reachable_error (hroot : g.hasVertex root = false) :
    g.reachable root = .error (.vertexNotFound root) := by
  simp [reachable, hroot]

/-- From a vertex something is found, in increasing order. -/
theorem exists_reachable (hroot : g.hasVertex root = true) :
    ∃ vs, g.reachable root = .ok vs ∧ vs.Pairwise (· < ·) :=
  ⟨_, if_pos hroot, g.vertices.keys_increasing.filter _⟩

/-- Whatever changes have been asked of a graph: from an index without a vertex nothing can be
found, and from a vertex just those vertices are found, each once and in increasing order, to which
a path leads. The successors of each of them are looked up with success and are found. -/
theorem reachable_iff_path [DecidableEq L] (changes : List (Change V L)) (root : Nat) :
    let g := (Grown.after changes).graph
    (g.hasVertex root = false → g.reachable root = .error (.vertexNotFound root)) ∧
      (g.hasVertex root = true → ∃ vs, g.reachable root = .ok vs ∧ vs.Pairwise (· < ·) ∧
        (∀ v, v ∈ vs ↔ ∃ path, g.Path root path v) ∧
        ∀ v ∈ vs, g.hasVertex v = true ∧
          ∃ tails, g.successors v = .ok tails ∧ ∀ tail ∈ tails, tail ∈ vs) := by
  intro g
  obtain ⟨hsound, hlinked, hkeeps⟩ := Grown.tidy_after changes
  refine ⟨reachable_error, fun hroot => ?_⟩
  obtain ⟨vs, hvs, hincreasing⟩ := exists_reachable hroot
  have hmem : ∀ v, v ∈ vs ↔ g.Reaches root v := fun v => hsound.mem_reachable_iff hvs
  refine ⟨vs, hvs, hincreasing, fun v => ?_, fun v hv => ?_⟩
  · rw [hmem, ← hlinked.connects_eq, hkeeps.connects_iff_path]
  · have hpath := (hmem v).1 hv
    have hvertex := hsound.hasVertex_of_reaches hroot hpath
    refine ⟨hvertex, g.nextOf v, hsound.successors_eq hvertex, fun tail htail => ?_⟩
    exact (hmem tail).2 (.tail hpath htail)

end Pathwise.Graph
