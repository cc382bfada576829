import Pathwise.Proofs.PostOrder

/-!
# The vertices of a loop

There is one loop for each vertex to which a retreating edge leads, and the loops come in the order
of these headers. A loop has its header and what lies on a way from there to a latch that does not
come back to the header before. Such a way stays in the loop, and so does the rest of it to the
latch and from there to the header: within the loop every vertex leads to every other.
-/

namespace Pathwise.Graph

variable {V L : Type} {g : Graph V L} {root a b : Nat} {retreating : List Ends}
  {loops : List Loop} {l : Loop}

/-- Edges between vertices of a loop lead from one vertex to another. -/
def ConnectsWithin (g : Graph V L) (l : Loop) : Nat → Nat → Prop :=
  Relation.ReflTransGen fun x y => x ∈ l.nodes ∧ y ∈ l.nodes ∧ g.hasEdge x y = true

section Within

variable (hsound : g.Sound) (hlinked : g.Linked)
  (hretreating : g.retreatingEdges root = .ok retreating) (hof : g.LoopsOf retreating loops)
  (hl : l ∈ loops)
include hsound hlinked hretreating hof hl

theorem mem_loop_of_bypasses {latch : Nat} (hlatch : ⟨latch, l.header⟩ ∈ retreating)
    (hreach : g.Connects l.header a) (hpath : g.Bypasses l.header a latch) : a ∈ l.nodes :=
  (hlinked.mem_loop_iff hsound hretreating hof hl).2 (.inr ⟨hreach, latch, hlatch, hpath⟩)

theorem header_mem_loop : l.header ∈ l.nodes :=
  (hlinked.mem_loop_iff hsound hretreating hof hl).2 (.inl rfl)

/-- The header leads to each vertex of the loop within it. -/
theorem connectsWithin_of_header (ha : a ∈ l.nodes) : g.ConnectsWithin l l.header a := by
  rcases (hlinked.mem_loop_iff hsound hretreating hof hl).1 ha with rfl |
    ⟨hreach, latch, hlatch, hpath⟩
  · exact .refl
  · -- the last vertex before this one is the header, or leads to the latch past it as well
    induction hreach with
    | refl => exact .refl
    | @tail x y hx hedge ih =>
      by_cases hxheader : x = l.header
      · subst hxheader
        exact .single ⟨header_mem_loop hsound hlinked hretreating hof hl, ha, hedge⟩
      · have hxpath : g.Bypasses l.header x latch :=
          ⟨hxheader, .head ⟨hedge, hxheader, hpath.1⟩ hpath.2⟩
        have hxmem := mem_loop_of_bypasses hsound hlinked hretreating hof hl hlatch hx hxpath
        exact .tail (ih hxmem hxpath) ⟨hxmem, ha, hedge⟩

/-- Each vertex of the loop leads to the header within it. -/
theorem connectsWithin_to_header (ha : a ∈ l.nodes) : g.ConnectsWithin l a l.header := by
  rcases (hlinked.mem_loop_iff hsound hretreating hof hl).1 ha with rfl |
    ⟨hreach, latch, hlatch, hne, hpath⟩
  · exact .refl
  · -- all vertices on the way to the latch are in the loop, and from the latch an edge leads back
    induction hpath using Relation.ReflTransGen.head_induction_on with
    | refl =>
      exact .single ⟨ha, header_mem_loop hsound hlinked hretreating hof hl,
        (hlinked.hasEdge_of_retreating hretreating hlatch).2⟩
    | @head x y hstep hpath ih =>
      have hyreach : g.Connects l.header y := .tail hreach hstep.1
      have hymem := mem_loop_of_bypasses hsound hlinked hretreating hof hl hlatch hyreach
        ⟨hstep.2.2, hpath⟩
      exact .head ⟨ha, hymem, hstep.1⟩ (ih hymem hyreach hstep.2.2)

end Within

theorem loops_error (hroot : g.hasVertex root = false) :
    g.loops root = .error (.vertexNotFound root) := by
  simp [Graph.loops, retreatingEdges, reversePostOrder, hroot, bind, Except.bind]

/-- The loops of a root are one for each tail of a retreating edge, strictly increasing by header. A
loop has, in increasing order, the header and the vertices that the header reaches and from which
the head of a retreating edge to the header is reached past the header. Within the loop every vertex
leads to every other. Of an index without a vertex there are no loops. -/
theorem loops_hold_their_nodes [DecidableEq L] (hbuilt : g.Built) (root : Nat) :
    (g.hasVertex root = false → g.loops root = .error (.vertexNotFound root)) ∧
    (g.hasVertex root = true → ∃ retreating loops, g.retreatingEdges root = .ok retreating ∧
      g.loops root = .ok loops ∧
      (loops.map (·.header)).Pairwise (· < ·) ∧
      (∀ header, (∃ l ∈ loops, l.header = header) ↔ ∃ latch, ⟨latch, header⟩ ∈ retreating) ∧
      ∀ l ∈ loops, l.nodes.Pairwise (· < ·) ∧
        (∀ n, n ∈ l.nodes ↔ n = l.header ∨ (g.Connects l.header n ∧
          ∃ latch, ⟨latch, l.header⟩ ∈ retreating ∧ g.Bypasses l.header n latch)) ∧
        ∀ a ∈ l.nodes, ∀ b ∈ l.nodes, g.ConnectsWithin l a b) := by
  refine ⟨loops_error, fun hroot => ?_⟩
  obtain ⟨hsound, hlinked⟩ := hbuilt.sound
  obtain ⟨loops, hloops⟩ := exists_loops hroot
  obtain ⟨order, retreating, -, hretreating, hof⟩ := loops_ok hloops
  refine ⟨retreating, loops, hretreating, hloops, ?_, fun header => ?_, fun l hl => ⟨?_, ?_, ?_⟩⟩
  · rw [hof.headers]
    exact g.vertices.keys_increasing.filter _
  · rw [hof.mem_headers_iff, and_iff_right_iff_imp]
    rintro ⟨latch, hlatch⟩
    have hedge := (hlinked.hasEdge_of_retreating hretreating hlatch).2
    exact (hsound.next ((hlinked.next latch header).1 hedge)).1
  · exact g.vertices.keys_increasing.sublist (hof.sublist l hl)
  · exact fun n => hlinked.mem_loop_iff hsound hretreating hof hl
  · intro a ha b hb
    have hup := connectsWithin_to_header hsound hlinked hretreating hof hl ha
    have hdown := connectsWithin_of_header hsound hlinked hretreating hof hl hb
    exact Relation.ReflTransGen.trans hup hdown

/-- Both loops of the cycles with two ways in share their blocks. The root leads to the latch of the
first loop past its header, but is not in it, since the header does not lead to the root. -/
theorem loops_hold_their_nodes_entangled : entangled.Built ∧
    entangled.retreatingEdges 0 = .ok [⟨2, 1⟩, ⟨3, 2⟩] ∧
    entangled.loops 0 = .ok [⟨1, [1, 2, 3]⟩, ⟨2, [2, 3]⟩] ∧
    entangled.Bypasses 1 0 2 ∧ ¬entangled.Connects 1 0 ∧
    entangled.ConnectsWithin ⟨1, [1, 2, 3]⟩ 3 1 ∧ entangled.ConnectsWithin ⟨2, [2, 3]⟩ 3 2 := by
  have hbuilt : entangled.Built := built_ofEnds _ _
  have hedges : entangled.retreatingEdges 0 = .ok [⟨2, 1⟩, ⟨3, 2⟩] := by decide
  have hloops : entangled.loops 0 = .ok [⟨1, [1, 2, 3]⟩, ⟨2, [2, 3]⟩] := by decide
  have hpast : entangled.Bypasses 1 0 2 := ⟨by decide, .single (by decide)⟩
  obtain ⟨retreating, loops, hedges', hloops', -, -, hloop⟩ :=
    (loops_hold_their_nodes hbuilt 0).2 (by decide)
  obtain rfl := Except.ok.inj (hedges.symm.trans hedges')
  obtain rfl := Except.ok.inj (hloops.symm.trans hloops')
  obtain ⟨-, hnodes, hwithin⟩ := hloop ⟨1, [1, 2, 3]⟩ (by decide)
  obtain ⟨-, -, hwithin'⟩ := hloop ⟨2, [2, 3]⟩ (by decide)
  refine ⟨hbuilt, hedges, hloops, hpast, fun hback => ?_, hwithin 3 (by decide) 1 (by decide),
    hwithin' 3 (by decide) 2 (by decide)⟩
  have hmem := (hnodes 0).2 (.inr ⟨hback, 2, by decide, hpast⟩)
  exact absurd hmem (by decide)

end Pathwise.Graph
