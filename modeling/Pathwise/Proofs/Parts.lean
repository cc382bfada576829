import Pathwise.Proofs.Queries
import Pathwise.Proofs.Shapes

/-!
# Flow graphs and their parts

A flow graph is written as its entry, its blocks and its edges, and is put together again from such
parts. Parts fit together if the blocks have different indices, edges lead from block to block and
differ from one another, and the entry is a block. Fitting parts give a flow graph whose own parts
are the given ones in order; otherwise the first part that does not fit is refused. A flow graph
that is put together from its own parts is the same again, and the next block gets the same index.
-/

namespace Pathwise

/-- A list of which something does not hold has a first item with which it ceases to hold. -/
theorem exists_first {α : Type} {P : List α → Prop} (hnil : P []) {l : List α} (hl : ¬P l) :
    ∃ before a after, l = before ++ a :: after ∧ P before ∧ ¬P (before ++ [a]) := by
  induction l using List.reverseRecOn with
  | nil => exact absurd hnil hl
  | append_singleton l a ih =>
    by_cases hbefore : P l
    · exact ⟨l, a, [], rfl, hbefore, hl⟩
    · obtain ⟨before, b, after, rfl, hfirst⟩ := ih hbefore
      exact ⟨before, b, after ++ [a], by simp, hfirst⟩

/-- A number is one more than the largest of a list, or zero if there is none. -/
def OnePast (numbers : List Nat) (n : Nat) : Prop := ∀ k, k < n ↔ ∃ i ∈ numbers, k ≤ i

/-- The number one past a list is determined by its maximum. -/
theorem OnePast.eq {numbers : List Nat} {n : Nat} (h : OnePast numbers n) :
    n = (numbers.max?.map (· + 1)).getD 0 := by
  cases hmax : numbers.max? with
  | none =>
    rw [List.max?_eq_none_iff] at hmax
    have hzero := h 0
    simp only [hmax, List.not_mem_nil, false_and, exists_false, iff_false] at hzero
    simp
    omega
  | some m =>
    obtain ⟨hm, hle⟩ := List.max?_eq_some_iff.1 hmax
    have hlast := (h m).2 ⟨m, hm, Nat.le_refl _⟩
    have hover := (h (m + 1)).not.2 (by
      rintro ⟨i, hi, hlt⟩
      have := hle i hi
      omega)
    simp only [Option.map_some, Option.getD_some]
    omega

/-- One more number moves it up as far as necessary. -/
theorem OnePast.snoc {numbers : List Nat} {n : Nat} (h : OnePast numbers n) (i : Nat) :
    OnePast (numbers ++ [i]) (max n (i + 1)) := by
  intro k
  simp only [List.mem_append, List.mem_singleton, or_and_right, exists_or, exists_eq_left, ← h k]
  omega

theorem OnePast.unique {numbers : List Nat} {n m : Nat} (h : OnePast numbers n)
    (h' : OnePast numbers m) : n = m := h.eq.trans h'.eq.symm

namespace FlowGraph

variable {g : FlowGraph} {entry : Option Nat} {blocks rest : List Block} {edges : List FlowEdge}

/-- The edges lead from block to block and differ from one another. -/
structure EdgesFit (blocks : List Block) (edges : List FlowEdge) : Prop where
  /-- An edge comes from a block. -/
  head : ∀ e ∈ edges, e.head ∈ blocks.map Block.index
  /-- It leads to a block. -/
  tail : ∀ e ∈ edges, e.tail ∈ blocks.map Block.index
  /-- No two edges agree in both ends and in when they are taken. -/
  nodup : edges.Nodup

/-- The parts of a flow graph fit together. -/
structure Fits (entry : Option Nat) (blocks : List Block) (edges : List FlowEdge) : Prop where
  /-- The blocks have different indices. -/
  nodup : (blocks.map Block.index).Nodup
  /-- The edges fit the blocks. -/
  connected : EdgesFit blocks edges
  /-- The entry is a block. -/
  entered : ∀ index, entry = some index → index ∈ blocks.map Block.index

/-- The first part that does not fit, by what is wrong with it: blocks come before edges and edges
before the entry, and of an edge the head comes before the tail and both before its being new. -/
inductive FirstFault (entry : Option Nat) (blocks : List Block) (edges : List FlowEdge) :
    GraphError → Prop where
  /-- A block has the index of an earlier one. -/
  | block {before after : List Block} {b : Block} (hblocks : blocks = before ++ b :: after)
    (hbefore : (before.map Block.index).Nodup) (htaken : b.index ∈ before.map Block.index) :
    FirstFault entry blocks edges (.duplicateVertex b.index)
  /-- An edge comes from no block. -/
  | head {before after : List FlowEdge} {e : FlowEdge} (hblocks : (blocks.map Block.index).Nodup)
    (hedges : edges = before ++ e :: after) (hbefore : EdgesFit blocks before)
    (hhead : e.head ∉ blocks.map Block.index) :
    FirstFault entry blocks edges (.vertexNotFound e.head)
  /-- An edge leads to no block. -/
  | tail {before after : List FlowEdge} {e : FlowEdge} (hblocks : (blocks.map Block.index).Nodup)
    (hedges : edges = before ++ e :: after) (hbefore : EdgesFit blocks before)
    (hhead : e.head ∈ blocks.map Block.index) (htail : e.tail ∉ blocks.map Block.index) :
    FirstFault entry blocks edges (.vertexNotFound e.tail)
  /-- An edge is the same as an earlier one. -/
  | edge {before after : List FlowEdge} {e : FlowEdge} (hblocks : (blocks.map Block.index).Nodup)
    (hedges : edges = before ++ e :: after) (hbefore : EdgesFit blocks before)
    (hhead : e.head ∈ blocks.map Block.index) (htail : e.tail ∈ blocks.map Block.index)
    (hold : e ∈ before) : FirstFault entry blocks edges (.duplicateEdge e.head e.tail)
  /-- The entry is no block. -/
  | entry {index : Nat} (hblocks : (blocks.map Block.index).Nodup)
    (hedges : EdgesFit blocks edges) (hentry : entry = some index)
    (hindex : index ∉ blocks.map Block.index) :
    FirstFault entry blocks edges (.vertexNotFound index)

/-- Another edge between blocks fits if it is new. -/
theorem EdgesFit.snoc {before : List FlowEdge} {e : FlowEdge} (h : EdgesFit blocks before)
    (hhead : e.head ∈ blocks.map Block.index) (htail : e.tail ∈ blocks.map Block.index)
    (hnew : e ∉ before) : EdgesFit blocks (before ++ [e]) where
  head := by
    intro c hc
    rcases List.mem_append.1 hc with hc | hc
    · exact h.head c hc
    · exact List.mem_singleton.1 hc ▸ hhead
  tail := by
    intro c hc
    rcases List.mem_append.1 hc with hc | hc
    · exact h.tail c hc
    · exact List.mem_singleton.1 hc ▸ htail
  nodup := List.concat_eq_append ▸ h.nodup.concat hnew

/-- Parts fit together or there is a first one that does not. -/
theorem fits_or_fault (entry : Option Nat) (blocks : List Block) (edges : List FlowEdge) :
    Fits entry blocks edges ∨ ∃ e, FirstFault entry blocks edges e := by
  by_cases hblocks : (blocks.map Block.index).Nodup
  · by_cases hedges : EdgesFit blocks edges
    · by_cases hentry : ∀ index, entry = some index → index ∈ blocks.map Block.index
      · exact .inl ⟨hblocks, hedges, hentry⟩
      · obtain ⟨index, hindex⟩ := not_forall.1 hentry
        obtain ⟨hsome, hnot⟩ := Classical.not_imp.1 hindex
        exact .inr ⟨_, .entry hblocks hedges hsome hnot⟩
    · right
      obtain ⟨before, e, after, hsplit, hbefore, hfirst⟩ := exists_first (P := EdgesFit blocks)
        ⟨by simp, by simp, List.nodup_nil⟩ hedges
      by_cases hhead : e.head ∈ blocks.map Block.index
      · by_cases htail : e.tail ∈ blocks.map Block.index
        · by_cases hold : e ∈ before
          · exact ⟨_, .edge hblocks hsplit hbefore hhead htail hold⟩
          · exact absurd (hbefore.snoc hhead htail hold) hfirst
        · exact ⟨_, .tail hblocks hsplit hbefore hhead htail⟩
      · exact ⟨_, .head hblocks hsplit hbefore hhead⟩
  · obtain ⟨before, b, after, hsplit, hbefore, hfirst⟩ := exists_first
      (P := fun blocks : List Block => (blocks.map Block.index).Nodup) List.nodup_nil hblocks
    have htaken : b.index ∈ before.map Block.index := by
      by_contra hfree
      refine hfirst ?_
      rw [List.map_append]
      exact List.concat_eq_append ▸ hbefore.concat hfree
    exact .inr ⟨_, .block hsplit hbefore htaken⟩

/-! ## Putting parts in -/

/-- The vertices of a loaded graph are the indices of its blocks. -/
theorem hasVertex_iff_of_block
    (hblock : ∀ index b, g.graph.vertices.get? index = some b ↔ b ∈ blocks ∧ b.index = index)
    {index : Nat} : g.graph.hasVertex index = true ↔ index ∈ blocks.map Block.index := by
  rw [Graph.hasVertex, SortedMap.contains_iff, List.mem_map]
  simp only [hblock]

/-- A flow graph has the blocks and edges that were put in, in this order. -/
structure Loaded (g : FlowGraph) (blocks : List Block) (edges : List FlowEdge) : Prop where
  /-- It was built. -/
  built : g.Built
  /-- It has the edges. -/
  keeps : g.graph.Keeps edges
  /-- It has the blocks, each at its index. -/
  block : ∀ index b, g.graph.vertices.get? index = some b ↔ b ∈ blocks ∧ b.index = index
  /-- The next block comes behind all others. -/
  next : OnePast (blocks.map Block.index) g.nextIndex

namespace Loaded

theorem empty : FlowGraph.empty.Loaded [] [] where
  built := .empty
  keeps := Graph.empty_keeps
  block := by simp [FlowGraph.empty, Graph.empty]
  next := by simp [OnePast, FlowGraph.empty]

theorem hasVertex_iff (h : g.Loaded blocks edges) {index : Nat} :
    g.graph.hasVertex index = true ↔ index ∈ blocks.map Block.index :=
  hasVertex_iff_of_block h.block

/-- A block can be added to what has been loaded. -/
theorem insertBlock (h : g.Loaded blocks edges) {b : Block} {graph : Graph Block Transfer}
    (hinsert : g.graph.insertVertex b.index b = .ok graph) :
    Loaded { g with graph := graph, nextIndex := max g.nextIndex (b.index + 1) } (blocks ++ [b])
      edges where
  built := .insertBlock h.built hinsert
  keeps := h.keeps.insertVertex hinsert
  block := by
    intro index c
    obtain ⟨hfree, rfl⟩ := Graph.insertVertex_ok hinsert
    dsimp only
    rw [SortedMap.get?_insert_eq]
    by_cases hindex : index = b.index
    · have hnone : ∀ d ∈ blocks, d.index ≠ index := by
        intro d hd hdindex
        have hvertex := h.hasVertex_iff.2 (List.mem_map.2 ⟨d, hd, hdindex.trans hindex⟩)
        simp [hfree] at hvertex
      rw [if_pos hindex, Option.some.injEq, List.mem_append, List.mem_singleton]
      constructor
      · rintro rfl
        exact ⟨.inr rfl, hindex.symm⟩
      · rintro ⟨hc | rfl, hcindex⟩
        · exact absurd hcindex (hnone c hc)
        · rfl
    · rw [if_neg hindex, h.block, List.mem_append, List.mem_singleton]
      refine and_congr_left fun hcindex => (or_iff_left ?_).symm
      rintro rfl
      exact hindex hcindex.symm
  next := by
    rw [List.map_append]
    exact h.next.snoc b.index

/-- So can an edge. -/
theorem insertEdge (h : g.Loaded blocks edges) {e : FlowEdge} {graph : Graph Block Transfer}
    (hinsert : g.graph.insertEdge e = .ok graph) :
    Loaded { g with graph := graph } blocks (edges ++ [e]) where
  built := by
    have hconnect : g.connect e.head e.tail e.label = .ok { g with graph := graph } := by
      simp [FlowGraph.connect, hinsert, Except.map]
    exact .connect h.built hconnect
  keeps := h.keeps.insertEdge hinsert
  block := by
    obtain ⟨-, -, -, rfl⟩ := Graph.insertEdge_ok hinsert
    exact h.block
  next := h.next

/-- Blocks with different indices are put in. -/
theorem insertBlocks (h : g.Loaded blocks edges)
    (hnodup : ((blocks ++ rest).map Block.index).Nodup) :
    ∃ g', g.insertBlocks rest = .ok g' ∧ g'.Loaded (blocks ++ rest) edges ∧ g'.entry = g.entry := by
  induction rest generalizing g blocks with
  | nil => exact ⟨g, rfl, by simpa using h, rfl⟩
  | cons b rest ih =>
    have hfree : g.graph.hasVertex b.index = false := by
      rw [Bool.eq_false_iff, ne_eq, h.hasVertex_iff]
      rw [List.map_append, List.nodup_append] at hnodup
      exact fun hmem => hnodup.2.2 _ hmem b.index (by simp) rfl
    obtain ⟨graph, hinsert⟩ : ∃ graph, g.graph.insertVertex b.index b = .ok graph := by
      simp [Graph.insertVertex, hfree]
    obtain ⟨g', hrest, hloaded, hentry⟩ := ih (h.insertBlock hinsert) (by simpa using hnodup)
    refine ⟨g', ?_, by simpa using hloaded, hentry⟩
    rw [FlowGraph.insertBlocks, hinsert]
    exact hrest

/-- Edges that fit the blocks are put in. -/
theorem insertEdges {more : List FlowEdge} (h : g.Loaded blocks edges)
    (hfits : EdgesFit blocks (edges ++ more)) :
    ∃ g', g.insertEdges more = .ok g' ∧ g'.Loaded blocks (edges ++ more) ∧ g'.entry = g.entry := by
  induction more generalizing g edges with
  | nil => exact ⟨g, rfl, by simpa using h, rfl⟩
  | cons e more ih =>
    have hhead := h.hasVertex_iff.2 (hfits.head e (by simp))
    have htail := h.hasVertex_iff.2 (hfits.tail e (by simp))
    have hnew : e.label ∉ (g.graph.parallel.get? ⟨e.head, e.tail⟩).getD [] := by
      rw [h.keeps.label_mem_iff]
      exact fun hold => (List.nodup_append.1 hfits.nodup).2.2 e hold e (by simp) rfl
    obtain ⟨graph, hinsert⟩ : ∃ graph, g.graph.insertEdge e = .ok graph := by
      simp [Graph.insertEdge, hhead, htail, hnew]
    obtain ⟨g', hrest, hloaded, hentry⟩ := ih (h.insertEdge hinsert) (by simpa using hfits)
    refine ⟨g', ?_, by simpa using hloaded, hentry⟩
    rw [FlowGraph.insertEdges, hinsert]
    exact hrest

end Loaded

/-- Blocks and edges that fit are put in. -/
theorem exists_loaded (hblocks : (blocks.map Block.index).Nodup) (hedges : EdgesFit blocks edges) :
    ∃ withBlocks withEdges, FlowGraph.empty.insertBlocks blocks = .ok withBlocks ∧
      withBlocks.insertEdges edges = .ok withEdges ∧ withEdges.Loaded blocks edges ∧
      withEdges.entry = none := by
  obtain ⟨withBlocks, hinsert, hloaded, hnone⟩ := Loaded.empty.insertBlocks (by simpa using hblocks)
  obtain ⟨withEdges, hinsert', hloaded, hnone'⟩ := hloaded.insertEdges (by simpa using hedges)
  rw [List.nil_append, List.nil_append] at hloaded
  exact ⟨withBlocks, withEdges, hinsert, hinsert', hloaded, hnone'.trans hnone⟩

/-- Fitting parts are put together. -/
theorem Fits.loaded (h : Fits entry blocks edges) :
    ∃ g, ofParts entry blocks edges = .ok g ∧ g.Loaded blocks edges ∧ g.entry = entry := by
  obtain ⟨withBlocks, withEdges, hblocks, hedges, hloaded, hnone⟩ :=
    exists_loaded h.nodup h.connected
  simp only [ofParts, hblocks, hedges, bind, Except.bind]
  cases hentry : entry with
  | none => exact ⟨withEdges, rfl, hloaded, hnone⟩
  | some index =>
    have hset : withEdges.setEntry index = .ok { withEdges with entry := some index } :=
      if_pos (hloaded.hasVertex_iff.2 (h.entered index hentry))
    exact ⟨_, hset, ⟨.setEntry hloaded.built hset, hloaded.keeps, hloaded.block, hloaded.next⟩, rfl⟩

/-- Blocks can be inserted in two goes. -/
theorem insertBlocks_append (g : FlowGraph) (blocks rest : List Block) :
    g.insertBlocks (blocks ++ rest) = (g.insertBlocks blocks).bind (·.insertBlocks rest) := by
  induction blocks generalizing g with
  | nil => rfl
  | cons b blocks ih =>
    rw [List.cons_append, insertBlocks, insertBlocks]
    cases g.graph.insertVertex b.index b with
    | ok graph => exact ih _
    | error e => rfl

/-- So can edges. -/
theorem insertEdges_append (g : FlowGraph) (edges rest : List FlowEdge) :
    g.insertEdges (edges ++ rest) = (g.insertEdges edges).bind (·.insertEdges rest) := by
  induction edges generalizing g with
  | nil => rfl
  | cons e edges ih =>
    rw [List.cons_append, insertEdges, insertEdges]
    cases g.graph.insertEdge e with
    | ok graph => exact ih _
    | error e => rfl

/-- An edge behind fitting ones is refused for what the graph says of it. -/
theorem ofParts_refused_edge {before after : List FlowEdge} {e : FlowEdge} {err : GraphError}
    (hblocks : (blocks.map Block.index).Nodup) (hbefore : EdgesFit blocks before)
    (herror : ∀ g : FlowGraph, g.Loaded blocks before → g.graph.insertEdge e = .error err) :
    ofParts entry blocks (before ++ e :: after) = .error err := by
  obtain ⟨withBlocks, withEdges, hblocks, hedges, hloaded, -⟩ := exists_loaded hblocks hbefore
  have hrefused : withBlocks.insertEdges (before ++ e :: after) = .error err := by
    rw [insertEdges_append, hedges, Except.bind, insertEdges, herror withEdges hloaded]
  simp only [ofParts, hblocks, hrefused, bind, Except.bind]

/-- The first part that does not fit is refused. -/
theorem FirstFault.refused {err : GraphError} (h : FirstFault entry blocks edges err) :
    ofParts entry blocks edges = .error err := by
  cases h with
  | @block before after b hblocks hbefore htaken =>
    subst hblocks
    obtain ⟨g, hinsert, hloaded, -⟩ := Loaded.empty.insertBlocks (by simpa using hbefore)
    rw [List.nil_append] at hloaded
    have hvertex := hloaded.hasVertex_iff.2 htaken
    have hrefused : FlowGraph.empty.insertBlocks (before ++ b :: after) =
        .error (.duplicateVertex b.index) := by
      rw [insertBlocks_append, hinsert, Except.bind, insertBlocks, Graph.insertVertex, hvertex]
      rfl
    simp only [ofParts, hrefused, bind, Except.bind]
  | head hblocks hedges hbefore hhead =>
    subst hedges
    refine ofParts_refused_edge hblocks hbefore fun g hloaded => ?_
    have hmissing := hloaded.hasVertex_iff.not.2 hhead
    simp [Graph.insertEdge, hmissing]
  | tail hblocks hedges hbefore hhead htail =>
    subst hedges
    refine ofParts_refused_edge hblocks hbefore fun g hloaded => ?_
    have hvertex := hloaded.hasVertex_iff.2 hhead
    have hmissing := hloaded.hasVertex_iff.not.2 htail
    simp [Graph.insertEdge, hvertex, hmissing]
  | edge hblocks hedges hbefore hhead htail hold =>
    subst hedges
    refine ofParts_refused_edge hblocks hbefore fun g hloaded => ?_
    have hvertex := hloaded.hasVertex_iff.2 hhead
    have hvertex' := hloaded.hasVertex_iff.2 htail
    have hlabel := hloaded.keeps.label_mem_iff.2 hold
    simp [Graph.insertEdge, hvertex, hvertex', hlabel]
  | entry hblocks hedges hentry hindex =>
    obtain ⟨withBlocks, withEdges, hblocks, hedges, hloaded, -⟩ := exists_loaded hblocks hedges
    have hmissing := hloaded.hasVertex_iff.not.2 hindex
    simp [ofParts, hblocks, hedges, hentry, setEntry, hmissing, bind, Except.bind]

/-! ## Taking a flow graph apart -/

/-- The blocks of a flow graph are those that were put in, by index. -/
theorem Loaded.blocks_eq (h : g.Loaded blocks edges) (hnodup : (blocks.map Block.index).Nodup) :
    g.blocks = blocks.mergeSort (keyLE Block.index) := by
  have hmem : ∀ b, b ∈ g.blocks ↔ b ∈ blocks := by
    intro b
    rw [FlowGraph.blocks, SortedMap.mem_values]
    simp [h.block]
  have hincreasing := h.built.sound.blocks_increasing
  have hdistinct : g.blocks.Nodup := by
    refine hincreasing.imp fun {a b} hlt heq => ?_
    simp [heq] at hlt
  have hperm : g.blocks.Perm blocks :=
    (List.perm_ext_iff_of_nodup hdistinct hnodup.of_map).2 hmem
  refine List.Perm.eq_of_pairwise ?_ (hincreasing.imp fun {a b} hlt => ?_)
    (List.pairwise_mergeSort keyLE_trans keyLE_total blocks)
    (hperm.trans (List.mergeSort_perm blocks _).symm)
  · intro a b ha hb hab hba
    have hindex : a.index = b.index :=
      Std.LawfulEqCmp.eq_of_compare (Std.OrientedCmp.isLE_antisymm hab hba)
    exact List.inj_on_of_nodup_map hnodup ((hmem a).1 ha) (List.mem_mergeSort.1 hb) hindex
  · exact Ordering.isLE_of_eq_lt (Nat.compare_eq_lt.2 hlt)

/-- A flow graph is known by its blocks, its edges and its entry. -/
theorem Loaded.unique {g' : FlowGraph} (h : g.Loaded blocks edges) (h' : g'.Loaded blocks edges)
    (hentry : g.entry = g'.entry) : g = g' := by
  have hvertices : g.graph.vertices = g'.graph.vertices := by
    refine SortedMap.ext_get? fun index => Option.ext fun b => ?_
    rw [h.block, h'.block]
  have hedges : g.graph.edges = g'.graph.edges := h.keeps.edges_eq.trans h'.keeps.edges_eq.symm
  have hgraph : g.graph = g'.graph := h.keeps.eq_of_edges h'.keeps h.built.sound.graph
    h'.built.sound.graph h.built.linked h'.built.linked hvertices hedges
  have hnext : g.nextIndex = g'.nextIndex := h.next.unique h'.next
  cases g
  cases g'
  cases hgraph
  cases hnext
  cases hentry
  rfl

/-- Parts are put together exactly if they fit. The flow graph then has the given entry, the given
blocks sorted by index and the given edges sorted by head and tail, parallel ones in their order,
and the next block comes right behind the last one. Otherwise the first part that does not fit is
refused, and it is said what is wrong with it. -/
theorem parts_decoded_exactly (entry : Option Nat) (blocks : List Block) (edges : List FlowEdge) :
    ((∃ g, ofParts entry blocks edges = .ok g) ↔ Fits entry blocks edges) ∧
      (∀ g, ofParts entry blocks edges = .ok g →
        g.entry = entry ∧ g.blocks = blocks.mergeSort (keyLE Block.index) ∧
        g.edges = edges.mergeSort (keyLE Edge.ends) ∧
        g.nextIndex = ((blocks.map Block.index).max?.map (· + 1)).getD 0) ∧
      ∀ err, ofParts entry blocks edges = .error err ↔ FirstFault entry blocks edges err := by
  rcases fits_or_fault entry blocks edges with hfits | ⟨err, hfault⟩
  · obtain ⟨g, hparts, hloaded, hentry⟩ := hfits.loaded
    refine ⟨⟨fun _ => hfits, fun _ => ⟨g, hparts⟩⟩, fun g' hg' => ?_, fun err => ⟨fun herror => ?_,
      FirstFault.refused⟩⟩
    · obtain rfl : g = g' := Except.ok.inj (hparts.symm.trans hg')
      exact ⟨hentry, hloaded.blocks_eq hfits.nodup, hloaded.keeps.edges_eq, hloaded.next.eq⟩
    · rw [hparts] at herror
      cases herror
  · have hrefused := hfault.refused
    have hnone : ∀ g, ofParts entry blocks edges ≠ .ok g := by
      intro g hg
      rw [hrefused] at hg
      cases hg
    refine ⟨⟨fun hok => ?_, fun hfits => ?_⟩, fun g hg => absurd hg (hnone g),
      fun err' => ⟨fun herror => ?_, FirstFault.refused⟩⟩
    · obtain ⟨g, hg⟩ := hok
      exact absurd hg (hnone g)
    · obtain ⟨g, hparts, -⟩ := hfits.loaded
      exact absurd hparts (hnone g)
    · obtain rfl : err = err' := Except.error.inj (hrefused.symm.trans herror)
      exact hfault

end FlowGraph

end Pathwise
