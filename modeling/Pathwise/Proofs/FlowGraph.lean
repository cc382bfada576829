import Pathwise.Explore.Plan
import Pathwise.Proofs.SortedMap

/-!
# Flow graphs as they are built

A flow graph that comes from the operations of this library is sound: its blocks stand at their own
indices, the two sets of neighbours agree, edges lead from block to block, and the entry is a block.
An admitted graph then leaves each block in one of the shapes that a run can follow.
-/

namespace Pathwise

/-- The flow graphs that the operations of this library build. A block may be changed in any way
that leaves its index alone. -/
inductive FlowGraph.Built : FlowGraph → Prop where
  /-- The empty graph. -/
  | empty : Built .empty
  /-- A block is put in at its own index. -/
  | insertBlock {g : FlowGraph} {b : Block} {graph : Graph Block Transfer} {n : Nat}
    (h : Built g) (hinsert : g.graph.insertVertex b.index b = .ok graph) :
    Built { g with graph := graph, nextIndex := n }
  /-- The next index is moved. -/
  | advance {g : FlowGraph} {n : Nat} (h : Built g) : Built { g with nextIndex := n }
  /-- A block is changed. -/
  | modifyBlock {g g' : FlowGraph} {index : Nat} {f : Block → Block} (h : Built g)
    (hindex : ∀ b, (f b).index = b.index) (hmodify : g.modifyBlock index f = .ok g') : Built g'
  /-- An edge is added. -/
  | connect {g g' : FlowGraph} {head tail : Nat} {transfer : Transfer} (h : Built g)
    (hconnect : g.connect head tail transfer = .ok g') : Built g'
  /-- A block is made the entry. -/
  | setEntry {g g' : FlowGraph} {index : Nat} (h : Built g) (hset : g.setEntry index = .ok g') :
    Built g'

namespace Graph

variable {V L : Type} {g g' : Graph V L}

/-- The neighbours of vertices agree, and edges lead from vertex to vertex. -/
structure Sound (g : Graph V L) : Prop where
  /-- Exactly the vertices have a set of tails. -/
  outgoing : ∀ v, (g.outgoing.get? v).isSome = g.hasVertex v
  /-- Exactly the vertices have a set of heads. -/
  incoming : ∀ v, (g.incoming.get? v).isSome = g.hasVertex v
  /-- An edge enters a vertex, which knows where it comes from. -/
  next : ∀ {head tail}, tail ∈ g.nextOf head → g.hasVertex tail = true ∧ head ∈ g.previousOf tail
  /-- An edge comes from a vertex. -/
  previous : ∀ {head tail}, head ∈ g.previousOf tail → g.hasVertex head = true

/-- The empty graph is sound. -/
theorem empty_sound : (empty : Graph V L).Sound where
  outgoing := fun _ => rfl
  incoming := fun _ => rfl
  next := by
    intro head tail ht
    cases ht
  previous := by
    intro head tail hh
    cases hh

/-- The set stored for a key has a member. -/
def Lists (sets : SortedMap Nat (SortedSet Nat)) (key member : Nat) : Prop :=
  ∃ set, sets.get? key = some set ∧ member ∈ set.toList

/-- The vertices behind a vertex are those that its outgoing set lists. -/
theorem mem_nextOf {head tail : Nat} : tail ∈ g.nextOf head ↔ Lists g.outgoing head tail := by
  unfold nextOf Lists
  cases g.outgoing.get? head <;> simp

/-- The vertices in front of a vertex are those that its incoming set lists. -/
theorem mem_previousOf {head tail : Nat} :
    head ∈ g.previousOf tail ↔ Lists g.incoming tail head := by
  unfold previousOf Lists
  cases g.incoming.get? tail <;> simp

/-- A new empty set lists nothing, and the others what they did. -/
theorem lists_insert_empty {sets : SortedMap Nat (SortedSet Nat)} {index k m : Nat} :
    Lists (sets.insert index .empty) k m ↔ k ≠ index ∧ Lists sets k m := by
  unfold Lists
  rw [SortedMap.get?_insert_eq]
  by_cases hk : k = index
  · simp [hk, SortedSet.toList, SortedMap.mem_keys]
  · simp [hk]

/-- A link adds a member to the set of its key, if there is one. -/
theorem get?_link (sets : SortedMap Nat (SortedSet Nat)) (key member k : Nat) :
    (link sets key member).get? k =
      if k = key then (sets.get? key).map (·.add member) else sets.get? k := by
  unfold link
  cases hkey : sets.get? key with
  | none =>
    by_cases hk : k = key
    · simp [hk, hkey]
    · simp [hk]
  | some set => rw [SortedMap.get?_insert_eq, Option.map_some]

/-- A link makes no new set. -/
theorem isSome_get?_link (sets : SortedMap Nat (SortedSet Nat)) (key member k : Nat) :
    ((link sets key member).get? k).isSome = (sets.get? k).isSome := by
  rw [get?_link]
  by_cases hk : k = key <;> simp [hk]

/-- Linking adds one member to one set. -/
theorem lists_link {sets : SortedMap Nat (SortedSet Nat)} {key member k m : Nat}
    (hkey : (sets.get? key).isSome) :
    Lists (link sets key member) k m ↔ (k = key ∧ m = member) ∨ Lists sets k m := by
  unfold Lists
  rw [get?_link]
  by_cases hk : k = key
  · subst hk
    obtain ⟨set, hset⟩ := Option.isSome_iff_exists.1 hkey
    simp [hset, SortedSet.mem_toList_add]
  · simp [hk]

/-- A vertex is inserted if its index is free, with two empty sets. -/
theorem insertVertex_ok {index : Nat} {v : V} (h : g.insertVertex index v = .ok g') :
    g.hasVertex index = false ∧ g' = { g with
      vertices := g.vertices.insert index v
      outgoing := g.outgoing.insert index .empty
      incoming := g.incoming.insert index .empty } := by
  unfold insertVertex at h
  split at h
  · cases h
  · next hfree => exact ⟨by simpa using hfree, (Except.ok.inj h).symm⟩

/-- An edge is inserted between vertices that are there, if none with its label is there. -/
theorem insertEdge_ok [DecidableEq L] {e : Edge L} (h : g.insertEdge e = .ok g') :
    g.hasVertex e.head = true ∧ g.hasVertex e.tail = true ∧
      e.label ∉ (g.parallel.get? ⟨e.head, e.tail⟩).getD [] ∧
      g' = ⟨g.vertices, g.parallel.insert ⟨e.head, e.tail⟩
          ((g.parallel.get? ⟨e.head, e.tail⟩).getD [] ++ [e.label]),
        link g.outgoing e.head e.tail, link g.incoming e.tail e.head⟩ := by
  unfold insertEdge at h
  dsimp only at h
  split at h
  · cases h
  · next hhead =>
    split at h
    · cases h
    · next htail =>
      split at h
      · cases h
      · next hnew =>
        exact ⟨by simpa using hhead, by simpa using htail, hnew, (Except.ok.inj h).symm⟩

/-- An inserted vertex is the only new one. -/
theorem hasVertex_insertVertex {index : Nat} {v : V} (hinsert : g.insertVertex index v = .ok g')
    (u : Nat) : g'.hasVertex u = (decide (u = index) || g.hasVertex u) := by
  obtain ⟨-, rfl⟩ := insertVertex_ok hinsert
  exact SortedMap.contains_insert g.vertices index u v

/-- To insert a vertex keeps a graph sound. -/
theorem Sound.insertVertex (h : g.Sound) {index : Nat} {v : V}
    (hinsert : g.insertVertex index v = .ok g') : g'.Sound := by
  obtain ⟨hfree, rfl⟩ := insertVertex_ok hinsert
  have hvertex : ∀ u,
      (g.vertices.insert index v).contains u = (decide (u = index) || g.hasVertex u) :=
    hasVertex_insertVertex hinsert
  have hkept : ∀ {u}, g.hasVertex u = true → (g.vertices.insert index v).contains u = true := by
    intro u hu
    rw [hvertex, hu, Bool.or_true]
  refine ⟨fun u => ?_, fun u => ?_, fun {head tail} ht => ?_, fun {head tail} hh => ?_⟩
  · rw [hasVertex, hvertex, SortedMap.get?_insert_eq]
    by_cases hu : u = index <;> simp [hu, h.outgoing]
  · rw [hasVertex, hvertex, SortedMap.get?_insert_eq]
    by_cases hu : u = index <;> simp [hu, h.incoming]
  · obtain ⟨-, hold⟩ := lists_insert_empty.1 (mem_nextOf.1 ht)
    obtain ⟨htail, hprevious⟩ := h.next (mem_nextOf.2 hold)
    have hne : tail ≠ index := by
      rintro rfl
      simp [hfree] at htail
    exact ⟨hkept htail,
      mem_previousOf.2 (lists_insert_empty.2 ⟨hne, mem_previousOf.1 hprevious⟩)⟩
  · obtain ⟨-, hold⟩ := lists_insert_empty.1 (mem_previousOf.1 hh)
    exact hkept (h.previous (mem_previousOf.2 hold))

/-- So does to insert an edge. -/
theorem Sound.insertEdge [DecidableEq L] (h : g.Sound) {e : Edge L}
    (hinsert : g.insertEdge e = .ok g') : g'.Sound := by
  obtain ⟨hhead, htail, -, rfl⟩ := insertEdge_ok hinsert
  have hout : (g.outgoing.get? e.head).isSome := (h.outgoing e.head).trans hhead
  have hin : (g.incoming.get? e.tail).isSome := (h.incoming e.tail).trans htail
  refine ⟨fun u => ?_, fun u => ?_, fun {head tail} ht => ?_, fun {head tail} hh => ?_⟩
  · exact (isSome_get?_link ..).trans (h.outgoing u)
  · exact (isSome_get?_link ..).trans (h.incoming u)
  · rcases (lists_link hout).1 (mem_nextOf.1 ht) with ⟨rfl, rfl⟩ | hold
    · exact ⟨htail, mem_previousOf.2 ((lists_link hin).2 (.inl ⟨rfl, rfl⟩))⟩
    · obtain ⟨hvertex, hprevious⟩ := h.next (mem_nextOf.2 hold)
      exact ⟨hvertex, mem_previousOf.2 ((lists_link hin).2 (.inr (mem_previousOf.1 hprevious)))⟩
  · rcases (lists_link hin).1 (mem_previousOf.1 hh) with ⟨rfl, rfl⟩ | hold
    · exact hhead
    · exact h.previous (mem_previousOf.2 hold)

/-- A vertex with something behind it is there. -/
theorem Sound.hasVertex_of_next (h : g.Sound) {head tail : Nat} (ht : tail ∈ g.nextOf head) :
    g.hasVertex head = true := by
  obtain ⟨set, hset, -⟩ := mem_nextOf.1 ht
  rw [← h.outgoing, hset, Option.isSome_some]

/-- The edges that leave a vertex lead to its successors. -/
theorem tail_mem_nextOf {index : Nat} {out : List (Edge L)} (h : g.edgesOut index = .ok out)
    {e : Edge L} (he : e ∈ out) : e.tail ∈ g.nextOf index := by
  unfold edgesOut successors at h
  unfold nextOf
  cases hset : g.outgoing.get? index with
  | none => simp [hset, Except.map] at h
  | some set =>
    rw [hset] at h
    obtain rfl := Except.ok.inj h
    obtain ⟨tail, htail, he⟩ := List.mem_flatMap.1 he
    obtain ⟨label, _, rfl⟩ := List.mem_map.1 he
    exact htail

end Graph

namespace FlowGraph

variable {g g' : FlowGraph}

/-- A sound graph whose blocks stand at their own indices and whose entry is a block. -/
structure Sound (g : FlowGraph) : Prop where
  /-- The graph is sound. -/
  graph : g.graph.Sound
  /-- A block stands at its own index. -/
  index : ∀ {v b}, g.graph.vertices.get? v = some b → b.index = v
  /-- The entry is a block. -/
  entry : ∀ {v}, g.entry = some v → g.graph.hasVertex v = true

/-- Changing a block leaves everything else, and all blocks stay. -/
theorem modifyBlock_ok {index : Nat} {f : Block → Block}
    (hmodify : g.modifyBlock index f = .ok g') :
    ∃ b, g.graph.vertices.get? index = some b ∧
      g' = { g with graph := { g.graph with vertices := g.graph.vertices.insert index (f b) } } ∧
      ∀ u, g'.graph.hasVertex u = g.graph.hasVertex u := by
  unfold FlowGraph.modifyBlock Graph.modifyVertex at hmodify
  split at hmodify
  · next b hb =>
    obtain rfl := Except.ok.inj hmodify
    refine ⟨b, hb, rfl, fun u => ?_⟩
    have hindex : g.graph.vertices.contains index = true := SortedMap.contains_iff.2 ⟨b, hb⟩
    rw [Graph.hasVertex, SortedMap.contains_insert]
    by_cases hu : u = index
    · simp [Graph.hasVertex, hu, hindex]
    · simp [Graph.hasVertex, hu]
  · cases hmodify

/-- Connecting two blocks puts an edge in and leaves the rest. -/
theorem connect_ok {head tail : Nat} {transfer : Transfer}
    (hconnect : g.connect head tail transfer = .ok g') :
    ∃ graph, g.graph.insertEdge ⟨head, tail, transfer⟩ = .ok graph ∧
      g' = { g with graph := graph } := by
  unfold FlowGraph.connect at hconnect
  cases hedge : g.graph.insertEdge ⟨head, tail, transfer⟩ with
  | error e => simp [hedge, Except.map] at hconnect
  | ok graph =>
    rw [hedge] at hconnect
    exact ⟨graph, rfl, (Except.ok.inj hconnect).symm⟩

/-- An entry can be set to a block that is there. -/
theorem setEntry_ok {index : Nat} (hset : g.setEntry index = .ok g') :
    g.graph.hasVertex index = true ∧ g' = { g with entry := some index } := by
  unfold FlowGraph.setEntry at hset
  split at hset
  · next hvertex => exact ⟨hvertex, (Except.ok.inj hset).symm⟩
  · cases hset

/-- To change a block, but for its index, keeps a flow graph sound. -/
theorem Sound.modifyBlock (h : g.Sound) {index : Nat} {f : Block → Block}
    (hindex : ∀ b, (f b).index = b.index) (hmodify : g.modifyBlock index f = .ok g') :
    g'.Sound := by
  obtain ⟨b, hb, rfl, hvertex⟩ := modifyBlock_ok hmodify
  refine ⟨⟨fun u => ?_, fun u => ?_, fun ht => ?_, fun hh => ?_⟩, fun {v c} hc => ?_,
    fun hv => ?_⟩
  · exact (h.graph.outgoing u).trans (hvertex u).symm
  · exact (h.graph.incoming u).trans (hvertex u).symm
  · exact ⟨(hvertex _).trans (h.graph.next ht).1, (h.graph.next ht).2⟩
  · exact (hvertex _).trans (h.graph.previous hh)
  · dsimp only at hc
    rw [SortedMap.get?_insert_eq] at hc
    split at hc
    · next hv =>
      obtain rfl := Option.some.inj hc
      rw [hindex, hv]
      exact h.index hb
    · exact h.index hc
  · exact (hvertex _).trans (h.entry hv)

/-- So does to insert a block at its index. -/
theorem Sound.insertBlock (h : g.Sound) {b : Block} {graph : Graph Block Transfer} {n : Nat}
    (hinsert : g.graph.insertVertex b.index b = .ok graph) :
    Sound { g with graph := graph, nextIndex := n } := by
  have hvertices : graph.vertices = g.graph.vertices.insert b.index b := by
    rw [(Graph.insertVertex_ok hinsert).2]
  refine ⟨h.graph.insertVertex hinsert, fun {v c} hc => ?_, fun {v} hv => ?_⟩
  · dsimp only at hc
    rw [hvertices, SortedMap.get?_insert_eq] at hc
    split at hc
    · next hindex => rw [hindex, Option.some.inj hc]
    · exact h.index hc
  · have hold : g.graph.hasVertex v = true := h.entry hv
    rw [Graph.hasVertex_insertVertex hinsert, hold, Bool.or_true]

/-- Whatever the operations of this library build is sound. -/
theorem Built.sound (h : g.Built) : g.Sound := by
  induction h with
  | empty =>
    refine ⟨Graph.empty_sound, fun hb => ?_, fun hv => ?_⟩
    · cases hb
    · cases hv
  | insertBlock _ hinsert ih => exact ih.insertBlock hinsert
  | advance _ ih => exact ⟨ih.graph, ih.index, ih.entry⟩
  | modifyBlock _ hindex hmodify ih => exact ih.modifyBlock hindex hmodify
  | @connect g g' head tail transfer _ hconnect ih =>
    obtain ⟨graph, hedge, rfl⟩ := connect_ok hconnect
    have hvertices : graph.vertices = g.graph.vertices := by
      obtain ⟨-, -, -, rfl⟩ := Graph.insertEdge_ok hedge
      rfl
    refine ⟨ih.graph.insertEdge hedge, fun hb => ih.index (hvertices ▸ hb), fun hv => ?_⟩
    have hold := ih.entry hv
    unfold Graph.hasVertex at hold ⊢
    rwa [hvertices]
  | setEntry _ hset ih =>
    obtain ⟨hvertex, rfl⟩ := setEntry_ok hset
    refine ⟨ih.graph, ih.index, fun hv => ?_⟩
    obtain rfl := Option.some.inj hv
    exact hvertex

/-- A flow graph made from its parts is built. -/
theorem built_ofParts {entry : Option Nat} {blocks : List Block} {edges : List FlowEdge}
    (h : ofParts entry blocks edges = .ok g) : g.Built := by
  have hblocks : ∀ (blocks : List Block) (g g' : FlowGraph), g.Built →
      g.insertBlocks blocks = .ok g' → g'.Built := by
    intro blocks
    induction blocks with
    | nil =>
      intro g g' hg h
      exact Except.ok.inj h ▸ hg
    | cons b rest ih =>
      intro g g' hg h
      rw [insertBlocks] at h
      split at h
      · next hinsert => exact ih _ _ (.insertBlock hg hinsert) h
      · cases h
  have hedges : ∀ (edges : List FlowEdge) (g g' : FlowGraph), g.Built →
      g.insertEdges edges = .ok g' → g'.Built := by
    intro edges
    induction edges with
    | nil =>
      intro g g' hg h
      exact Except.ok.inj h ▸ hg
    | cons e rest ih =>
      intro g g' hg h
      rw [insertEdges] at h
      split at h
      · next graph hinsert =>
        have hconnect : g.connect e.head e.tail e.label = .ok { g with graph := graph } := by
          simp [FlowGraph.connect, hinsert, Except.map]
        exact ih _ _ (.connect hg hconnect) h
      · cases h
  unfold ofParts at h
  cases hb : FlowGraph.empty.insertBlocks blocks with
  | error e => simp [hb, bind, Except.bind] at h
  | ok withBlocks =>
    rw [hb] at h
    cases he : withBlocks.insertEdges edges with
    | error e => simp [he, bind, Except.bind] at h
    | ok withEdges =>
      have hbuilt := hedges _ _ _ (hblocks _ _ _ .empty hb) he
      simp only [bind, Except.bind, he] at h
      cases entry with
      | none => exact Except.ok.inj h ▸ hbuilt
      | some index => exact .setEntry hbuilt h

end FlowGraph

/-! ## Admitted shapes -/

/-- How deep the stack is after an operation. -/
def Operation.depthAfter (o : Operation) (depth : Nat) : Nat :=
  depth - o.operandCount + o.pushesValue.toNat

/-- How deep the stack is after some instructions. -/
def depthAfter (instructions : List Instruction) (depth : Nat) : Nat :=
  instructions.foldl (fun depth i => i.operation.depthAfter depth) depth

namespace FlowGraph

variable {g : FlowGraph}

/-- If the check of the blocks succeeds, every block is well formed. -/
theorem checkBlocks_ok {blocks : List Block} (h : g.checkBlocks blocks = .ok ()) :
    ∀ b ∈ blocks, ∃ out, g.graph.edgesOut b.index = .ok out ∧ malformation? b out = none := by
  induction blocks with
  | nil => simp
  | cons b rest ih =>
    rw [checkBlocks] at h
    split at h
    · cases h
    · next out hout =>
      split at h
      · cases h
      · next hshape =>
        intro c hc
        rcases List.mem_cons.1 hc with rfl | hc
        · exact ⟨out, hout, hshape⟩
        · exact ih h c hc

/-- The edges that leave a block of an admitted graph have an admitted shape. -/
theorem Sound.shape (h : g.Sound) (hvalid : g.validate = .ok ()) {index : Nat} {b : Block}
    (hb : g.graph.vertices.get? index = some b) :
    ∃ out, g.graph.edgesOut index = .ok out ∧ malformation? b out = none := by
  unfold validate at hvalid
  split at hvalid
  · cases hvalid
  · obtain ⟨out, hout, hshape⟩ := checkBlocks_ok hvalid b (SortedMap.mem_values.2 ⟨index, hb⟩)
    rw [h.index hb] at hout
    exact ⟨out, hout, hshape⟩

/-- A block leaves through no branch, or through one edge for each outcome and no jump. -/
theorem malformation?_eq_none {b : Block} {out : List FlowEdge} (h : malformation? b out = none) :
    (∀ e ∈ out, e.label.isBranch = false) ∨
      ((∀ e ∈ out, e.label ≠ .jump) ∧ (∃ e ∈ out, e.label = .whenTrue) ∧
        ∃ e ∈ out, e.label = .whenFalse) := by
  have hnone : ∀ t : Transfer, (out.countP fun e => e.label == t) = 0 → ∀ e ∈ out, e.label ≠ t := by
    intro t ht e he
    have := List.countP_eq_zero.1 ht e he
    simpa using this
  unfold malformation? at h
  dsimp only at h
  split at h
  · cases h
  · split at h
    · next hbranches =>
      left
      intro e he
      have htrue := hnone .whenTrue (by omega) e he
      have hfalse := hnone .whenFalse (by omega) e he
      cases hlabel : e.label with
      | jump | exceptional => rfl
      | whenTrue => exact absurd hlabel htrue
      | whenFalse => exact absurd hlabel hfalse
    · split at h
      · cases h
      · next hbranch =>
        right
        have hexists : ∀ t : Transfer, (out.countP fun e => e.label == t) = 1 →
            ∃ e ∈ out, e.label = t := by
          intro t ht
          have hpos : 0 < out.countP fun e => e.label == t := by omega
          obtain ⟨e, he, heq⟩ := List.countP_pos_iff.1 hpos
          exact ⟨e, he, by simpa using heq⟩
        exact ⟨hnone .jump (by omega), hexists .whenTrue (by omega), hexists .whenFalse (by omega)⟩

/-- Whether a block that is entered with an empty stack leaves it empty, apart from the condition on
which it branches. -/
def leavesEmpty (g : FlowGraph) (b : Block) : Bool :=
  match g.graph.edgesOut b.index with
  | .ok out => depthAfter b.instructions 0 == if out.any (·.label.isBranch) then 1 else 0
  | .error _ => false

/-- The edges through which control leaves a block: those of the index that the block bears. -/
def waysOut (g : FlowGraph) (index : Nat) : Except GraphError (List FlowEdge) := do
  let block ← g.block index
  g.graph.edgesOut block.index

/-- The edges of a block that is found are looked up by the index that it bears. -/
theorem waysOut_of_block {index : Nat} {b : Block} (hb : g.block index = .ok b) :
    g.waysOut index = g.graph.edgesOut b.index := by
  rw [waysOut, hb]
  rfl

/-- A block of a sound graph is left through the edges of its own index. -/
theorem Sound.waysOut_eq (h : g.Sound) {index : Nat} {b : Block}
    (hb : g.graph.vertices.get? index = some b) : g.waysOut index = g.graph.edgesOut index := by
  have hblock : g.block index = .ok b := by rw [block, Graph.vertex, hb]
  rw [waysOut_of_block hblock, h.index hb]

/-- Every block leaves the stack as empty as it was. -/
def Balanced (g : FlowGraph) : Prop := ∀ b ∈ g.blocks, g.leavesEmpty b = true

instance (g : FlowGraph) : Decidable g.Balanced :=
  inferInstanceAs (Decidable (∀ b ∈ g.blocks, g.leavesEmpty b = true))

end FlowGraph

/-- What is read off the answers can be read off the questions. -/
theorem map_of_mapM_ok {α β γ ε : Type} {f : α → Except ε β} {g : β → γ} {k : α → γ}
    (hk : ∀ {a b}, f a = .ok b → g b = k a) {as : List α} {bs : List β}
    (h : as.mapM f = .ok bs) : bs.map g = as.map k := by
  induction as generalizing bs with
  | nil =>
    obtain rfl := Except.ok.inj h
    rfl
  | cons a as ih =>
    rw [List.mapM_cons] at h
    cases ha : f a with
    | error e => simp [ha, bind, Except.bind] at h
    | ok b =>
      cases has : as.mapM f with
      | error e => simp [ha, has, bind, Except.bind] at h
      | ok rest =>
        simp only [ha, has, bind, Except.bind, pure, Except.pure, Except.ok.injEq] at h
        rw [← h, List.map_cons, List.map_cons, hk ha, ih has]

namespace Plan

variable {p : Procedure} {x : Setting} {settings : Settings} {polls : Option Polls} {plan : Plan}

/-- The instructions of a block, none for an index without a block. -/
def instructionsOf (flow : FlowGraph) (index : Nat) : List Instruction :=
  match flow.block index with
  | .ok block => block.instructions
  | .error _ => []

/-- The instructions of a block of the plan. -/
def instructions (plan : Plan) (index : Nat) : List Instruction :=
  instructionsOf plan.procedure.flow index

/-- The edges through which control leaves a block, none if the flow graph has no answer. -/
def edgesOut (plan : Plan) (index : Nat) : List FlowEdge :=
  match plan.procedure.flow.waysOut index with
  | .ok edges => edges
  | .error _ => []

/-- The variables that the blocks of a loop assign, where those that are not found assign none. -/
def variablesOf (flow : FlowGraph) (semantics : Semantics) (l : Loop) : SortedSet Symbol :=
  .ofMembers (l.nodes.flatMap fun index => assignedBy semantics (instructionsOf flow index))

/-- The variables found for a loop are those that its blocks assign. -/
theorem assignedIn_ok {flow : FlowGraph} {semantics : Semantics} {l : Loop}
    {symbols : SortedSet Symbol} (h : assignedIn flow semantics l = .ok symbols) :
    symbols = variablesOf flow semantics l := by
  unfold assignedIn at h
  cases hblocks : l.nodes.mapM flow.block with
  | error e => simp [hblocks, bind, Except.bind] at h
  | ok blocks =>
    rw [hblocks] at h
    obtain rfl := Except.ok.inj h
    have hread : ∀ {index : Nat} {b : Block}, flow.block index = .ok b →
        assignedBy semantics b.instructions = assignedBy semantics (instructionsOf flow index) := by
      intro index b hb
      rw [instructionsOf, hb]
    rw [variablesOf, List.flatMap_def, List.flatMap_def, map_of_mapM_ok hread hblocks]

/-- What a plan is made of. -/
structure Prepared (p : Procedure) (x : Setting) (settings : Settings) (polls : Option Polls)
    (plan : Plan) : Prop where
  /-- The flow graph is admitted. -/
  valid : p.flow.validate = .ok ()
  /-- The procedure is the one to explore. -/
  procedure : plan.procedure = p
  /-- The exploration starts at its entry. -/
  entry : p.flow.entry = some plan.entry
  /-- The setting is the given one. -/
  setting : plan.setting = x
  /-- So are the bounds. -/
  settings : plan.settings = settings
  /-- So is whom the run asks. -/
  polls : plan.polls = polls
  /-- The variables assigned are those of the loops. -/
  assigned : ∃ loops, p.flow.loops = .ok loops ∧
    plan.assigned = .ofList (loops.map fun l => (l.header, variablesOf p.flow x.semantics l))

/-- The edges that leave a block of the plan have an admitted shape. -/
theorem Prepared.shape (h : Prepared p x settings polls plan) (hbuilt : p.flow.Built) {index : Nat}
    {e : FlowEdge} (he : e ∈ plan.edgesOut index) :
    ∃ b, p.flow.graph.vertices.get? index = some b ∧
      p.flow.graph.edgesOut index = .ok (plan.edgesOut index) ∧
      FlowGraph.malformation? b (plan.edgesOut index) = none := by
  cases hb : p.flow.graph.vertices.get? index with
  | none =>
    simp [edgesOut, FlowGraph.waysOut, FlowGraph.block, Graph.vertex, h.procedure, hb, bind,
      Except.bind] at he
  | some b =>
    obtain ⟨out, hout, hshape⟩ := hbuilt.sound.shape h.valid hb
    rw [edgesOut, h.procedure, hbuilt.sound.waysOut_eq hb, hout]
    exact ⟨b, rfl, rfl, hshape⟩

/-- An edge of the plan leads from a block to one of its successors. -/
theorem Prepared.tail_mem_nextOf (h : Prepared p x settings polls plan) (hbuilt : p.flow.Built)
    {index : Nat} {e : FlowEdge} (he : e ∈ plan.edgesOut index) :
    e.tail ∈ plan.procedure.flow.graph.nextOf index := by
  obtain ⟨b, -, hout, -⟩ := h.shape hbuilt he
  rw [h.procedure]
  exact Graph.tail_mem_nextOf hout he

/-- The instructions of the plan are those of the blocks. -/
theorem Prepared.instructions_eq (h : Prepared p x settings polls plan) {index : Nat} {b : Block}
    (hb : p.flow.graph.vertices.get? index = some b) :
    plan.instructions index = b.instructions := by
  simp [instructions, instructionsOf, FlowGraph.block, Graph.vertex, h.procedure, hb]

/-- In a balanced graph the stack is empty before a jump and holds a condition before a branch. -/
theorem Prepared.depth (h : Prepared p x settings polls plan) (hbuilt : p.flow.Built)
    (hbalanced : p.flow.Balanced) {index : Nat} {e : FlowEdge} (he : e ∈ plan.edgesOut index) :
    (e.label = .jump → depthAfter (plan.instructions index) 0 = 0) ∧
      (e.label.isBranch = true → depthAfter (plan.instructions index) 0 = 1) := by
  obtain ⟨b, hb, hout, hshape⟩ := h.shape hbuilt he
  have hleaves := hbalanced b (SortedMap.mem_values.2 ⟨index, hb⟩)
  rw [FlowGraph.leavesEmpty, hbuilt.sound.index hb, hout] at hleaves
  rw [h.instructions_eq hb, beq_iff_eq.1 hleaves]
  constructor
  · intro hjump
    rw [if_neg]
    rcases FlowGraph.malformation?_eq_none hshape with hnone | ⟨hnojump, _⟩
    · simpa using hnone
    · exact absurd hjump (hnojump e he)
  · intro hbranch
    rw [if_pos (List.any_eq_true.2 ⟨e, he, hbranch⟩)]

/-- What the preparation returns is prepared. -/
theorem prepared (h : Plan.prepare p x settings polls = .ok plan) :
    Prepared p x settings polls plan := by
  unfold Plan.prepare at h
  have hvalid : p.validate = .ok () := by
    cases hv : p.validate with
    | ok u => rfl
    | error e => simp [hv, bind, Except.bind] at h
  have hflow : p.flow.validate = .ok () := by
    unfold Procedure.validate at hvalid
    split at hvalid
    · cases hvalid
    · exact hvalid
  rw [hvalid] at h
  cases hentry : p.flow.entry with
  | none => simp [hentry, bind, Except.bind] at h
  | some entry =>
    cases hloops : p.flow.loops with
    | error e => simp [hentry, hloops, bind, Except.bind] at h
    | ok loops =>
      cases hassigned : loops.mapM (assignedIn p.flow x.semantics) with
      | error e =>
        simp only [hentry, hloops, hassigned, bind, Except.bind] at h
        cases (show Except.error (ProgramError.graph e) = .ok plan from h)
      | ok assigned =>
        simp only [hentry, hloops, hassigned, bind, Except.bind] at h
        obtain rfl := Except.ok.inj h
        have heach : assigned = loops.map (variablesOf p.flow x.semantics) := by
          simpa using map_of_mapM_ok (g := id) assignedIn_ok hassigned
        refine ⟨hflow, rfl, hentry, rfl, rfl, rfl, loops, hloops, ?_⟩
        rw [heach, List.zip_map']

/-- The same plan under other settings. -/
def under (plan : Plan) (settings : Settings) : Plan := { plan with settings }

/-- The settings are kept in the plan and play no other part in the preparation. -/
theorem prepare_under (p : Procedure) (x : Setting) (settings settings' : Settings)
    (polls : Option Polls) :
    prepare p x settings' polls = (prepare p x settings polls).map (·.under settings') := by
  cases hvalid : p.validate with
  | error e => simp only [prepare, hvalid, bind, Except.bind, Except.map]
  | ok =>
    cases hentry : p.flow.entry with
    | none => simp only [prepare, hvalid, hentry, bind, Except.bind, Except.map]
    | some entry =>
      cases hloops : p.flow.loops with
      | error e => simp only [prepare, hvalid, hentry, hloops, bind, Except.bind, Except.map]
      | ok loops =>
        simp only [prepare, hvalid, hentry, hloops, bind, Except.bind]
        cases loops.mapM (assignedIn p.flow x.semantics) <;> rfl

end Plan

end Pathwise
