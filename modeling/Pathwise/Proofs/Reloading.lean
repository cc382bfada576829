import Pathwise.Proofs.Parts
import Pathwise.Proofs.Records

/-!
# Reading undoes writing

A flow graph is made step by step: blocks are made, filled and connected, one is made the entry,
and a whole flow graph is taken from a document. A step that is refused leaves the graph as it was.
However it was made, the next block comes right behind the last one, and the graph is known by its
entry, its blocks and its edges. So a procedure that is written as text is read as the same
procedure, and the next block gets the index that it would have got before. How a document is
written as text does not matter for this, as long as the text is read as the document.
-/

namespace Pathwise

/-- A computation that gives a result has one in its first part. -/
theorem exists_of_bind_ok {ε α β : Type} {x : Except ε α} {f : α → Except ε β} {b : β}
    (h : x >>= f = .ok b) : ∃ a, x = .ok a ∧ f a = .ok b := by
  cases x with
  | error e => cases h
  | ok a => exact ⟨a, rfl, h⟩

/-- An error is not mapped to a result. -/
theorem ok_of_mapError {ε ε' α : Type} {x : Except ε α} {f : ε → ε'} {a : α}
    (h : x.mapError f = .ok a) : x = .ok a := by
  cases x with
  | error e => cases h
  | ok b => exact congrArg _ (Except.ok.inj h)

/-- What is read without error is there. -/
theorem eq_some_of_ofOption {α : Type} {o : Option α} {a : α} (h : ReadError.ofOption o = .ok a) :
    o = some a := by
  cases o with
  | none => cases h
  | some b => exact congrArg some (Except.ok.inj h)

namespace FlowGraph

variable {g g' : FlowGraph}

/-- A step in the making of a flow graph. -/
inductive Step where
  /-- An empty block is made. -/
  | newBlock
  /-- The instructions of a block are changed. -/
  | edit (index : Nat) (f : List Instruction → List Instruction)
  /-- An edge is added. -/
  | connect (head tail : Nat) (transfer : Transfer)
  /-- The two edges of a branch are added. -/
  | branch (head whenTrue whenFalse : Nat)
  /-- A block is made the entry. -/
  | setEntry (index : Nat)
  /-- A flow graph is taken from a document. -/
  | load (document : Json.Document)
  /-- The code of a procedure is taken from a document. -/
  | loadProcedure (document : Json.Document)

/-- The flow graph after a step. One that is refused leaves it as it is, except that of a branch
the first edge stays if the second is refused. -/
def Step.make (g : FlowGraph) : Step → FlowGraph
  | .newBlock => g.newBlock.2
  | .edit index f =>
    (g.modifyBlock index fun b => { b with instructions := f b.instructions }).toOption.getD g
  | .connect head tail transfer => (g.connect head tail transfer).toOption.getD g
  | .branch head whenTrue whenFalse => (g.branch head whenTrue whenFalse).2
  | .setEntry index => (g.setEntry index).toOption.getD g
  | .load document => (document.decode ofJson).toOption.getD g
  | .loadProcedure document => ((document.decode Procedure.ofJson).map (·.flow)).toOption.getD g

/-- The flow graph after steps one after the other. -/
def made (steps : List Step) : FlowGraph := steps.foldl Step.make .empty

/-! ## What every step keeps -/

/-- A flow graph as it is made: built from what was put in, with the next block behind all
others. -/
structure Orderly (g : FlowGraph) : Prop where
  /-- It was built. -/
  built : g.Built
  /-- It has the edges that were put in. -/
  keeps : ∃ put, g.graph.Keeps put
  /-- The next block comes right behind the last one. -/
  next : ∀ k, k < g.nextIndex ↔ ∃ index, g.graph.hasVertex index = true ∧ k ≤ index

/-- A graph that has been loaded is orderly. -/
theorem Loaded.orderly {blocks : List Block} {edges : List FlowEdge} (h : g.Loaded blocks edges) :
    g.Orderly where
  built := h.built
  keeps := ⟨edges, h.keeps⟩
  next := by
    simp only [h.hasVertex_iff]
    exact h.next

/-- A flow graph that was put together from parts is orderly. -/
theorem orderly_of_ofParts {entry : Option Nat} {blocks : List Block} {edges : List FlowEdge}
    (h : ofParts entry blocks edges = .ok g) : g.Orderly := by
  rcases fits_or_fault entry blocks edges with hfits | ⟨err, hfault⟩
  · obtain ⟨g', hparts, hloaded, -⟩ := hfits.loaded
    obtain rfl := Except.ok.inj (hparts.symm.trans h)
    exact hloaded.orderly
  · rw [hfault.refused] at h
    cases h

/-- A graph that has been read is orderly. -/
theorem orderly_of_ofJson {j : Json} (h : ofJson j = .ok g) : g.Orderly := by
  obtain ⟨⟨entry, blocks, edges⟩, -, hput⟩ := exists_of_bind_ok h
  exact orderly_of_ofParts (ok_of_mapError hput)

namespace Orderly

/-- A new block is made with the next index. -/
theorem newBlock (h : g.Orderly) : g.newBlock.1 = .ok g.nextIndex ∧ g.newBlock.2.Orderly := by
  have hfree : g.graph.hasVertex g.nextIndex = false := by
    by_contra hvertex
    have hbehind := (h.next g.nextIndex).2 ⟨_, by simpa using hvertex, Nat.le_refl _⟩
    omega
  obtain ⟨graph, hinsert⟩ :
      ∃ graph, g.graph.insertVertex g.nextIndex ⟨g.nextIndex, []⟩ = .ok graph := by
    simp [Graph.insertVertex, hfree]
  have hvertex := Graph.hasVertex_insertVertex hinsert
  obtain ⟨put, hkeeps⟩ := h.keeps
  simp only [FlowGraph.newBlock, hinsert, true_and]
  refine ⟨.insertBlock (b := ⟨_, []⟩) h.built hinsert, ⟨put, hkeeps.insertVertex hinsert⟩,
    fun k => ?_⟩
  simp only [hvertex, Bool.or_eq_true, decide_eq_true_eq, or_and_right, exists_or, exists_eq_left,
    ← h.next k]
  omega

/-- To change a block, but for its index, keeps a graph orderly. -/
theorem modifyBlock (h : g.Orderly) {index : Nat} {f : Block → Block}
    (hindex : ∀ b, (f b).index = b.index) (hmodify : g.modifyBlock index f = .ok g') :
    g'.Orderly := by
  obtain ⟨b, -, heq, hvertex⟩ := modifyBlock_ok hmodify
  obtain ⟨put, hkeeps⟩ := h.keeps
  refine ⟨.modifyBlock h.built hindex hmodify, ⟨put, ?_⟩, ?_⟩
  · rw [heq]
    exact ⟨hkeeps.between, hkeeps.nodup, hkeeps.occupied⟩
  · simp only [hvertex]
    rw [heq]
    exact h.next

/-- So does to connect two blocks. -/
theorem connect (h : g.Orderly) {head tail : Nat} {transfer : Transfer}
    (hconnect : g.connect head tail transfer = .ok g') : g'.Orderly := by
  obtain ⟨put, hkeeps⟩ := h.keeps
  have hbuilt := h.built.connect hconnect
  obtain ⟨graph, hinsert, rfl⟩ := connect_ok hconnect
  refine ⟨hbuilt, ⟨_, hkeeps.insertEdge hinsert⟩, ?_⟩
  obtain ⟨-, -, -, rfl⟩ := Graph.insertEdge_ok hinsert
  exact h.next

/-- So does to branch. -/
theorem branch (h : g.Orderly) (head whenTrue whenFalse : Nat) :
    (g.branch head whenTrue whenFalse).2.Orderly := by
  unfold FlowGraph.branch
  split
  · exact h
  · next half hhalf =>
    split
    · exact h.connect hhalf
    · next whole hwhole => exact (h.connect hhalf).connect hwhole

/-- So does to set the entry. -/
theorem setEntry (h : g.Orderly) {index : Nat} (hset : g.setEntry index = .ok g') : g'.Orderly := by
  have hbuilt := h.built.setEntry hset
  obtain ⟨-, rfl⟩ := setEntry_ok hset
  exact ⟨hbuilt, h.keeps, h.next⟩

end Orderly

end FlowGraph

namespace Procedure

/-- Reading a field leaves the code that was read, or reads it. -/
theorem Draft.flow_of_read {d d' : Draft} {key : Quoted} {value : Json}
    (h : d.read key value = .ok d') :
    d'.flow = d.flow ∨ ∃ g, d'.flow = some g ∧ FlowGraph.ofJson value = .ok g := by
  unfold Draft.read at h
  split at h
  · cases h
  · dsimp only at h
    split at h
    · cases h
    · obtain ⟨name, -, hname⟩ := exists_of_bind_ok h
      exact .inl (Except.ok.inj hname ▸ rfl)
  · dsimp only at h
    split at h
    · cases h
    · obtain ⟨parameters, -, hparameters⟩ := exists_of_bind_ok h
      exact .inl (Except.ok.inj hparameters ▸ rfl)
  · dsimp only at h
    split at h
    · cases h
    · obtain ⟨g, hvalue, hg⟩ := exists_of_bind_ok h
      exact .inr ⟨g, Except.ok.inj hg ▸ rfl, hvalue⟩
  · split at h
    · exact .inl (Except.ok.inj h ▸ rfl)
    · cases h

/-- The graph of a draft stays orderly while members are read. -/
theorem Draft.orderly_of_foldlM {members : List (Quoted × Json)} {d d' : Draft}
    (h : members.foldlM (fun (d : Draft) member => d.read member.1 member.2) d = .ok d')
    (hd : ∀ g, d.flow = some g → g.Orderly) : ∀ g, d'.flow = some g → g.Orderly := by
  induction members generalizing d with
  | nil =>
    obtain rfl := Except.ok.inj h
    exact hd
  | cons member members ih =>
    rw [List.foldlM_cons] at h
    obtain ⟨next, hread, hrest⟩ := exists_of_bind_ok h
    refine ih hrest fun g hg => ?_
    rcases Draft.flow_of_read hread with hkept | ⟨g', hg', hvalue⟩
    · exact hd g (hkept ▸ hg)
    · obtain rfl := Option.some.inj (hg'.symm.trans hg)
      exact FlowGraph.orderly_of_ofJson hvalue

/-- The code of a procedure that was read is orderly. -/
theorem orderly_of_ofJson {j : Json} {p : Procedure} (h : ofJson j = .ok p) : p.flow.Orderly := by
  obtain ⟨members, -, hmembers⟩ := exists_of_bind_ok h
  obtain ⟨draft, hdraft, hfields⟩ := exists_of_bind_ok hmembers
  obtain ⟨name, -, hrest⟩ := exists_of_bind_ok hfields
  obtain ⟨g, hg, hp⟩ := exists_of_bind_ok hrest
  obtain rfl := Except.ok.inj hp
  refine Draft.orderly_of_foldlM hdraft (fun g hg => ?_) g (eq_some_of_ofOption hg)
  cases hg

end Procedure

/-- What a document is read as is what its value is read as. -/
theorem Json.Document.of_decode {α : Type} {d : Json.Document} {f : Json → Except ReadError α}
    {a : α} (h : d.decode f = .ok a) : f d.root = .ok a := by
  obtain ⟨b, hb, hended⟩ := exists_of_bind_ok h
  split at hended
  · exact hb.trans (congrArg _ (Except.ok.inj hended))
  · cases hended

namespace FlowGraph

variable {g : FlowGraph}

/-- The empty graph is orderly. -/
theorem orderly_empty : FlowGraph.empty.Orderly := Loaded.empty.orderly

/-- Every step of the construction keeps a graph orderly. -/
theorem Orderly.make (h : g.Orderly) (step : Step) : (step.make g).Orderly := by
  have hkept : ∀ {ε : Type} {r : Except ε FlowGraph}, (∀ g', r = .ok g' → g'.Orderly) →
      (r.toOption.getD g).Orderly := by
    intro ε r hr
    cases r with
    | error e => exact h
    | ok g' => exact hr g' rfl
  cases step with
  | newBlock => exact h.newBlock.2
  | edit index f =>
    refine hkept fun g' hg' => ?_
    exact h.modifyBlock (f := fun b => { b with instructions := f b.instructions })
      (fun _ => rfl) hg'
  | connect head tail transfer => exact hkept fun g' hg' => h.connect hg'
  | branch head whenTrue whenFalse => exact h.branch head whenTrue whenFalse
  | setEntry index => exact hkept fun g' hg' => h.setEntry hg'
  | load document => exact hkept fun g' hg' => orderly_of_ofJson (Json.Document.of_decode hg')
  | loadProcedure document =>
    refine hkept fun g' hg' => ?_
    cases hread : document.decode Procedure.ofJson with
    | error e => simp [hread, Except.map] at hg'
    | ok p =>
      obtain rfl : p.flow = g' := by simpa [hread, Except.map] using hg'
      exact Procedure.orderly_of_ofJson (Json.Document.of_decode hread)

/-- A flow graph is orderly however it was made. -/
theorem orderly_made (steps : List Step) : (made steps).Orderly :=
  List.foldlRecOn steps Step.make orderly_empty fun _ h step _ => h.make step

/-! ## Putting a flow graph together from its own parts -/

/-- The blocks of a graph are those that stand at their index. -/
theorem Sound.block_iff (h : g.Sound) (index : Nat) (b : Block) :
    g.graph.vertices.get? index = some b ↔ b ∈ g.blocks ∧ b.index = index := by
  rw [FlowGraph.blocks, SortedMap.mem_values]
  refine ⟨fun hb => ⟨⟨index, hb⟩, h.index hb⟩, ?_⟩
  rintro ⟨⟨other, hb⟩, rfl⟩
  rwa [h.index hb]

/-- An orderly graph could have been loaded from its blocks and edges. -/
theorem Orderly.loaded (h : g.Orderly) : g.Loaded g.blocks g.edges where
  built := h.built
  keeps := by
    obtain ⟨put, hkeeps⟩ := h.keeps
    exact ⟨fun ends => (g.graph.edges_filter_eq ends).symm, hkeeps.edges_nodup, hkeeps.occupied⟩
  block := h.built.sound.block_iff
  next := by
    intro k
    rw [h.next k]
    simp only [hasVertex_iff_of_block h.built.sound.block_iff]

/-- So its parts fit each other. -/
theorem Orderly.fits (h : g.Orderly) : Fits g.entry g.blocks g.edges where
  nodup := List.pairwise_map.2 (h.built.sound.blocks_increasing.imp fun hlt => Nat.ne_of_lt hlt)
  connected := by
    have hloaded := h.loaded
    have hsound := h.built.sound.graph
    have hnext : ∀ e ∈ g.edges, e.tail ∈ g.graph.nextOf e.head := fun e he =>
      (h.built.linked.next e.head e.tail).1 (hloaded.keeps.hasEdge_iff.2 ⟨e, he, rfl, rfl⟩)
    refine ⟨fun e he => ?_, fun e he => ?_, hloaded.keeps.nodup⟩
    · exact hloaded.hasVertex_iff.1 (hsound.previous (hsound.next (hnext e he)).2)
    · exact hloaded.hasVertex_iff.1 (hsound.next (hnext e he)).1
  entered := fun index hindex => h.loaded.hasVertex_iff.1 (h.built.sound.entry hindex)

/-- A flow graph that is put together from its own parts is the same again. -/
theorem Orderly.ofParts_eq (h : g.Orderly) : ofParts g.entry g.blocks g.edges = .ok g := by
  obtain ⟨g', hparts, hloaded, hentry⟩ := h.fits.loaded
  rw [hparts, hloaded.unique h.loaded hentry]

/-- A flow graph is written as text, and read as it was written. -/
theorem Orderly.ofJson_toJson (h : g.Orderly) (hindex : ∀ b ∈ g.blocks, b.index < UInt64.size) :
    g.toJson.Writable ∧ ofJson g.toJson = .ok g := by
  have hvertex : ∀ index ∈ g.blocks.map Block.index, index < UInt64.size := by
    intro index hmem
    obtain ⟨b, hb, rfl⟩ := List.mem_map.1 hmem
    exact hindex b hb
  have hfits := h.fits
  have hshows := shows_parts (fun index hentry => hvertex index (hfits.entered index hentry)) hindex
    fun e he => ⟨hvertex _ (hfits.connected.head e he), hvertex _ (hfits.connected.tail e he)⟩
  refine ⟨hshows.writable, ?_⟩
  simp [ofJson, hshows.read, ReadError.ofOption, bind, Except.bind, h.ofParts_eq, Except.mapError]

end FlowGraph

/-- What can be read from a well-formed document is read from it. -/
theorem Json.Document.decode_ok {α : Type} {j : Json} {f : Json → Except ReadError α} {a : α}
    (h : f j = .ok a) : Json.Document.decode ⟨j, true⟩ f = .ok a := by
  simp [decode, h, bind, Except.bind, pure, Except.pure]

/-- In a format in which documents are read as they were written, so are procedures and annotations.
This holds of every procedure whose code was made step by step, refused steps and reloading
included, if the indices of its blocks are 64-bit numbers; the next block then has the same index
before and after, the one right behind the last block. And it holds of all annotations. -/
theorem reading_undoes_writing (format : Json.TextFormat) (p : Procedure)
    (steps : List FlowGraph.Step) (hmade : p.flow = FlowGraph.made steps)
    (hindex : ∀ b ∈ p.flow.blocks, b.index < UInt64.size) (a : Annotations) :
    (format.read (format.write p.toJson)).decode Procedure.ofJson = .ok p ∧
      (∀ q, (format.read (format.write p.toJson)).decode Procedure.ofJson = .ok q →
        q.flow.newBlock.1 = p.flow.newBlock.1 ∧
        p.flow.newBlock.1 = .ok (((p.flow.blocks.map Block.index).max?.map (· + 1)).getD 0)) ∧
      (format.read (format.write a.toJson)).decode? Annotations.ofJson? = .ok a := by
  have horderly : p.flow.Orderly := hmade ▸ FlowGraph.orderly_made steps
  obtain ⟨hwritable, hflow⟩ := horderly.ofJson_toJson hindex
  have hread : (format.read (format.write p.toJson)).decode Procedure.ofJson = .ok p := by
    rw [format.read_write (Procedure.writable_toJson hwritable)]
    exact Json.Document.decode_ok (Procedure.ofJson_toJson hflow)
  refine ⟨hread, fun q hq => ?_, ?_⟩
  · obtain rfl := Except.ok.inj (hread.symm.trans hq)
    exact ⟨rfl, horderly.newBlock.1.trans (congrArg _ horderly.loaded.next.eq)⟩
  · rw [format.read_write a.shows.writable]
    refine Json.Document.decode_ok ?_
    rw [a.shows.read]
    rfl

/-- Steps of which some are refused: there is no block nine, and no block two at first, and a
document that breaks off is no flow graph. -/
def patchworkSteps : List FlowGraph.Step :=
  [.newBlock, .newBlock,
    .edit 0 (· ++
      [⟨⟨7⟩, .literal (.integer (-3)), some ⟨2, 5⟩⟩, ⟨⟨8⟩, .invocation [⟨7⟩] true, none⟩]),
    .branch 0 1 1, .branch 1 0 9, .setEntry 2, .load ⟨.array [.null, .cut], true⟩, .setEntry 0,
    .newBlock]

/-- A procedure that was made by such steps. -/
def patchwork : Procedure :=
  ⟨"say \"hi\"\n", [⟨"x", .parameter⟩], FlowGraph.made patchworkSteps⟩

/-- Annotations for it. -/
def patchworkNotes : Annotations :=
  ⟨.ofList [(⟨7⟩, ⟨"x", .localVariable⟩)], .ofList [(⟨7⟩, "int\t"), (⟨8⟩, "void")],
    .ofList [(⟨8⟩, ⟨"Out", "print"⟩)], .ofList [(⟨7⟩, .integer (-3))]⟩

/-- They are written in the format of this library, the quotes, the line end and the tabulator in
them by escapes, and read again. -/
theorem reading_undoes_writing_patchwork :
    patchwork.flow.edges = [⟨0, 1, .whenTrue⟩, ⟨0, 1, .whenFalse⟩, ⟨1, 0, .whenTrue⟩] ∧
      patchwork.flow.blocks.map Block.index = [0, 1, 2] ∧
      (Json.TextFormat.compact.read (Json.TextFormat.compact.write patchwork.toJson)).decode
        Procedure.ofJson = .ok patchwork ∧
      (Json.TextFormat.compact.read (Json.TextFormat.compact.write patchworkNotes.toJson)).decode?
        Annotations.ofJson? = .ok patchworkNotes := by
  have hindex : ∀ b ∈ patchwork.flow.blocks, b.index < UInt64.size := by decide
  obtain ⟨hread, -, hnotes⟩ :=
    reading_undoes_writing .compact patchwork patchworkSteps rfl hindex patchworkNotes
  exact ⟨by decide, by decide, hread, hnotes⟩

end Pathwise
