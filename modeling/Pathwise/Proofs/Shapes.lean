import Mathlib.Data.List.Perm.Basic
import Pathwise.Program.Procedure
import Pathwise.Proofs.Edges

/-!
# Admitted shapes

Exceptions apart, a block is to be left by nothing, by one jump, or by one edge for each outcome of
a condition that its last instruction pushes. Counting the edges that leave it, in whatever order
they come and however many are parallel, decides exactly that, and what is refused is the block of
lowest index that is left otherwise.
-/

namespace Pathwise

/-- Lists of transfers without exceptions are the same up to order if their numbers are. -/
theorem Transfer.perm_iff {ts us : List Transfer} (hts : .exceptional ∉ ts)
    (hus : .exceptional ∉ us) :
    ts.Perm us ↔ ts.count .jump = us.count .jump ∧ ts.count .whenTrue = us.count .whenTrue ∧
      ts.count .whenFalse = us.count .whenFalse := by
  rw [List.perm_iff_count]
  constructor
  · intro h
    exact ⟨h _, h _, h _⟩
  · rintro ⟨hjump, htrue, hfalse⟩ t
    cases t with
    | jump => exact hjump
    | whenTrue => exact htrue
    | whenFalse => exact hfalse
    | exceptional => rw [List.count_eq_zero_of_not_mem hts, List.count_eq_zero_of_not_mem hus]

/-- The block that a malformation is about, none if the entry is missing. -/
def Malformation.block? : Malformation → Option Nat
  | .noEntry => none
  | .severalJumps block _ => some block
  | .unevenBranch block => some block
  | .noCondition block => some block

/-- The wording names the block. -/
theorem Malformation.reason_names {m : Malformation} {index : Nat} (h : m.block? = some index) :
    ∃ before after, m.reason = before ++ "block " ++ Text.hex index ++ " " ++ after := by
  cases m with
  | noEntry => cases h
  | severalJumps block count =>
    obtain rfl := Option.some.inj h
    have hhas : " has " = " " ++ "has " := rfl
    refine ⟨"", "has " ++ count.repr ++ " unconditional successors", ?_⟩
    simp only [reason, hhas, String.empty_append, String.append_assoc]
  | unevenBranch block =>
    obtain rfl := Option.some.inj h
    exact ⟨"", "must branch through exactly one true and one false edge", by
      simp [reason, String.append_assoc]⟩
  | noCondition block =>
    obtain rfl := Option.some.inj h
    exact ⟨"branch ", "does not end with a condition", by simp [reason, String.append_assoc]⟩

namespace FlowGraph

variable {g : FlowGraph} {b : Block} {out : List FlowEdge}

/-- How control leaves a block, exceptions apart, by all edges of the graph. -/
def exits (g : FlowGraph) (index : Nat) : List Transfer :=
  ((g.edges.filter (·.head == index)).map (·.label)).filter (· ≠ .exceptional)

/-- The shapes that a block may have. -/
inductive Admits (g : FlowGraph) (b : Block) : Prop where
  /-- No edge leaves the block. -/
  | ends (h : g.exits b.index = [])
  /-- One jump leaves the block. -/
  | jumps (h : g.exits b.index = [.jump])
  /-- The block ends with a condition, and one edge leaves it for each outcome. -/
  | branches {i : Instruction} (h : (g.exits b.index).Perm [.whenTrue, .whenFalse])
    (hlast : b.last? = some i) (hpushes : i.operation.pushesValue = true)

/-- A graph cannot be explored if it has no entry or a block that has no admitted shape. -/
def Malformed (g : FlowGraph) : Prop := g.entry = none ∨ ∃ b ∈ g.blocks, ¬g.Admits b

/-- What is counted among edges is what is counted among their transfers. -/
theorem countP_label (out : List FlowEdge) {t : Transfer} (ht : t ≠ .exceptional) :
    (out.countP fun e => e.label == t) =
      ((out.map (·.label)).filter (· ≠ .exceptional)).count t := by
  rw [List.count_filter (by simpa using ht), List.count, List.countP_map]
  rfl

/-- The numbers of edges with which nothing is wrong. -/
theorem malformation?_eq_none_iff {ts : List Transfer}
    (hts : ts = (out.map (·.label)).filter (· ≠ .exceptional)) :
    malformation? b out = none ↔
      (ts.count .jump ≤ 1 ∧ ts.count .whenTrue = 0 ∧ ts.count .whenFalse = 0) ∨
        (ts.count .jump = 0 ∧ ts.count .whenTrue = 1 ∧ ts.count .whenFalse = 1 ∧
          ∃ i, b.last? = some i ∧ i.operation.pushesValue = true) := by
  have hjumps : ts.count .jump = out.countP fun e => e.label == .jump :=
    hts ▸ (countP_label out (by simp)).symm
  have htrues : ts.count .whenTrue = out.countP fun e => e.label == .whenTrue :=
    hts ▸ (countP_label out (by simp)).symm
  have hfalses : ts.count .whenFalse = out.countP fun e => e.label == .whenFalse :=
    hts ▸ (countP_label out (by simp)).symm
  rw [hjumps, htrues, hfalses]
  unfold malformation?
  dsimp only
  split
  · refine iff_of_false (by simp) ?_
    rintro (⟨hone, -⟩ | ⟨hzero, -⟩) <;> omega
  · split
    · exact iff_of_true rfl (.inl ⟨by omega, by omega, by omega⟩)
    · next hbranches =>
      split
      · refine iff_of_false (by simp) ?_
        rintro (⟨-, hzero, hzero'⟩ | ⟨hzero, hone, hone', -⟩) <;> omega
      · -- exactly one edge for each outcome, so that the last instruction decides
        cases hlast : b.last? with
        | none =>
          refine iff_of_false (by simp) ?_
          rintro (⟨-, hzero, hzero'⟩ | ⟨-, -, -, i, hi, -⟩)
          · omega
          · cases hi
        | some i =>
          by_cases hpushes : i.operation.pushesValue = true
          · refine iff_of_true (if_pos hpushes) (.inr ⟨?_, ?_, ?_, i, rfl, hpushes⟩) <;> omega
          · refine iff_of_false (by simp [hpushes]) ?_
            rintro (⟨-, hzero, hzero'⟩ | ⟨-, -, -, j, hj, hpushes'⟩)
            · omega
            · exact hpushes (Option.some.inj hj ▸ hpushes')

/-- What is wrong with the edges of a block is said about the block. -/
theorem block?_of_malformation? {m : Malformation} (h : malformation? b out = some m) :
    m.block? = some b.index := by
  unfold malformation? at h
  dsimp only at h
  split at h
  · exact Option.some.inj h ▸ rfl
  · split at h
    · cases h
    · split at h
      · exact Option.some.inj h ▸ rfl
      · split at h
        · split at h
          · cases h
          · exact Option.some.inj h ▸ rfl
        · exact Option.some.inj h ▸ rfl

/-- Counting the edges of a block finds nothing wrong exactly if the block has an admitted shape. -/
theorem malformation?_eq_none_iff_admits
    (hout : out = g.edges.filter (·.head == b.index)) :
    malformation? b out = none ↔ g.Admits b := by
  have hexits : g.exits b.index = (out.map (·.label)).filter (· ≠ .exceptional) := by
    rw [exits, hout]
  have hordinary : Transfer.exceptional ∉ g.exits b.index := by simp [exits]
  rw [malformation?_eq_none_iff hexits]
  constructor
  · rintro (⟨hjumps, htrues, hfalses⟩ | ⟨hjumps, htrues, hfalses, i, hi, hpushes⟩)
    · rcases Nat.le_one_iff_eq_zero_or_eq_one.1 hjumps with hzero | hone
      · refine .ends (List.perm_nil.1 ((Transfer.perm_iff hordinary (by simp)).2 ?_))
        exact ⟨hzero, htrues, hfalses⟩
      · refine .jumps (List.perm_singleton.1 ((Transfer.perm_iff hordinary (by simp)).2 ?_))
        exact ⟨hone, htrues, hfalses⟩
    · refine .branches ((Transfer.perm_iff hordinary (by simp)).2 ?_) hi hpushes
      exact ⟨hjumps, htrues, hfalses⟩
  · rintro (h | h | ⟨h, hi, hpushes⟩)
    · left
      simp [h]
    · left
      rw [h]
      decide
    · right
      obtain ⟨hjumps, htrues, hfalses⟩ := (Transfer.perm_iff hordinary (by simp)).1 h
      exact ⟨hjumps, htrues, hfalses, _, hi, hpushes⟩

/-- Checking blocks in order accepts them all or refuses the first without an admitted shape. -/
theorem checkBlocks_cases (g : FlowGraph) {blocks : List Block}
    (hout : ∀ b ∈ blocks,
      g.graph.edgesOut b.index = .ok (g.edges.filter (·.head == b.index))) :
    (g.checkBlocks blocks = .ok () ∧ ∀ b ∈ blocks, g.Admits b) ∨
      ∃ before b after m, blocks = before ++ b :: after ∧ (∀ c ∈ before, g.Admits c) ∧
        ¬g.Admits b ∧ m.block? = some b.index ∧
        g.checkBlocks blocks = .error (.unsupported none m) := by
  induction blocks with
  | nil => exact .inl ⟨rfl, by simp⟩
  | cons b rest ih =>
    have hiff := malformation?_eq_none_iff_admits (g := g) (b := b) rfl
    rw [checkBlocks, hout b List.mem_cons_self]
    dsimp only
    cases hm : malformation? b (g.edges.filter (·.head == b.index)) with
    | some m =>
      have hbad : ¬g.Admits b := fun hadmits => by simp [hiff.2 hadmits] at hm
      exact .inr ⟨[], b, rest, m, rfl, by simp, hbad, block?_of_malformation? hm, rfl⟩
    | none =>
      have hgood : g.Admits b := hiff.1 hm
      rcases ih fun c hc => hout c (List.mem_cons_of_mem _ hc) with
        ⟨hok, hall⟩ | ⟨before, c, after, m, rfl, hbefore, hc, hblock, herror⟩
      · exact .inl ⟨hok, List.forall_mem_cons.2 ⟨hgood, hall⟩⟩
      · exact .inr ⟨b :: before, c, after, m, rfl, List.forall_mem_cons.2 ⟨hgood, hbefore⟩, hc,
          hblock, herror⟩

/-- The blocks of a graph increase in index. -/
theorem Sound.blocks_increasing (h : g.Sound) :
    g.blocks.Pairwise fun b c => b.index < c.index := by
  refine List.pairwise_map.2 (g.graph.vertices.sorted.imp_of_mem fun {a c} ha hc hlt => ?_)
  rw [h.index (SortedMap.get?_eq_some_iff.2 ha), h.index (SortedMap.get?_eq_some_iff.2 hc)]
  exact Nat.compare_eq_lt.1 hlt

/-- What the check of a graph that was built comes to: it has no entry; or all its blocks have
admitted shapes; or the check refuses the block of lowest index that has not. -/
theorem Built.validate_cases (h : g.Built) :
    (g.entry = none ∧ g.validate = .error (.unsupported none .noEntry)) ∨
      (g.entry.isSome = true ∧ g.validate = .ok () ∧ ∀ b ∈ g.blocks, g.Admits b) ∨
      (g.entry.isSome = true ∧ ∃ b ∈ g.blocks, ∃ m, ¬g.Admits b ∧
        (∀ c ∈ g.blocks, ¬g.Admits c → b.index ≤ c.index) ∧ m.block? = some b.index ∧
        g.validate = .error (.unsupported none m)) := by
  unfold validate
  cases hentry : g.entry with
  | none => exact .inl ⟨rfl, rfl⟩
  | some entry =>
    right
    have hout : ∀ b ∈ g.blocks,
        g.graph.edgesOut b.index = .ok (g.edges.filter (·.head == b.index)) := by
      intro b hb
      obtain ⟨index, hget⟩ := SortedMap.mem_values.1 hb
      obtain rfl := h.sound.index hget
      exact h.linked.edgesOut_eq h.sound.graph (SortedMap.contains_iff.2 ⟨b, hget⟩)
    rcases checkBlocks_cases g hout with ⟨hok, hall⟩ |
      ⟨before, b, after, m, heq, hbefore, hb, hblock, herror⟩
    · exact .inl ⟨rfl, hok, hall⟩
    · have hincreasing := h.sound.blocks_increasing
      refine .inr ⟨rfl, b, by simp [heq], m, hb, fun c hc hbad => ?_, hblock, herror⟩
      rw [heq] at hc hincreasing
      rcases List.mem_append.1 hc with hc | hc
      · exact absurd (hbefore c hc) hbad
      · rcases List.mem_cons.1 hc with rfl | hc
        · exact Nat.le_refl _
        · have hrest := (List.pairwise_append.1 hincreasing).2.1
          exact Nat.le_of_lt ((List.pairwise_cons.1 hrest).1 c hc)

end FlowGraph

/-- A block that branches ends with an instruction that pushes a value. -/
theorem Plan.Prepared.exists_last {p : Procedure} {x : Setting} {settings : Settings}
    {polls : Option Polls} {plan : Plan} (h : plan.Prepared p x settings polls)
    (hbuilt : p.flow.Built) {block : Nat} {e : FlowEdge} (he : e ∈ plan.edgesOut block)
    (hbranch : e.label.isBranch = true) :
    ∃ done i, plan.instructions block = done ++ [i] ∧ i.operation.pushesValue = true := by
  obtain ⟨b, hb, -, hshape⟩ := h.shape hbuilt he
  have hcounts := (FlowGraph.malformation?_eq_none_iff rfl).1 hshape
  rcases hcounts with ⟨-, htrue, hfalse⟩ | ⟨-, -, -, i, hlast, hpushes⟩
  · have hmem : e.label ∈ ((plan.edgesOut block).map (·.label)).filter (· ≠ .exceptional) := by
      refine List.mem_filter.2 ⟨List.mem_map_of_mem he, ?_⟩
      cases hlabel : e.label with
      | exceptional => simp [hlabel, Transfer.isBranch] at hbranch
      | jump | whenTrue | whenFalse => rfl
    have hne := Nat.ne_of_gt (List.count_pos_iff.2 hmem)
    cases hlabel : e.label with
    | jump | exceptional => simp [hlabel, Transfer.isBranch] at hbranch
    | whenTrue => exact absurd htrue (hlabel ▸ hne)
    | whenFalse => exact absurd hfalse (hlabel ▸ hne)
  · obtain ⟨done, hdone⟩ := List.getLast?_eq_some_iff.1 hlast
    exact ⟨done, i, (h.instructions_eq hb).trans hdone, hpushes⟩

end Pathwise
