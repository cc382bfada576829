import Pathwise.Proofs.JsonText
import Pathwise.Program.Codec
import Pathwise.Proofs.SortedMap

/-!
# Records are read as they were written

For each type of the program, the JSON that is written for a value can be written as text, and the
reader of the type takes it for this value. Indices of blocks are read as 64-bit numbers; what is
written for a larger one is not read.
-/

namespace Pathwise

namespace Json

variable {α : Type}

/-- A value can be written as text, and a reader takes it for the given datum. -/
structure Shows (j : Json) (reader : Json → Option α) (a : α) : Prop where
  /-- It can be written. -/
  writable : j.Writable
  /-- It is read. -/
  read : reader j = some a

/-! ## Numbers and texts -/

/-- A number below the bound is read as it is. -/
theorem natBelow?_nat {bound n : Nat} (h : n < bound) : natBelow? bound (.nat n) = some n := by
  simp [natBelow?, nat, literalNat?_toDigits, h]

/-- A text shows itself. -/
theorem shows_text (s : String) : (Json.text s).Shows text? s := ⟨.text s, rfl⟩

/-- So does a truth value. -/
theorem shows_bool (b : Bool) : (Json.bool b).Shows bool? b := ⟨.bool b, rfl⟩

/-- So does a count of 64 bits. -/
theorem shows_count {n : Nat} (h : n < UInt64.size) : (Json.nat n).Shows count? n :=
  ⟨.int n, natBelow?_nat h⟩

/-- So does a number of 32 bits. -/
theorem shows_uint32 (n : UInt32) : (Json.nat n.toNat).Shows uint32? n where
  writable := .int n.toNat
  read := by simp [uint32?, natBelow?_nat n.toNat_lt_size]

/-- An integer within the bounds of 64 bits is read as it is. -/
theorem int64?_int {i : Int} (hlow : (-i).toNat ≤ negatives) (hhigh : i.toNat < negatives) :
    int64? (.int i) = some (Int64.ofInt i) := by
  rcases toList_int_repr i with ⟨hsign, hi⟩ | ⟨hsign, hi⟩
  · have hback : (i.toNat : Int) = i := Int.toNat_of_nonneg hsign
    rw [Json.int, int64?, hi]
    split
    · next digits hminus => exact absurd hminus (toDigits_ne_minus _ _)
    · rw [literalNat?_toDigits, Option.filter_some, if_pos (by simpa using hhigh)]
      exact congrArg (fun n => some (Int64.ofInt n)) hback
  · have hbound : 0 < (-i).toNat ∧ (-i).toNat ≤ negatives := ⟨by omega, hlow⟩
    have hback : -((-i).toNat : Int) = i := by omega
    rw [Json.int, int64?, hi]
    split
    · next digits hminus =>
      rw [← (List.cons.inj hminus).2, literalNat?_toDigits, Option.filter_some,
        if_pos (by simpa using hbound)]
      exact congrArg (fun n => some (Int64.ofInt n)) hback
    · next hplain => exact absurd rfl (hplain _)

/-- An integer of 64 bits shows itself. -/
theorem shows_int64 (i : Int64) : (Json.int i.toInt).Shows int64? i where
  writable := .int i.toInt
  read := by
    have hlow : (-i.toInt).toNat ≤ negatives := by
      have hle := i.le_toInt
      rw [negatives]
      omega
    have hhigh : i.toInt.toNat < negatives := by
      have hlt := i.toInt_lt
      rw [negatives]
      omega
    rw [int64?_int hlow hhigh, Int64.ofInt_toInt]

/-! ## Options, lists and records -/

/-- Something that may be missing shows if it is there and is not written as nothing. -/
theorem shows_option {write : α → Json} {reader : Json → Option α} {o : Option α}
    (h : ∀ a, o = some a → (write a).Shows reader a) (hnull : ∀ a, write a ≠ .null) :
    (Json.option write o).Shows (option? reader) o := by
  cases o with
  | none => exact ⟨.null, rfl⟩
  | some a =>
    obtain ⟨hwritable, hread⟩ := h a rfl
    refine ⟨hwritable, ?_⟩
    rw [Json.option, option?, hread]
    · rfl
    · exact hnull a

/-- A list whose items are written and read one by one. -/
theorem mapM_map_eq_some {β : Type} {write : α → β} {reader : β → Option α} {items : List α}
    (h : ∀ a ∈ items, reader (write a) = some a) : (items.map write).mapM reader = some items := by
  induction items with
  | nil => rfl
  | cons a items ih =>
    obtain ⟨hfirst, hrest⟩ := List.forall_mem_cons.1 h
    simp [List.mapM_cons, hfirst, ih hrest]

/-- A list shows if its items do. -/
theorem shows_list {write : α → Json} {reader : Json → Option α} {items : List α}
    (h : ∀ a ∈ items, (write a).Shows reader a) :
    (Json.list write items).Shows (list? reader) items where
  writable := by
    refine .array fun j hj => ?_
    obtain ⟨a, ha, rfl⟩ := List.mem_map.1 hj
    exact (h a ha).writable
  read := mapM_map_eq_some fun a ha => (h a ha).read

/-- Members with known names, each once, are all taken. -/
theorem knownMembers_ofString {members known : List (String × Json)} {names : List String}
    (hmem : ∀ m ∈ members, m.1 ∈ names) (hnodup : ((known.reverse ++ members).map Prod.fst).Nodup) :
    knownMembers names (members.map fun m => (.ofString m.1, m.2)) known =
      some (known.reverse ++ members) := by
  induction members generalizing known with
  | nil => simp [knownMembers]
  | cons m members ih =>
    obtain ⟨hfirst, hrest⟩ := List.forall_mem_cons.1 hmem
    have hnew : known.any (fun k => k.1 == m.1) = false := by
      rw [List.map_append, List.map_cons, List.nodup_append] at hnodup
      rw [List.any_eq_false]
      intro k hk heq
      refine hnodup.2.2 k.1 ?_ m.1 List.mem_cons_self (beq_iff_eq.1 heq)
      exact List.mem_map_of_mem (List.mem_reverse.2 hk)
    have hnext := @ih ((m.1, m.2) :: known) hrest (by simpa using hnodup)
    simpa [knownMembers, Quoted.ofString, hfirst, hnew] using hnext

/-- A record that is written with all its fields has exactly these. -/
theorem fields?_ofMembers {members : List (String × Json)} {names : List String}
    (hnames : members.map Prod.fst = names) (hnodup : names.Nodup) :
    (ofMembers members).fields? names = some ⟨false, members⟩ := by
  have hknown : knownMembers names (members.map fun m => (.ofString m.1, m.2)) [] = some members :=
    knownMembers_ofString (fun m hm => hnames ▸ List.mem_map_of_mem hm) (by simpa [hnames])
  rw [ofMembers, fields?, hknown]
  rfl

/-- A variant can be written if its content can. -/
theorem writable_variant (name : String) {content : Json} (h : content.Writable) :
    (ofMembers [(name, content)]).Writable :=
  .object fun _ hm => List.mem_singleton.1 hm ▸ h

/-- A variant is read with its name and its content. -/
theorem variant?_ofMembers (name : String) (content : Json) :
    (ofMembers [(name, content)]).variant? = some (name, some content) := rfl

/-- A record with known fields is read by a reader that makes do with them. -/
theorem shows_record {members : List (String × Json)} {names : List String}
    {reader : Fields → Option α} {a : α} (hnames : members.map Prod.fst = names)
    (hnodup : names.Nodup) (hwritable : ∀ m ∈ members, m.2.Writable)
    (hread : reader ⟨false, members⟩ = some a) :
    (ofMembers members).Shows (fun j => (j.fields? names).bind reader) a where
  writable := .object hwritable
  read := by rw [fields?_ofMembers hnames hnodup, Option.bind_some, hread]

/-! ## Tables -/

/-- A number is written as a key without escapes. -/
theorem numberedKey?_repr {bound n : Nat} (h : n < bound) :
    numberedKey? bound (.ofString n.repr) = some n := by
  have hplain : ∀ c ∈ Nat.toDigits 10 n, Quoted.needsEscape c = false := by
    intro c hc
    have hdigit : c.isDigit = true := List.all_eq_true.1 (all_isDigit_toDigits n) c hc
    have hrange : 48 ≤ c.toNat ∧ c.toNat ≤ 57 := by
      simpa [Char.isDigit, UInt32.le_iff_toNat_le] using hdigit
    have hquote : c ≠ '"' := by
      rintro rfl
      simp at hrange
    have hslash : c ≠ '\\' := by
      rintro rfl
      simp at hrange
    have hcontrol : ¬c.toNat < 0x20 := by omega
    simp [Quoted.needsEscape, hquote, hslash, hcontrol]
  simpa [numberedKey?, Quoted.ofString, literalNat?_toDigits, h] using hplain

/-- A table that is written with a number for each key. -/
theorem shows_numberedMap {κ : Type} [Ord κ] [Std.TransOrd κ] [Std.LawfulEqOrd κ] (bound : Nat)
    (ofNat : Nat → κ) (toNat : κ → Nat) {write : α → Json} {reader : Json → Option α}
    (hbound : ∀ k, toNat k < bound) (hback : ∀ k, ofNat (toNat k) = k)
    (h : ∀ a, (write a).Shows reader a) (table : SortedMap κ α) :
    (ofMembers (table.entries.map fun e => ((toNat e.1).repr, write e.2))).Shows
      (numberedMap? bound ofNat reader) table where
  writable := by
    refine .object fun m hm => ?_
    obtain ⟨entry, -, rfl⟩ := List.mem_map.1 hm
    exact (h entry.2).writable
  read := by
    rw [ofMembers, numberedMap?, List.map_map, mapM_map_eq_some]
    · exact congrArg some table.ofList_entries
    · intro entry _
      simp [numberedKey?_repr (hbound entry.1), hback, (h entry.2).read]

end Json

/-! ## The types of the program -/

namespace NodeId

/-- A node shows in its written form. -/
theorem shows (n : NodeId) : n.toJson.Shows ofJson? n where
  writable := (Json.shows_uint32 n.val).writable
  read := by
    rw [ofJson?, toJson, (Json.shows_uint32 n.val).read]
    rfl

end NodeId

namespace Span

/-- A place shows in its written form. -/
theorem shows (s : Span) : s.toJson.Shows ofJson? s := by
  have hline := Json.shows_uint32 s.line
  have hcolumn := Json.shows_uint32 s.column
  refine Json.shows_record rfl (by decide) (by simp [hline.writable, hcolumn.writable]) ?_
  simp [Json.Fields.required, Json.Fields.find?, hline.read, hcolumn.read]

end Span

namespace SymbolKind

/-- A kind of symbols shows in its written form. -/
theorem shows (k : SymbolKind) : k.toJson.Shows ofJson? k := by
  cases k <;> exact ⟨.text _, rfl⟩

end SymbolKind

namespace Symbol

/-- A symbol shows in its written form. -/
theorem shows (s : Symbol) : s.toJson.Shows ofJson? s := by
  have hname := Json.shows_text s.name
  have hkind := s.kind.shows
  refine Json.shows_record rfl (by decide) (by simp [hname.writable, hkind.writable]) ?_
  simp [Json.Fields.required, Json.Fields.find?, hname.read, hkind.read]

end Symbol

namespace MethodRef

/-- A method shows in its written form. -/
theorem shows (m : MethodRef) : m.toJson.Shows ofJson? m := by
  have htype := Json.shows_text m.containingType
  have hname := Json.shows_text m.name
  refine Json.shows_record rfl (by decide) (by simp [htype.writable, hname.writable]) ?_
  simp [Json.Fields.required, Json.Fields.find?, htype.read, hname.read]

end MethodRef

namespace Constant

/-- A constant shows in its written form. -/
theorem shows (c : Constant) : c.toJson.Shows ofJson? c := by
  cases c with
  | null => exact ⟨.text _, rfl⟩
  | bool b => exact ⟨Json.writable_variant _ (.bool b), rfl⟩
  | integer i =>
    have hi := Json.shows_int64 i
    refine ⟨Json.writable_variant _ hi.writable, ?_⟩
    simp [toJson, ofJson?, Json.variant?_ofMembers, hi.read]
  | string s => exact ⟨Json.writable_variant _ (.text s), rfl⟩

end Constant

namespace BinaryOperator

/-- An operator shows in its written form. -/
theorem shows (op : BinaryOperator) : op.toJson.Shows ofJson? op := by
  cases op <;> exact ⟨.text _, rfl⟩

end BinaryOperator

namespace Operation

/-- An operation shows in its written form, whatever it carries. -/
theorem shows (op : Operation) : op.toJson.Shows ofJson? op := by
  cases op with
  | literal c =>
    have hc := c.shows
    refine ⟨Json.writable_variant _ hc.writable, ?_⟩
    simp [toJson, ofJson?, Json.variant?_ofMembers, hc.read]
  | objectCreation arguments =>
    have harguments := Json.shows_list fun n (_ : n ∈ arguments) => n.shows
    refine ⟨Json.writable_variant _ (Json.writable_variant _ harguments.writable), ?_⟩
    simp [toJson, ofJson?, Json.variant?_ofMembers, Json.fields?_ofMembers, Json.Fields.required,
      Json.Fields.find?, harguments.read]
  | arrayCreation dimensions =>
    have hdimensions := Json.shows_list fun n (_ : n ∈ dimensions) => n.shows
    refine ⟨Json.writable_variant _ (Json.writable_variant _ hdimensions.writable), ?_⟩
    simp [toJson, ofJson?, Json.variant?_ofMembers, Json.fields?_ofMembers, Json.Fields.required,
      Json.Fields.find?, hdimensions.read]
  | invocation arguments hasReceiver =>
    have harguments := Json.shows_list fun n (_ : n ∈ arguments) => n.shows
    have hreceiver := Json.shows_bool hasReceiver
    refine ⟨Json.writable_variant _ (.object ?_), ?_⟩
    · simp [harguments.writable, hreceiver.writable]
    · simp [toJson, ofJson?, Json.variant?_ofMembers, Json.fields?_ofMembers, Json.Fields.required,
        Json.Fields.find?, harguments.read, hreceiver.read]
  | binary op =>
    have hop := op.shows
    refine ⟨Json.writable_variant _ hop.writable, ?_⟩
    simp [toJson, ofJson?, Json.variant?_ofMembers, hop.read]
  | ret hasValue =>
    have hvalue := Json.shows_bool hasValue
    refine ⟨Json.writable_variant _ (Json.writable_variant _ hvalue.writable), ?_⟩
    simp [toJson, ofJson?, Json.variant?_ofMembers, Json.fields?_ofMembers, Json.Fields.required,
      Json.Fields.find?, hvalue.read]
  | _ => exact ⟨.text _, rfl⟩

end Operation

namespace Instruction

/-- An instruction shows in its written form. -/
theorem shows (i : Instruction) : i.toJson.Shows ofJson? i := by
  have hnode := i.node.shows
  have hoperation := i.operation.shows
  have hspan := Json.shows_option (fun s (_ : i.span = some s) => s.shows) fun s => by
    simp [Span.toJson, Json.ofMembers]
  refine Json.shows_record rfl (by decide)
    (by simp [hnode.writable, hoperation.writable, hspan.writable]) ?_
  simp [Json.Fields.required, Json.Fields.withDefault, Json.Fields.find?, hnode.read,
    hoperation.read, hspan.read]

end Instruction

namespace Block

/-- A block shows in its written form if its index has 64 bits. -/
theorem shows {b : Block} (h : b.index < UInt64.size) : b.toJson.Shows ofJson? b := by
  have hindex := Json.shows_count h
  have hlist := Json.shows_list fun i (_ : i ∈ b.instructions) => i.shows
  refine Json.shows_record rfl (by decide) (by simp [hindex.writable, hlist.writable]) ?_
  simp [Json.Fields.required, Json.Fields.find?, hindex.read, hlist.read]

end Block

namespace Transfer

/-- A transfer shows in its written form. -/
theorem shows (t : Transfer) : t.toJson.Shows ofJson? t := by
  cases t <;> exact ⟨.text _, rfl⟩

end Transfer

namespace FlowEdge

/-- An edge shows in its written form if the indices of its ends have 64 bits. -/
theorem shows {e : FlowEdge} (hhead : e.head < UInt64.size) (htail : e.tail < UInt64.size) :
    (toJson e).Shows ofJson? e := by
  have hhead := Json.shows_count hhead
  have htail := Json.shows_count htail
  have hkind := e.label.shows
  refine Json.shows_record rfl (by decide)
    (by simp [hhead.writable, htail.writable, hkind.writable]) ?_
  simp [Json.Fields.required, Json.Fields.find?, hhead.read, htail.read, hkind.read]

end FlowEdge

namespace FlowGraph

/-- The written form of a flow graph shows its parts. -/
theorem shows_parts {g : FlowGraph} (hentry : ∀ index, g.entry = some index → index < UInt64.size)
    (hblocks : ∀ b ∈ g.blocks, b.index < UInt64.size)
    (hedges : ∀ e ∈ g.edges, e.head < UInt64.size ∧ e.tail < UInt64.size) :
    g.toJson.Shows partsOfJson? (g.entry, g.blocks, g.edges) := by
  have hentry := Json.shows_option (fun index hindex => Json.shows_count (hentry index hindex))
    fun index => by simp [Json.nat]
  have hblocks := Json.shows_list fun b hb => Block.shows (hblocks b hb)
  have hedges := Json.shows_list fun e he => FlowEdge.shows (hedges e he).1 (hedges e he).2
  refine Json.shows_record rfl (by decide)
    (by simp [hentry.writable, hblocks.writable, hedges.writable]) ?_
  simp [Json.Fields.required, Json.Fields.optional, Json.Fields.find?, hentry.read, hblocks.read,
    hedges.read]

end FlowGraph

namespace Procedure

/-- A procedure can be written if its flow graph can. -/
theorem writable_toJson {p : Procedure} (h : p.flow.toJson.Writable) : p.toJson.Writable := by
  have hname := Json.shows_text p.name
  have hparameters := Json.shows_list fun s (_ : s ∈ p.parameters) => s.shows
  exact .object (by simp [hname.writable, hparameters.writable, h])

/-- A procedure is read as it was written if its code is. -/
theorem ofJson_toJson {p : Procedure} (h : FlowGraph.ofJson p.flow.toJson = .ok p.flow) :
    ofJson p.toJson = .ok p := by
  have hname := Json.shows_text p.name
  have hparameters := Json.shows_list fun s (_ : s ∈ p.parameters) => s.shows
  simp [ofJson, toJson, membersOf, Json.ofMembers, Draft.read, Draft.start, Quoted.ofString,
    ReadError.ofOption, hname.read, hparameters.read, h, bind, Except.bind, pure, Except.pure]

end Procedure

namespace Annotations

/-- A table shows in its written form if its entries do. -/
theorem shows_table {α : Type} {write : α → Json} {reader : Json → Option α}
    (h : ∀ a, (write a).Shows reader a) (table : SortedMap NodeId α) :
    (tableToJson write table).Shows (tableOfJson? reader) table := by
  have hback : ∀ node : NodeId, ⟨UInt32.ofNat node.val.toNat⟩ = node :=
    fun _ => congrArg NodeId.mk UInt32.ofNat_toNat
  exact Json.shows_numberedMap UInt32.size (fun n => ⟨UInt32.ofNat n⟩) (fun node => node.val.toNat)
    (fun node => node.val.toNat_lt_size) hback h table

/-- Annotations show in their written form. -/
theorem shows (a : Annotations) : a.toJson.Shows ofJson? a := by
  have hsymbols := shows_table Symbol.shows a.symbols
  have htypes := shows_table Json.shows_text a.types
  have hmethods := shows_table MethodRef.shows a.methods
  have hconstants := shows_table Constant.shows a.constants
  refine Json.shows_record rfl (by decide)
    (by simp [hsymbols.writable, htypes.writable, hmethods.writable, hconstants.writable]) ?_
  simp [Json.Fields.withDefault, Json.Fields.find?, hsymbols.read, htypes.read, hmethods.read,
    hconstants.read]

end Annotations

end Pathwise
