/-!
# What a syntax node can refer to

Variables, methods and compile-time constants.
-/

namespace Pathwise

/-- What kind of variable a symbol names. -/
inductive SymbolKind where
  /-- A variable of the procedure. -/
  | localVariable
  /-- A parameter of the procedure. -/
  | parameter
  /-- A field of an object. -/
  | field
  deriving DecidableEq, Repr, Ord

namespace SymbolKind

/-- The place of a kind in the order of kinds. -/
def rank : SymbolKind → Nat
  | .localVariable => 0
  | .parameter => 1
  | .field => 2

theorem rank_injective {a b : SymbolKind} (h : a.rank = b.rank) : a = b := by
  cases a <;> cases b <;> simp_all [rank]

end SymbolKind

/-- A variable. Variables of one name and different kinds are different. -/
structure Symbol where
  /-- The name. -/
  name : String
  /-- The kind. -/
  kind : SymbolKind
  deriving DecidableEq, Repr

namespace Symbol

/-- Symbols are ordered by name, then by kind. -/
instance : Ord Symbol :=
  ⟨compareLex (compareOn Symbol.name) (compareOn fun s => s.kind.rank)⟩

instance : Std.TransOrd Symbol :=
  inferInstanceAs
    (Std.TransCmp (compareLex (compareOn Symbol.name) (compareOn fun s => s.kind.rank)))

instance : Std.LawfulEqOrd Symbol where
  eq_of_compare {a b} h := by
    obtain ⟨hn, hk⟩ := Ordering.then_eq_eq.1 (h : (compare a.name b.name).then _ = .eq)
    have hrank : compare a.kind.rank b.kind.rank = .eq := hk
    have hkind : a.kind = b.kind := SymbolKind.rank_injective (by simpa using hrank)
    cases a
    cases b
    simp_all [compareOn]

/-- A symbol as text: its name. -/
def render (s : Symbol) : String := s.name

end Symbol

/-- A method, by the type that declares it and its name. -/
structure MethodRef where
  /-- The declaring type. -/
  containingType : String
  /-- The name of the method. -/
  name : String
  deriving DecidableEq, Repr

namespace MethodRef

/-- Methods are ordered by declaring type, then by name. -/
instance : Ord MethodRef :=
  ⟨compareLex (compareOn MethodRef.containingType) (compareOn MethodRef.name)⟩

instance : Std.TransOrd MethodRef :=
  inferInstanceAs
    (Std.TransCmp (compareLex (compareOn MethodRef.containingType) (compareOn MethodRef.name)))

instance : Std.LawfulEqOrd MethodRef where
  eq_of_compare {a b} h := by
    obtain ⟨ht, hn⟩ :=
      Ordering.then_eq_eq.1 (h : (compare a.containingType b.containingType).then _ = .eq)
    cases a
    cases b
    simp_all [compareOn]

/-- The name that constructors have. -/
def constructorName : String := ".ctor"

/-- The constructor of a type. -/
def constructor (type : String) : MethodRef := ⟨type, constructorName⟩

/-- Whether the method is a constructor. -/
def isConstructor (m : MethodRef) : Bool := m.name == constructorName

/-- Whether the method has the given name and is declared by one of the given types. -/
def isDeclaredBy (m : MethodRef) (types : List String) (name : String) : Bool :=
  m.name == name && types.contains m.containingType

/-- A method as text: type and name with a dot between them. -/
def render (m : MethodRef) : String := m.containingType ++ "." ++ m.name

end MethodRef

/-- A compile-time constant. -/
inductive Constant where
  /-- The null reference. -/
  | null
  /-- A truth value. -/
  | bool (b : Bool)
  /-- An integer. -/
  | integer (i : Int64)
  /-- A text. -/
  | string (s : String)
  deriving DecidableEq, Repr, Ord

namespace Constant

/-- The integer of an integer constant. -/
def integer? : Constant → Option Int64
  | .integer i => some i
  | _ => none

/-- A constant as text. The characters of a text stand between quotes as they are. -/
def render : Constant → String
  | .null => "null"
  | .bool true => "true"
  | .bool false => "false"
  | .integer i => i.toInt.repr
  | .string s => "\"" ++ s ++ "\""

end Constant

end Pathwise
