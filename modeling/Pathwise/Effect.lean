import Pathwise.State.Basic

/-!
# Effects of known methods

Calling a method of which an effect is known records constraints on the values that take part in
the call. All other calls record nothing.
-/

namespace Pathwise

/-- The part of a call that an effect is about. -/
inductive Participant where
  /-- The argument at an index. -/
  | argument (index : Nat)
  /-- The object on which the method is called. -/
  | receiver
  /-- The result of the call. -/
  | result
  deriving DecidableEq, Repr

/-- A constraint that a call puts on one of its participants. -/
structure Effect where
  /-- The participant. -/
  target : Participant
  /-- The constraint. -/
  constraint : Constraint
  deriving DecidableEq, Repr

/-- The values that take part in a call. -/
structure Call where
  /-- The object on which the method is called, if there is one. -/
  receiver : Option Value
  /-- The arguments in order. -/
  arguments : List Value
  /-- The result. -/
  result : Value

/-- The value of a participant. -/
def Call.participant (c : Call) : Participant → Option Value
  | .argument index => c.arguments[index]?
  | .receiver => c.receiver
  | .result => some c.result

/-- An effect on a state. An effect on a participant that the call does not have is skipped. -/
def Effect.apply (e : Effect) (c : Call) (s : State) : State :=
  match c.participant e.target with
  | some v => s.overwrite v e.constraint
  | none => s

/-- The known effects of methods. -/
structure Effects where
  /-- The effects of each method in the order in which they were added. -/
  table : SortedMap MethodRef (List Effect)

namespace Effects

/-- No effect is known. -/
def none : Effects := ⟨.empty⟩

/-- The effects of a method. -/
def of (es : Effects) (m : MethodRef) : List Effect := (es.table.get? m).getD []

/-- Adds an effect behind those already known of the method. -/
def register (es : Effects) (m : MethodRef) (e : Effect) : Effects :=
  ⟨es.table.insert m (es.of m ++ [e])⟩

/-- Applies the effects of a method in order. -/
def apply (es : Effects) (m : MethodRef) (c : Call) (s : State) : State :=
  (es.of m).foldl (fun s e => e.apply c s) s

/-- The generators of random bytes. -/
def randomGenerators : List String := ["RandomNumberGenerator", "RNGCryptoServiceProvider"]

/-- The methods of a generator that fill an array with random bytes. -/
def fillMethods : List String := ["GetBytes", "GetNonZeroBytes"]

/-- Filling an array with random bytes makes it unpredictable and long enough for a salt. -/
def standard : Effects :=
  let methods := randomGenerators.flatMap fun type => fillMethods.map fun name => ⟨type, name⟩
  methods.foldl (fun es m =>
    (es.register m ⟨.argument 0, .byteArray .modified⟩).register m
      ⟨.argument 0, .saltSize .safe⟩) none

end Effects

end Pathwise
