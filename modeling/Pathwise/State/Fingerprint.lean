import Pathwise.State.Basic

/-!
# Comparing states

Two states are the same if they bind the same variables to the same values, have the same stack,
and record the same constraints on the same values, where values are compared by identity. A
fingerprint starts with a number that nearly always tells different states apart, so that most
comparisons end there.
-/

namespace Pathwise

/-- A state with every value replaced by its identity. -/
structure Fingerprint where
  /-- A number computed from the rest, compared first. -/
  digest : UInt64
  /-- The variables and the identities of their values. -/
  bindings : List (Nat × Symbol)
  /-- The identities on the stack. -/
  stack : List Nat
  /-- What is recorded, by identity. -/
  facts : List (Nat × ConstraintSet)
  deriving DecidableEq, Repr

namespace Fingerprint

/-- Takes one more number into a digest. -/
def mix (digest : UInt64) (n : Nat) : UInt64 := digest * 1000003 + n.toUInt64 + 1

/-- A number for a set of constraints: two binary digits for each domain. -/
def weight (set : ConstraintSet) : Nat :=
  let digit {α : Type} (isFirst : α → Bool) (slot : Option α) : Nat :=
    match slot with
    | none => 0
    | some a => if isFirst a then 1 else 2
  digit (· == .null) set.nullability + 4 * digit (· == .holds) set.truth +
    16 * digit (· == .disposed) set.disposal + 64 * digit (· == .constant) set.byteArray +
    256 * digit (· == .short) set.saltSize

/-- The fingerprint of its parts. -/
def ofParts (bindings : List (Nat × Symbol)) (stack : List Nat)
    (facts : List (Nat × ConstraintSet)) : Fingerprint :=
  let digest := bindings.foldl (fun d (id, _) => mix d id) 0
  let digest := stack.foldl mix (mix digest 0)
  let digest := facts.foldl (fun d (id, set) => mix (mix d id) (weight set)) (mix digest 0)
  ⟨digest, bindings, stack, facts⟩

end Fingerprint

namespace State

/-- The state by identities. -/
def fingerprint (s : State) : Fingerprint :=
  .ofParts (s.bindings.entries.map fun (symbol, v) => (v.id, symbol)) (s.stack.map Value.id)
    (s.facts.entries.map fun (id, fact) => (id, fact.held))

/-- Whether two states are the same. -/
def same (s t : State) : Bool := s.fingerprint = t.fingerprint

end State

end Pathwise
