import Pathwise.Effect
import Pathwise.Program.Annotations
import Pathwise.Program.Block
import Pathwise.Value.Supply

/-!
# What an instruction does to a state

Every instruction takes its operands from the stack and pushes its result. A variable that is read
before it was assigned gets a value of its own, and what is not modelled is such a value, too.
-/

namespace Pathwise

/-- What the meaning of instructions depends on. -/
structure Setting where
  /-- What is known about syntax nodes. -/
  semantics : Semantics
  /-- What is known about methods. -/
  effects : Effects

namespace Setting

/-- Pushes a value of its own. -/
def pushFresh (supply : Supply) (s : State) : State × Supply :=
  let (v, supply) := supply.fresh
  (s.push v, supply)

/-- Pushes a value of its own that is not null. -/
def pushNotNull (supply : Supply) (s : State) : State × Supply :=
  let (v, supply) := supply.fresh
  ((s.overwrite v (.nullability .notNull)).push v, supply)

/-- Pushes the value of the variable that a node names. -/
def read (x : Setting) (node : NodeId) (supply : Supply) (s : State) : State × Supply :=
  match x.semantics.symbol node with
  | none => pushFresh supply s
  | some symbol =>
    match s.lookup symbol with
    | some v => (s.push v, supply)
    | none =>
      let (v, supply) := supply.fresh
      ((s.bind symbol v).push v, supply)

/-- The effects of the method that a node calls. -/
def call (x : Setting) (node : NodeId) (c : Call) (s : State) : State :=
  match x.semantics.method node with
  | some m => x.effects.apply m c s
  | none => s

/-- Whether a node names a field. -/
def namesField (x : Setting) (node : NodeId) : Bool :=
  match x.semantics.symbol node with
  | some symbol => symbol.kind == .field
  | none => false

/-- Executes an instruction. -/
def execute (x : Setting) (i : Instruction) (supply : Supply) (s : State) : State × Supply :=
  match i.operation with
  | .identifier => x.read i.node supply s
  | .assign =>
    let (v, s) := s.pop
    match x.semantics.symbol i.node with
    | some symbol => (s.bind symbol v, supply)
    | none => (s, supply)
  | .literal .null => (s.push .null, supply)
  | .literal (.bool b) => (s.push (.bool b), supply)
  | .literal (.integer _) => pushFresh supply s
  | .literal (.string _) => pushNotNull supply s
  | .self => (s.push .self, supply)
  | .objectCreation arguments =>
    let (arguments, s) := s.popMany arguments.length
    let (result, supply) := supply.fresh
    let s := x.call i.node ⟨none, arguments, result⟩ s
    ((s.overwrite result (.nullability .notNull)).push result, supply)
  | .arrayCreation dimensions =>
    let (_, s) := s.popMany dimensions.length
    pushNotNull supply s
  | .invocation arguments hasReceiver =>
    let (arguments, s) := s.popMany arguments.length
    let (receiver, s) := if hasReceiver then s.pop.map some id else (none, s)
    let (result, supply) := supply.fresh
    ((x.call i.node ⟨receiver, arguments, result⟩ s).push result, supply)
  | .memberAccess =>
    let (object, s) := s.pop
    if object.isSelf && x.namesField i.node then x.read i.node supply s else pushFresh supply s
  | .binary op =>
    let (right, s) := s.pop
    let (left, s) := s.pop
    let (v, supply) := match op with
      | .equals => supply.equal left right
      | .notEquals => supply.notEqual left right
      | .relational => supply.fresh
      | .arithmetic => supply.fresh
    (s.push v, supply)
  | .logicalNot =>
    let (operand, s) := s.pop
    let (v, supply) := supply.not operand
    (s.push v, supply)
  | .pop => (s.pop.2, supply)
  | .raise => (s.pop.2, supply)
  | .ret true => (s.pop.2, supply)
  | .ret false => (s, supply)

end Setting

end Pathwise
