import Pathwise.Proofs.FlowGraph
import Pathwise.Proofs.Meaning

/-!
# Running a procedure

Instructions act on a memory; whatever the analysis knows nothing about may be any datum. To
dereference null is impossible, and so is to negate what is no truth value or to take more from the
stack than is there. Control leaves a block through an edge that goes with the condition on top of
the stack, or through an exceptional edge with an empty stack; a block that raises an exception is
left only so. A return takes its result from the stack and what follows it counts as well, so that
nothing depends on where returns stand.

What two data may be compared is a parameter: all of them, or only those that are alike.
-/

namespace Pathwise

/-- The data that an instruction may push, given those that it takes, the top of the stack first. -/
def Yields (x : Setting) (ok : Datum → Datum → Prop) (i : Instruction) (store : Symbol → Datum)
    (operands : List Datum) (d : Datum) : Prop :=
  match i.operation with
  | .identifier => ∀ y, x.semantics.symbol i.node = some y → d = store y
  | .literal .null => d = .null
  | .literal (.bool b) => d = .bool b
  | .literal (.integer _) => True
  | .literal (.string _) => d ≠ .null
  | .self => d = .this
  | .objectCreation _ => d ≠ .null
  | .arrayCreation _ => d ≠ .null
  | .invocation arguments hasReceiver =>
    hasReceiver = true → operands[arguments.length]? ≠ some .null
  | .memberAccess =>
    operands[0]? ≠ some .null ∧
      (operands[0]? = some .this → x.namesField i.node = true →
        ∀ y, x.semantics.symbol i.node = some y → d = store y)
  | .binary .equals =>
    ∃ left right, operands = [right, left] ∧ ok left right ∧ d = .bool (left = right)
  | .binary .notEquals =>
    ∃ left right, operands = [right, left] ∧ ok left right ∧ d = .bool (left ≠ right)
  | .binary .relational => True
  | .binary .arithmetic => True
  | .logicalNot => ∃ b, operands = [.bool b] ∧ d = .bool !b
  | .assign => False
  | .pop => False
  | .raise => False
  | .ret _ => False

/-- What an instruction does to a memory. -/
inductive Performs (x : Setting) (ok : Datum → Datum → Prop) (i : Instruction) :
    Memory → Memory → Prop where
  /-- The operands are taken and a datum is pushed. -/
  | push {m : Memory} {d : Datum} (hcount : i.operation.operandCount ≤ m.stack.length)
    (hyields : Yields x ok i m.store (m.stack.take i.operation.operandCount) d) :
    Performs x ok i m { m with stack := d :: m.stack.drop i.operation.operandCount }
  /-- A datum is put into a variable. -/
  | assign {m : Memory} {d : Datum} {rest : List Datum} {y : Symbol}
    (hoperation : i.operation = .assign) (hstack : m.stack = d :: rest)
    (hsymbol : x.semantics.symbol i.node = some y) :
    Performs x ok i m ({ m with stack := rest }.set y d)
  /-- The operands are dropped, returned, raised, or assigned to what is no variable. -/
  | drop {m : Memory} (hcount : i.operation.operandCount ≤ m.stack.length)
    (hpushes : i.operation.pushesValue = false)
    (hsymbol : i.operation = .assign → x.semantics.symbol i.node = none) :
    Performs x ok i m { m with stack := m.stack.drop i.operation.operandCount }

/-- Instructions are performed one after the other, none of which raises an exception. -/
inductive Executes (x : Setting) (ok : Datum → Datum → Prop) :
    List Instruction → Memory → Memory → Prop where
  /-- There is nothing to do. -/
  | nil {m : Memory} : Executes x ok [] m m
  /-- An instruction is performed, and then the rest. -/
  | cons {i : Instruction} {rest : List Instruction} {m m' m'' : Memory}
    (hperforms : Performs x ok i m m') (hraise : i.operation ≠ .raise)
    (hrest : Executes x ok rest m' m'') : Executes x ok (i :: rest) m m''

/-- Control leaves a block through an edge. -/
inductive Takes (e : FlowEdge) : Memory → Memory → Prop where
  /-- Through a jump. -/
  | jump {m : Memory} (hlabel : e.label = .jump) : Takes e m m
  /-- Through an exceptional edge. -/
  | exceptional {m : Memory} (hlabel : e.label = .exceptional) : Takes e m { m with stack := [] }
  /-- When the condition holds. -/
  | whenTrue {m : Memory} {rest : List Datum} (hlabel : e.label = .whenTrue)
    (hstack : m.stack = .bool true :: rest) : Takes e m { m with stack := rest }
  /-- When the condition fails. -/
  | whenFalse {m : Memory} {rest : List Datum} (hlabel : e.label = .whenFalse)
    (hstack : m.stack = .bool false :: rest) : Takes e m { m with stack := rest }

/-- An execution of the procedure arrives at a block with a memory. -/
inductive Arrives (plan : Plan) (ok : Datum → Datum → Prop) : Nat → Memory → Prop where
  /-- The procedure is entered with any data in its variables. -/
  | entry (store : Symbol → Datum) : Arrives plan ok plan.entry ⟨store, []⟩
  /-- A block is executed to its end and left. -/
  | leave {b : Nat} {m m' m'' : Memory} {e : FlowEdge} (h : Arrives plan ok b m)
    (hexecutes : Executes plan.setting ok (plan.instructions b) m m') (he : e ∈ plan.edgesOut b)
    (htakes : Takes e m' m'') : Arrives plan ok e.tail m''
  /-- An exception is raised. -/
  | raise {b : Nat} {m m' m'' : Memory} {e : FlowEdge} {before after : List Instruction}
    {i : Instruction} (h : Arrives plan ok b m)
    (hsplit : plan.instructions b = before ++ i :: after)
    (hexecutes : Executes plan.setting ok before m m') (hraise : i.operation = .raise)
    (hperforms : Performs plan.setting ok i m' m'') (he : e ∈ plan.edgesOut b)
    (hlabel : e.label = .exceptional) : Arrives plan ok e.tail { m'' with stack := [] }

end Pathwise
