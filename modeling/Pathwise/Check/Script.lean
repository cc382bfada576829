import Pathwise.Check.Basic
import Pathwise.State.Basic

/-!
# Checks described by data

A script is a check that does one thing each time it is called at a place that it is guarded to.
-/

namespace Pathwise

/-- Which value a script acts on. -/
inductive Target where
  /-- The object of the instruction. -/
  | receiver
  /-- An argument of the instruction. -/
  | argument (index : Nat)
  /-- The value at a depth of the stack. -/
  | peek (depth : Nat)
  /-- The value of a variable. -/
  | bound (s : Symbol)
  /-- A given value. -/
  | value (v : Value)

/-- The value that a target stands for. -/
def Target.find (t : Target) (site : Site) (s : State) : Option Value :=
  match t with
  | .receiver => site.receiver s
  | .argument index => site.argument s index
  | .peek depth => some (s.peek depth)
  | .bound name => s.lookup name
  | .value v => some v

/-- What a script does. An action on a target does nothing without one. -/
inductive Action where
  /-- Notes the state. -/
  | note
  /-- Fails. -/
  | fail (message : String)
  /-- Ends the path. -/
  | prune
  /-- Asks to end the run. -/
  | cancel
  /-- Reports, under a key if one is given. -/
  | report (key : Option String) (message : String)
  /-- Empties the stack. -/
  | clearStack
  /-- Assumes a constraint on the target. -/
  | assume (t : Option Target) (c : Constraint)
  /-- Records a constraint on the target in place of another. -/
  | overwrite (t : Option Target) (c : Constraint)
  /-- Removes all constraints on the target. -/
  | forget (t : Option Target)
  /-- Pushes the target. -/
  | push (t : Option Target)
  /-- Binds a variable to the target. -/
  | bind (t : Option Target) (symbol : Symbol)

/-- Where a script acts; an absent field admits everything. -/
structure Guard where
  /-- The node of the instruction. -/
  node : Option Nat
  /-- The block. -/
  block : Option Nat
  /-- The offset in the block. -/
  offset : Option Nat
  /-- How often the block had been entered. -/
  visits : Option Nat
  deriving DecidableEq, Repr

/-- The guard that admits every site. -/
def Guard.anywhere : Guard := ⟨none, none, none, none⟩

/-- Whether a site is one where the script acts. -/
def Guard.admits (g : Guard) (site : Site) : Bool :=
  let agrees (wanted : Option Nat) (actual : Nat) := wanted.all (· == actual)
  agrees g.node site.node.val.toNat && agrees g.block site.point.block &&
    agrees g.offset site.point.offset && agrees g.visits site.point.visits

/-- A check described by data. -/
structure Script where
  /-- The rule of the check. -/
  rule : String
  /-- What it does. -/
  action : Action
  /-- The moments at which it acts. -/
  moments : List Moment
  /-- Where it acts. -/
  guard : Guard
  /-- The operations for which it is called. -/
  interests : Kinds

namespace Action

/-- Changes the state by the value of a target; without a target or a value the state stays. -/
def withTarget (t : Option Target) (site : Site) (s : State) (journal : Journal)
    (f : Value → Option State) : Verdict × Journal :=
  match t.bind (·.find site s) with
  | some v => (.ofOption (f v), journal)
  | none => (.goOn s, journal)

/-- Carries out an action. -/
def run (a : Action) (moment : Moment) : Hook := fun site s journal =>
  match a with
  | .note =>
    (.goOn s, { journal with notes := ⟨site.rule, moment, site.point, s⟩ :: journal.notes })
  | .fail message => (.failed message, journal)
  | .prune => (.stop, journal)
  | .cancel => (.goOn s, { journal with cancelled := true })
  | .report (some key) message => (.goOn s, journal.add (site.diagnosticWithKey key message))
  | .report none message => (.goOn s, journal.add (site.diagnostic message))
  | .clearStack => (.goOn s.clearStack, journal)
  | .assume t c => withTarget t site s journal fun v => State.assume v c s
  | .overwrite t c => withTarget t site s journal fun v => some (s.overwrite v c)
  | .forget t => withTarget t site s journal fun v => some (s.forget v)
  | .push t => withTarget t site s journal fun v => some (s.push v)
  | .bind t symbol => withTarget t site s journal fun v => some (s.bind symbol v)

end Action

namespace Script

/-- What the script does at a moment. -/
def hook (x : Script) (moment : Moment) : Hook := fun site s journal =>
  if x.moments.contains moment && x.guard.admits site then
    x.action.run moment site s journal
  else
    (.goOn s, journal)

/-- The check that a script describes. -/
def check (x : Script) : Check := ⟨x.rule, x.interests, x.hook .before, x.hook .after⟩

end Script

end Pathwise
