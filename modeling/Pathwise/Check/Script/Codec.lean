import Pathwise.Check.Script
import Pathwise.Constraint.Codec
import Pathwise.Effect
import Pathwise.Program.Codec

/-!
# Scripts and effects as JSON

Scripts and effects are objects in which a member that is left out and one that is `null` mean the
same.
-/

namespace Pathwise

/-- Reads a moment. -/
def Moment.ofJson? (j : Json) : Option Moment := do
  let name ← j.text?
  [Moment.before, Moment.after].find? (·.render == name)

/-- Reads a target: the word for the object of the instruction, the name of a shared value, or an
object that says where the value is found. -/
def Target.ofJson? (j : Json) : Option Target :=
  match j.text? with
  | some "receiver" => some .receiver
  | some name => (Value.shared? name).map .value
  | none =>
    ((j.given? "argument").bind fun i => i.count?.map .argument).or <|
      ((j.given? "peek").bind fun i => i.count?.map .peek).or <|
        (j.given? "symbol").bind fun s => (Symbol.ofJson? s).map .bound

/-- Reads an action from its name and the members that belong to it. -/
def Action.ofJson? (j : Json) : Option Action := do
  let message := ((j.given? "message").bind Json.text?).getD ""
  let target := (j.given? "target").bind Target.ofJson?
  let constraint := (j.given? "constraint").bind Constraint.ofJson?
  match ← (← j.given? "action").text? with
  | "trace" => return .note
  | "fail" => return .fail message
  | "panic" => return .fail message
  | "prune" => return .prune
  | "cancel" => return .cancel
  | "report" => return .report ((j.given? "key").bind Json.text?) message
  | "clear_stack" => return .clearStack
  | "set" => return .assume target (← constraint)
  | "replace" => return .overwrite target (← constraint)
  | "forget" => return .forget target
  | "push" => return .push target
  | "bind" => return .bind target (← (j.given? "to").bind Symbol.ofJson?)
  | _ => none

/-- Reads the moments at which a script acts: both, unless one is named. A name of neither leaves
none. -/
def Script.momentsOfJson (j : Json) : List Moment :=
  match (j.given? "hook").bind Json.text? with
  | some name => [Moment.before, Moment.after].filter (·.render == name)
  | none => [.before, .after]

/-- Reads a guard; none if it asks for something that is no natural number, which no site has. -/
def Guard.ofJson? (j : Json) : Option Guard := do
  return ⟨← j.maybe? "node" Json.count?, ← j.maybe? "block" Json.count?,
    ← j.maybe? "offset" Json.count?, ← j.maybe? "visits" Json.count?⟩

/-- Reads a script. Only the bits of its interests that stand for a kind count, and one with a guard
that no site satisfies acts at no moment. -/
def Script.ofJson? (j : Json) : Option Script := do
  let rule ← (← j.given? "rule").text?
  let action ← Action.ofJson? j
  let interests := (((j.given? "interests").bind Json.count?).map Kinds.truncate).getD Kinds.all
  match j.maybe? "when" Guard.ofJson? with
  | some guard => return ⟨rule, action, momentsOfJson j, guard.getD Guard.anywhere, interests⟩
  | none => return ⟨rule, action, [], Guard.anywhere, interests⟩

/-- Reads a participant of a call: a word, or the index of an argument. -/
def Participant.ofJson? (j : Json) : Option Participant :=
  match j.text? with
  | some "receiver" => some .receiver
  | some "result" => some .result
  | some _ => none
  | none => j.count?.map .argument

/-- Reads an effect and the method that has it. -/
def Effect.ofJson? (j : Json) : Option (MethodRef × Effect) := do
  let method ← (j.given? "method").bind MethodRef.ofJson?
  let target ← (j.given? "on").bind Participant.ofJson?
  let constraint ← (j.given? "constraint").bind Constraint.ofJson?
  return (method, ⟨target, constraint⟩)

end Pathwise
