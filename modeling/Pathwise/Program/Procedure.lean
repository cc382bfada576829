import Pathwise.Program.Shape

/-!
# Procedures

A procedure is a flow graph with a name and the parameters that are bound when it is entered.
-/

namespace Pathwise

/-- A procedure. -/
structure Procedure where
  /-- Its name. -/
  name : String
  /-- Its parameters in order. -/
  parameters : List Symbol
  /-- Its code. -/
  flow : FlowGraph
  deriving DecidableEq

namespace Procedure

/-- Checks that the code can be explored. The reason of a refusal names the procedure. -/
def validate (p : Procedure) : Except ProgramError Unit :=
  match p.flow.validate with
  | .error (.unsupported _ m) => .error (.unsupported (some p.name) m)
  | answer => answer

/-- A procedure as text: a heading with its parameters, then its code. -/
def render (p : Procedure) : String :=
  "procedure " ++ p.name ++ "(" ++ Text.commaSeparated (p.parameters.map Symbol.render) ++ ")\n" ++
    p.flow.render

end Procedure

end Pathwise
