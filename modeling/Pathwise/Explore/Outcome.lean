import Pathwise.Diagnostic

/-!
# What an exploration comes to

How it ended, what it counted, and what it found.
-/

namespace Pathwise

/-- Why a run was given up. -/
inductive IncompleteReason where
  /-- It executed more instructions than allowed. -/
  | stepBudgetExceeded
  /-- It was asked to end. -/
  | cancelled
  deriving DecidableEq, Repr

/-- How a run ended. -/
inductive Status where
  /-- Every feasible path was explored, up to widening. -/
  | completed
  /-- It was given up. -/
  | incomplete (reason : IncompleteReason)
  /-- The procedure cannot be explored, for the stated reason. -/
  | skipped (reason : String)
  deriving DecidableEq, Repr

/-- What a run counts. -/
structure Statistics where
  /-- The instructions executed. -/
  steps : Nat
  /-- The nodes put on the worklist. -/
  nodes : Nat
  /-- The successors that had been visited before. -/
  deduplicated : Nat
  /-- The paths and edges that no execution takes. -/
  infeasible : Nat
  /-- The times a state was widened. -/
  widenings : Nat
  /-- The values made. -/
  values : Nat
  /-- The nodes put on the worklist, by block. -/
  nodesPerBlock : SortedMap Nat Nat
  deriving DecidableEq

namespace Statistics

/-- Nothing has been counted. -/
def zero : Statistics := ⟨0, 0, 0, 0, 0, 0, .empty⟩

/-- The number of nodes at the start of a block. -/
def nodesIn (s : Statistics) (block : Nat) : Nat := (s.nodesPerBlock.get? block).getD 0

/-- Counts an executed instruction. -/
def countStep (s : Statistics) : Statistics := { s with steps := s.steps + 1 }

/-- Counts a node at the start of a block. -/
def countNode (s : Statistics) (block : Nat) : Statistics :=
  { s with
    nodes := s.nodes + 1
    nodesPerBlock := s.nodesPerBlock.insert block (s.nodesIn block + 1) }

/-- Counts a successor that had been visited before. -/
def countDuplicate (s : Statistics) : Statistics := { s with deduplicated := s.deduplicated + 1 }

/-- Counts a path or an edge that no execution takes. -/
def countInfeasible (s : Statistics) : Statistics := { s with infeasible := s.infeasible + 1 }

/-- Counts a widening. -/
def countWidening (s : Statistics) : Statistics := { s with widenings := s.widenings + 1 }

end Statistics

/-- The result of analysing a procedure. -/
structure Exploration where
  /-- The name of the procedure. -/
  procedure : String
  /-- How the run ended. -/
  status : Status
  /-- What it counted. -/
  statistics : Statistics
  /-- What was found; nothing unless the run completed. -/
  diagnostics : List Diagnostic
  deriving DecidableEq

end Pathwise
