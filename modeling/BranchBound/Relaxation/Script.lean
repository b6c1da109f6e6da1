import BranchBound.Relaxation

/-!
# Scripted relaxations

An oracle that gives prepared answers one after the other, whatever it is asked.
-/

namespace BranchBound

/-- Prepared answers, first one first. -/
structure Script (α : Type) where
  /-- The answers. -/
  answers : List (Except (SearchError α) (RelaxationOutcome α))

namespace Script

variable {α : Type}

/-- The script as an oracle; its state counts the answers given.  Past the end it
fails. -/
def oracle (s : Script α) : Oracle Nat α where
  solve given _ _ :=
    (s.answers.getD given (.error (.oracle (.reported "script exhausted"))), given + 1)

end Script

end BranchBound
