import BranchBound.Scalar

/-!
# Incumbents

The best integral point found so far.  A new point replaces it only if it is
better by more than a tolerance relative to the size of the current objective;
the same test says which open nodes are still worth exploring.
-/

namespace BranchBound

variable {α : Type} [Scalar α]

/-- Distance between a value and a bound, relative to the value.  Infinite if one
of them is. -/
def relativeGap (primal dual : α) : α :=
  if Scalar.isInfinite primal || Scalar.isInfinite dual then Scalar.posInf
  else Scalar.abs (primal - dual) / Scalar.maximum (Scalar.abs primal) (Scalar.decimal 1 10)

/-- The best point so far. -/
structure Incumbent (α : Type) where
  /-- Its coordinates, once there is one. -/
  assignment : Option (List α)
  /-- Its objective, positive infinity before there is one. -/
  objective : α
  /-- How often it was replaced. -/
  updates : Nat
  /-- Improvement tolerance. -/
  tol : α
deriving DecidableEq, Repr

namespace Incumbent

/-- No point yet. -/
def none (tol : α) : Incumbent α :=
  { assignment := Option.none, objective := Scalar.posInf, updates := 0, tol }

/-- Whether there is a point. -/
def isPresent (i : Incumbent α) : Bool :=
  i.assignment.isSome

/-- What an objective has to stay below in order to improve. -/
def threshold (i : Incumbent α) : α :=
  if Scalar.isFinite i.objective then
    i.objective - i.tol * Scalar.maximum (Scalar.abs i.objective) (Scalar.ofInt 1)
  else i.objective

/-- Whether a value is better than the incumbent beyond the tolerance. -/
def improves (i : Incumbent α) (value : α) : Bool :=
  decide (value < i.threshold)

/-- Whether a node with this bound cannot hold an improvement. -/
def dominates (i : Incumbent α) (bound : α) : Bool :=
  i.isPresent && !i.improves bound

/-- The incumbent after a point was offered; the first of equal points stays. -/
def consider (i : Incumbent α) (objective : α) (assignment : List α) : Incumbent α :=
  if i.improves objective then
    { i with assignment := some assignment, objective, updates := i.updates + 1 }
  else i

/-- Relative gap to a lower bound. -/
def gap (i : Incumbent α) (bound : α) : α :=
  relativeGap i.objective bound

end Incumbent

end BranchBound
