import BranchBound.Power

/-!
# Linear programs

Minimise a linear function of real variables whose values, and whose linear
combinations in each row, stay within given ranges.  All data are rational, so
that a program has an exact answer.
-/

namespace BranchBound

/-- Bounds that may be missing. -/
structure Range where
  /-- Lower bound. -/
  lower : Option Rat
  /-- Upper bound. -/
  upper : Option Rat
deriving DecidableEq, Repr

namespace Range

/-- Whether a value is below the range. -/
def isAbove (r : Range) (x : Rat) : Bool :=
  r.lower.any fun lower => decide (x < lower)

/-- Whether a value is above the range. -/
def isBelow (r : Range) (x : Rat) : Bool :=
  r.upper.any fun upper => decide (upper < x)

/-- Whether no value is in the range. -/
def isEmpty (r : Range) : Bool :=
  r.lower.any fun lower => r.isBelow lower

/-- A value of a range that is not empty: a bound, if there is one. -/
def corner (r : Range) : Rat :=
  match r.lower, r.upper with
  | some lower, _ => lower
  | none, some upper => upper
  | none, none => 0

/-- Whether a value may still grow. -/
def canGrow (r : Range) (x : Rat) : Bool :=
  r.upper.all fun upper => decide (x < upper)

/-- Whether a value may still shrink. -/
def canShrink (r : Range) (x : Rat) : Bool :=
  r.lower.all fun lower => decide (lower < x)

end Range

/-- A row: a linear combination and the range of its values. -/
structure LinearRow where
  /-- Columns and their coefficients. -/
  terms : List (Nat × Rat)
  /-- Range of the row's value. -/
  range : Range
deriving DecidableEq, Repr

/-- A linear program. -/
structure LinearProgram where
  /-- Cost of each variable. -/
  costs : List Rat
  /-- Range of each variable. -/
  ranges : List Range
  /-- Rows. -/
  rows : List LinearRow
deriving DecidableEq, Repr

/-- Answer to a linear program. -/
inductive LinearVerdict where
  /-- A point of least value. -/
  | optimal (value : Rat) (point : List Rat)
  /-- No point satisfies the ranges. -/
  | infeasible
  /-- Values have no lower bound. -/
  | unbounded
  /-- The solver gave up. -/
  | stalled
deriving DecidableEq, Repr

end BranchBound
