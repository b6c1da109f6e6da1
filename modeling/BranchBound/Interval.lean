import BranchBound.Scalar

/-!
# Intervals

Closed intervals of one variable.  An interval with `lower > upper` is empty;
tolerances widen an interval at both ends.
-/

namespace BranchBound

/-- The closed interval `[lower, upper]`. -/
structure Interval (α : Type) where
  /-- Lower bound, possibly negative infinity. -/
  lower : α
  /-- Upper bound, possibly positive infinity. -/
  upper : α
deriving DecidableEq, Repr

namespace Interval

variable {α : Type} [Scalar α]

/-- The interval `[0, 1]`. -/
def unit : Interval α :=
  ⟨Scalar.ofInt 0, Scalar.ofInt 1⟩

/-- The interval without bounds. -/
def whole : Interval α :=
  ⟨Scalar.negInf, Scalar.posInf⟩

/-- Whether no value fits. -/
def isEmpty (i : Interval α) : Bool :=
  decide (i.upper < i.lower)

/-- Whether one of the bounds is not a number. -/
def hasNaN (i : Interval α) : Bool :=
  Scalar.isNaN i.lower || Scalar.isNaN i.upper

/-- Whether a value lies in the interval, up to `tol`. -/
def contains (i : Interval α) (value tol : α) : Bool :=
  decide (i.lower - tol ≤ value) && decide (value ≤ i.upper + tol)

/-- Whether every value of the interval is in `other`, bound by bound. -/
def isSubsetOf (i other : Interval α) : Bool :=
  decide (other.lower ≤ i.lower) && decide (i.upper ≤ other.upper)

end Interval

end BranchBound
