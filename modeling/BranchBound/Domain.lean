import BranchBound.Interval

/-!
# Domains

The box a search node covers: one interval per variable, in the order of the
problem's variables.
-/

namespace BranchBound

/-- Bounds of every variable. -/
structure Domain (α : Type) where
  /-- Intervals in variable order. -/
  intervals : List (Interval α)
deriving DecidableEq, Repr

namespace Domain

variable {α : Type} [Scalar α]

/-- Number of variables. -/
def size (d : Domain α) : Nat :=
  d.intervals.length

/-- Interval of one variable. -/
def get? (d : Domain α) (var : Nat) : Option (Interval α) :=
  d.intervals[var]?

/-- Whether some variable has no value left.  Such a box needs no relaxation to
be discarded. -/
def isMalformed (d : Domain α) : Bool :=
  d.intervals.any Interval.isEmpty

/-- The box with the interval of `var` replaced; there is none if the box has no
such variable. -/
def set? (d : Domain α) (var : Nat) (interval : Interval α) : Option (Domain α) :=
  if var < d.size then some ⟨d.intervals.set var interval⟩ else none

/-- Whether a point lies in the box, up to `tol` in each coordinate. -/
def contains (d : Domain α) (values : List α) (tol : α) : Bool :=
  values.length == d.size &&
    (List.zipWith (fun i v => i.contains v tol) d.intervals values).all id

end Domain

end BranchBound
