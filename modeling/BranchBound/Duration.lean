import BranchBound.Scalar
import BranchBound.Rounding

/-!
# Durations

Spans and points of time, in whole nanoseconds.  Points are measured from an
arbitrary origin, so that the same type serves for both.
-/

namespace BranchBound

/-- A span of time, or a point of time after the clock's origin. -/
structure Duration where
  /-- Length in nanoseconds. -/
  nanoseconds : Nat
deriving DecidableEq, Repr

namespace Duration

/-- Nanoseconds in a second. -/
def perSecond : Nat := pow10 9

/-- No time. -/
def zero : Duration := ⟨0⟩

/-- Time later by a span. -/
def add (a b : Duration) : Duration :=
  ⟨a.nanoseconds + b.nanoseconds⟩

/-- Span between two points, zero if they are in the other order. -/
def since (later earlier : Duration) : Duration :=
  ⟨later.nanoseconds - earlier.nanoseconds⟩

/-- Whole seconds. -/
def seconds (d : Duration) : Nat :=
  d.nanoseconds / perSecond

/-- Nanoseconds beyond the whole seconds. -/
def subsecond (d : Duration) : Nat :=
  d.nanoseconds % perSecond

/-- Whether a point of time is within the clock's range of `2 ^ 63` seconds. -/
def isRepresentable (d : Duration) : Bool :=
  decide (d.seconds < pow2 63)

variable {α : Type} [Scalar α]

/-- The span in seconds. -/
def toSeconds (d : Duration) : α :=
  Scalar.ofInt d.seconds + Scalar.ofInt d.subsecond / Scalar.ofInt perSecond

/-- The span of some seconds, to the nearest nanosecond and a half to the even
one.  Negative seconds and what is not a number are no time; `2 ^ 64` seconds or
more are no span. -/
def ofSeconds? (seconds : α) : Option Duration :=
  match Scalar.toRat? (Scalar.maximum seconds (Scalar.ofInt 0)) with
  | none => none
  | some r =>
      let num := r.num.natAbs
      if pow2 64 * r.den ≤ num then none
      else some ⟨Rounding.halfEven (num * perSecond) r.den⟩

end Duration

end BranchBound
