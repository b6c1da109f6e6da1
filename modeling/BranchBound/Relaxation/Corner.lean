import BranchBound.Relaxation

/-!
# Corner relaxations

The crudest relaxation of a linear objective over a box: a fixed point of every
interval, whatever the costs.
-/

namespace BranchBound

/-- Which point of an interval is taken. -/
inductive Corner where
  /-- Lower end. -/
  | lower
  /-- Upper end. -/
  | upper
  /-- Middle. -/
  | middle
deriving DecidableEq, Repr

namespace Corner

variable {α : Type} [Scalar α]

/-- The point of an interval. -/
def point (c : Corner) (i : Interval α) : α :=
  match c with
  | lower => i.lower
  | upper => i.upper
  | middle => (i.lower + i.upper) / Scalar.ofInt 2

/-- Value of a point, added from left to right. -/
def value (costs x : List α) : α :=
  (List.zipWith (· * ·) costs x).foldl (· + ·) (Scalar.ofInt 0)

/-- The corner of a box and its value. -/
def relax (c : Corner) (costs : List α) (domain : Domain α) : RelaxationOutcome α :=
  let x := domain.intervals.map c.point
  .optimal ⟨value costs x, x⟩

/-- The corner as an oracle. -/
def oracle (c : Corner) (costs : List α) : Oracle Unit α :=
  .ofFunction fun domain => .ok (c.relax costs domain)

end Corner

end BranchBound
