import BranchBound.LinearProgram.Simplex
import BranchBound.Model
import BranchBound.Relaxation

/-!
# Linear relaxations

The continuous relaxation of a linear model over a box is a linear program.  The
data are taken at their exact rational values, and the answer of the linear solver
is rounded back to scalars once.
-/

namespace BranchBound

variable {α : Type} [Scalar α]

/-- The exact range of an interval.  Crossed bounds leave no value; a bound that is
not finite leaves its side open, whatever its sign. -/
def Interval.toRange (i : Interval α) : Range :=
  if i.upper < i.lower then ⟨some 1, some 0⟩
  else ⟨Scalar.toRat? i.lower, Scalar.toRat? i.upper⟩

/-- The exact value of a finite scalar. -/
def Scalar.exact (a : α) : Rat :=
  (Scalar.toRat? a).getD 0

/-- The row of a constraint. -/
def Constraint.toRow (c : Constraint α) : LinearRow where
  terms := c.terms.map fun term => (term.1, Scalar.exact term.2)
  range :=
    let rhs := Scalar.exact c.rhs
    match c.sense with
    | .le => ⟨none, some rhs⟩
    | .ge => ⟨some rhs, none⟩
    | .eq => ⟨some rhs, some rhs⟩

namespace LinearModel

/-- The linear program of a model over a box. -/
def program (m : LinearModel α) (domain : Domain α) : LinearProgram where
  costs := (m.objective.take domain.size).map Scalar.exact
  ranges := domain.intervals.map Interval.toRange
  rows := m.constraints.map Constraint.toRow

/-- Whether every variable of a box has a cost, and every column that occurs is a
variable of the box. -/
def covers (m : LinearModel α) (domain : Domain α) : Bool :=
  decide (domain.size ≤ m.objective.length) &&
    m.constraints.all fun c => c.terms.all fun term => decide (term.1 < domain.size)

/-- The answer of a linear solver as the search wants it. -/
def outcomeOf (m : LinearModel α) : LinearVerdict →
    Except (SearchError α) (RelaxationOutcome α)
  | .optimal value point => .ok (.optimal ⟨Scalar.ofRat value, point.map Scalar.ofRat⟩)
  | .infeasible => .ok .infeasible
  | .unbounded => .error (.oracle (.unbounded m.name))
  | .stalled => .error (.oracle (.stalled m.name))

/-- Solve the relaxation over a box with some linear solver. -/
def relax (m : LinearModel α) (solver : LinearProgram → LinearVerdict) (domain : Domain α) :
    Except (SearchError α) (RelaxationOutcome α) :=
  if m.covers domain then m.outcomeOf (solver (m.program domain))
  else .error (.range .missingIndex)

/-- The relaxation as an oracle, whose state counts the programs solved.  It always
runs to a verdict, whatever time is left. -/
def oracle (m : LinearModel α) (solver : LinearProgram → LinearVerdict) : Oracle Nat α where
  solve solves domain _ := (m.relax solver domain, solves + 1)

end LinearModel

end BranchBound
