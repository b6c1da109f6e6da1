import BranchBound.Domain
import BranchBound.Error

/-!
# Problems

What the search knows about a problem: its variables, and a test that says which
points count as integral.  Constraints never reach the search; they live behind
the relaxation.
-/

namespace BranchBound

variable {α : Type} [Scalar α]

/-- The usual integrality test: every integral variable is within `tol` of an
integer. -/
def Variable.allIntegral (vars : List (Variable α)) (values : List α) (tol : α) :
    Bool :=
  (List.zip vars values).all fun entry =>
    !entry.1.kind.isIntegral || decide (fractionality entry.2 ≤ tol)

/-- A list of variables and the test for integral points. -/
structure Problem (α : Type) where
  /-- Variables in order. -/
  vars : List (Variable α)
  /-- Whether a point counts as integral, up to a tolerance. -/
  isIntegral : List α → α → Bool

/-- An integral variable with a fractional value. -/
structure Fractional (α : Type) where
  /-- Index of the variable. -/
  var : Nat
  /-- Its value. -/
  value : α
  /-- Distance of the value to its nearest integer. -/
  distance : α
deriving DecidableEq, Repr

namespace Problem

/-- The problem over some variables with the usual integrality test. -/
def ofVariables (vars : List (Variable α)) : Problem α :=
  { vars, isIntegral := Variable.allIntegral vars }

/-- Number of variables. -/
def numVars (p : Problem α) : Nat :=
  p.vars.length

/-- The box the search starts from. -/
def rootDomain (p : Problem α) : Domain α :=
  ⟨p.vars.map Variable.rootInterval⟩

/-- Indices of the integral variables. -/
def integerVars (p : Problem α) : List Nat :=
  (p.vars.zipIdx.filter fun entry => entry.1.kind.isIntegral).map Prod.snd

/-- What is wrong with variable number `var`, if anything. -/
def variableFault? (var : Nat) (v : Variable α) : Option (ProblemFault α) :=
  let interval := v.rootInterval
  if interval.hasNaN then some (.nanBounds var)
  else if interval.isEmpty then some (.emptyDomain var interval v.kind)
  else none

/-- What is wrong with the problem, if anything: the first fault in variable
order. -/
def fault? (p : Problem α) : Option (ProblemFault α) :=
  if p.vars.isEmpty then some .noVariables
  else p.vars.zipIdx.findSome? fun entry => variableFault? entry.2 entry.1

/-- The root box of an acceptable problem. -/
def validate (p : Problem α) : Except (SearchError α) (Domain α) :=
  match p.fault? with
  | some fault => .error (.invalidProblem fault)
  | none => .ok p.rootDomain

/-- Integral variables farther than `tol` from an integer, in index order. -/
def fractionalVars (p : Problem α) (values : List α) (tol : α) : List (Fractional α) :=
  (List.zip p.vars values).zipIdx.filterMap fun entry =>
    let distance := fractionality entry.1.2
    if entry.1.1.kind.isIntegral && decide (tol < distance) then
      some ⟨entry.2, entry.1.2, distance⟩
    else none

/-- The point with integral variables moved to their nearest integers. -/
def roundIntegers (p : Problem α) (values : List α) : List α :=
  List.zipWith
    (fun v value => if v.kind.isIntegral then Scalar.round value else value)
    p.vars values

end Problem

end BranchBound
