import BranchBound.Duration

/-!
# Settings

Limits, tolerances and strategy of one search.
-/

namespace BranchBound

/-- How the variable to branch on is chosen. -/
inductive BranchingRule where
  /-- Farthest from its nearest integer; ties go to the smallest index. -/
  | mostFractional
  /-- Smallest index. -/
  | firstFractional
deriving DecidableEq, Repr

/-- How the next open node is chosen. -/
inductive NodeSelection where
  /-- Lowest bound first. -/
  | bestBound
  /-- Newest first. -/
  | depthFirst
deriving DecidableEq, Repr

/-- Settings of a search. -/
structure Settings (α : Type) where
  /-- Wall-clock budget. -/
  timeLimit : Option Duration
  /-- Number of nodes after which the search stops. -/
  maxNodes : Nat
  /-- Greatest distance from an integer at which a value counts as integral. -/
  feasibilityTol : α
  /-- Least relative improvement that counts. -/
  improvementTol : α
  /-- Branching rule. -/
  branchingRule : BranchingRule
  /-- Order of exploration. -/
  nodeSelection : NodeSelection
  /-- Whether progress is reported. -/
  verbose : Bool
  /-- Nodes between two progress reports. -/
  logFreq : Nat
deriving DecidableEq, Repr

namespace Settings

variable {α : Type} [Scalar α]

/-- The greatest node limit, which no search reaches. -/
def unlimitedNodes : Nat := pow2 64 - 1

/-- The usual settings: no limits, tolerances of one millionth, lowest bound
first, silent. -/
def standard : Settings α where
  timeLimit := none
  maxNodes := unlimitedNodes
  feasibilityTol := Scalar.decimal 1 6
  improvementTol := Scalar.decimal 1 6
  branchingRule := .mostFractional
  nodeSelection := .bestBound
  verbose := false
  logFreq := 100

/-- The usual settings with a report at every node. -/
def reporting : Settings α :=
  { standard with verbose := true, logFreq := 1 }

/-- Limit the time.  A negative number of seconds leaves no time, an infinite
one removes the limit. -/
def withTimeLimit (s : Settings α) (seconds : α) : Settings α :=
  { s with timeLimit := Duration.ofSeconds? seconds }

/-- Use one tolerance for integrality and for improvement. -/
def withTolerance (s : Settings α) (tol : α) : Settings α :=
  { s with feasibilityTol := tol, improvementTol := tol }

end Settings

end BranchBound
