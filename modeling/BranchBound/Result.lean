import BranchBound.Duration
import BranchBound.Incumbent
import BranchBound.Printable

/-!
# Results

What a search reports when it ends: how it ended, the best point, the bounds and
the counts, and the one-line text of all that.
-/

namespace BranchBound

/-- How a search ended. -/
inductive Status where
  /-- Every node was settled and there is a best point. -/
  | optimal
  /-- Every node was settled and there is no point. -/
  | infeasible
  /-- The time was up. -/
  | timeLimit
  /-- The node limit was reached. -/
  | nodeLimit
deriving DecidableEq, Repr

namespace Status

/-- Whether the status is a proof. -/
def isProven : Status → Bool
  | optimal => true
  | infeasible => true
  | _ => false

/-- Whether a limit ended the search. -/
def isLimit : Status → Bool
  | timeLimit => true
  | nodeLimit => true
  | _ => false

/-- The status in words. -/
def label : Status → String
  | optimal => "Optimal"
  | infeasible => "Infeasible"
  | timeLimit => "TimeLimit"
  | nodeLimit => "NodeLimit"

end Status

/-- Outcome and counts of a search. -/
structure Result (α : Type) where
  /-- How the search ended. -/
  status : Status
  /-- Objective of the best point, if there is one. -/
  bestObjective : Option α
  /-- The best point, if there is one. -/
  bestAssignment : Option (List α)
  /-- Value of the root relaxation, if it was solved. -/
  rootBound : Option α
  /-- Best lower bound at the end. -/
  bestBound : α
  /-- Nodes taken from the frontier. -/
  nodesExplored : Nat
  /-- Nodes discarded, by bound or as infeasible. -/
  nodesPruned : Nat
  /-- Nodes split in two. -/
  nodesBranched : Nat
  /-- Nodes discarded as infeasible. -/
  nodesInfeasible : Nat
  /-- Depth of the deepest explored node. -/
  maxDepth : Nat
  /-- How often the best point was replaced. -/
  incumbentUpdates : Nat
  /-- Time taken. -/
  elapsed : Duration
deriving DecidableEq, Repr

namespace Result

variable {α : Type} [Scalar α]

/-- Gap between the best objective and the root bound, infinite without both. -/
def gap (r : Result α) : α :=
  match r.bestObjective, r.rootBound with
  | some objective, some bound => relativeGap objective bound
  | _, _ => Scalar.posInf

/-- Gap between the best objective and the final bound. -/
def finalGap (r : Result α) : α :=
  match r.bestObjective with
  | some objective => relativeGap objective r.bestBound
  | none => Scalar.posInf

/-- Time taken, in seconds. -/
def elapsedSeconds (r : Result α) : α :=
  r.elapsed.toSeconds

variable [Printable α]

/-- A number to some places, every number that is not finite as `inf`. -/
def finiteText (places : Nat) (value : α) : String :=
  if Scalar.isFinite value then Printable.fixed places value else "inf"

/-- The root gap in percent. -/
def gapPercent (r : Result α) : String :=
  let gap := r.gap
  if Scalar.isFinite gap then Printable.fixed 4 (gap * Scalar.ofInt 100) else "inf"

/-- A value of the result that may be missing. -/
def valueText : Option α → String
  | some value => finiteText 6 value
  | none => "inf"

/-- The result in one line. -/
def summary (r : Result α) : String :=
  let elapsed : α := r.elapsedSeconds
  s!"status={r.status.label} lp_relaxation={valueText r.rootBound} " ++
    s!"best_objective={valueText r.bestObjective} nodes={r.nodesExplored} " ++
    s!"gap={r.gapPercent}% time={Printable.fixed 3 elapsed}s"

end Result

end BranchBound
