import BranchBound.Enumeration
import BranchBound.Relaxation.Linear
import BranchBound.Search

/-!
# Benchmark records

One line of a benchmark: a model, what the search made of it, and, if that was
checked, whether exhaustive enumeration agrees.
-/

namespace BranchBound

/-- A solved model. -/
structure Record (α : Type) where
  /-- Name of the model. -/
  name : String
  /-- Number of variables. -/
  n : Nat
  /-- Number of constraints. -/
  m : Nat
  /-- How the search ended, or that it failed. -/
  status : String
  /-- Value of the root relaxation. -/
  lpRelaxation : Option α
  /-- Objective of the best point. -/
  bestObjective : Option α
  /-- Final lower bound, if it is finite. -/
  bestBound : Option α
  /-- Nodes explored. -/
  nodesExplored : Nat
  /-- Nodes discarded. -/
  nodesPruned : Nat
  /-- Nodes discarded as infeasible. -/
  nodesInfeasible : Nat
  /-- Depth of the deepest explored node. -/
  maxDepth : Nat
  /-- Root gap in percent. -/
  gapPercent : String
  /-- Time taken, in seconds. -/
  seconds : α
  /-- Whether enumeration agrees, if that was checked. -/
  verified : Option Bool
  /-- Why the search failed, if it did. -/
  error : Option String
deriving DecidableEq, Repr

variable {α : Type} [Scalar α]

namespace Result

/-- Whether a result agrees with the objective that enumeration found.  A limit
proves nothing: then only a point better than the best is wrong. -/
def agreesWith (r : Result α) (expected : Option α) (tol : α) : Bool :=
  let slack (best : α) : α := tol * Scalar.maximum (Scalar.abs best) (Scalar.ofInt 1)
  match r.status, expected with
  | .optimal, some best =>
      r.bestObjective.any fun objective =>
        decide (Scalar.abs (objective - best) ≤ slack best)
  | .infeasible, none => true
  | .timeLimit, some best =>
      r.bestObjective.all fun objective => decide (best - slack best ≤ objective)
  | .nodeLimit, some best =>
      r.bestObjective.all fun objective => decide (best - slack best ≤ objective)
  | .timeLimit, none => r.bestObjective.isNone
  | .nodeLimit, none => r.bestObjective.isNone
  | _, _ => false

/-- Tolerance of the comparison with enumeration. -/
def verificationTol : α :=
  Scalar.decimal 1 6

/-- Whether the best point is feasible, if there is one, and the result agrees with
an enumerated optimum. -/
def isConfirmed (r : Result α) (model : LinearModel α) (expected : Option α) : Bool :=
  r.bestAssignment.all (fun x => model.isFeasible x verificationTol) &&
    r.agreesWith expected verificationTol

end Result

namespace Record

variable [Printable α]

/-- The record of a result. -/
def ofResult (model : LinearModel α) (r : Result α) : Record α where
  name := model.name
  n := model.numVars
  m := model.numConstraints
  status := r.status.label
  lpRelaxation := r.rootBound
  bestObjective := r.bestObjective
  bestBound := if Scalar.isFinite r.bestBound then some r.bestBound else none
  nodesExplored := r.nodesExplored
  nodesPruned := r.nodesPruned
  nodesInfeasible := r.nodesInfeasible
  maxDepth := r.maxDepth
  gapPercent := r.gapPercent
  seconds := r.elapsedSeconds
  verified := none
  error := none

/-- The record of a failure. -/
def ofError (model : LinearModel α) (message : String) : Record α where
  name := model.name
  n := model.numVars
  m := model.numConstraints
  status := "Error"
  lpRelaxation := none
  bestObjective := none
  bestBound := none
  nodesExplored := 0
  nodesPruned := 0
  nodesInfeasible := 0
  maxDepth := 0
  gapPercent := "inf"
  seconds := Scalar.ofInt 0
  verified := none
  error := some message

/-- An optimum that may be missing, as it appears in messages. -/
def optimumText : Option α → String
  | some value => "Some(" ++ Printable.general value ++ ")"
  | none => "None"

/-- Record a result.  With `verify` the model is enumerated and the comparison is
part of the record; what is odd about it is told. -/
def ofVerified (model : LinearModel α) (r : Result α) (settings : Settings α)
    (verify : Bool) : Record α × List Message :=
  let record := ofResult model r
  if !verify then (record, [])
  else
    match Enumeration.best model settings.feasibilityTol with
    | .error fault =>
        (record, [⟨.warn, s!"{model.name}: not verified: {fault.message}"⟩])
    | .ok best =>
        let expected := best.map Prod.fst
        let confirmed := r.isConfirmed model expected
        let told :=
          if confirmed then []
          else [⟨.warn, s!"{model.name}: search reported {r.summary} " ++
            s!"but enumeration found {optimumText expected}"⟩]
        ({ record with verified := some confirmed }, told)

/-- Record a search that may have failed. -/
def ofOutcome (model : LinearModel α) (settings : Settings α) (verify : Bool) :
    Except (SearchError α) (Result α) → Record α × List Message
  | .ok r => ofVerified model r settings verify
  | .error e =>
      (ofError model e.message, [⟨.error, s!"{model.name}: {e.message}"⟩])

end Record

namespace LinearModel

variable [Printable α]

/-- What a search told, and how many programs it took if it succeeded. -/
def searchMessages (model : LinearModel α) (succeeded : Bool) (tree : Tree α)
    (solves : Nat) : List Message :=
  tree.events.map Event.message ++
    if succeeded then [⟨.debug, s!"{model.name}: {solves} LP solves"⟩] else []

/-- Search a model with its linear relaxation. -/
def solveWith (solver : LinearProgram → LinearVerdict) (clock : Clock)
    (model : LinearModel α) (settings : Settings α) :
    Except (SearchError α) (Result α) × List Message :=
  let (answer, tree, solves) := solve model.problem (model.oracle solver) settings clock 0
  (answer, model.searchMessages answer.isOk tree solves)

end LinearModel

end BranchBound
