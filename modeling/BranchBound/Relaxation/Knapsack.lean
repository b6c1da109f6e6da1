import BranchBound.Relaxation

/-!
# Knapsack relaxations

Minimise `costs · x` over a box under one constraint `weights · x ≤ capacity`, or
`= capacity`.  With positive weights the relaxation is solved exactly by starting
from the lower bounds and filling the items in order of cost per weight.
-/

namespace BranchBound

/-- One constraint with its costs. -/
structure Knapsack (α : Type) where
  /-- Cost of each item. -/
  costs : List α
  /-- Weight of each item. -/
  weights : List α
  /-- Right-hand side. -/
  capacity : α
  /-- Whether the constraint is an equation. -/
  equality : Bool
deriving DecidableEq, Repr

namespace Knapsack

variable {α : Type} [Scalar α]

/-- Cost of a point. -/
def objective (k : Knapsack α) (x : List α) : α :=
  Scalar.dot k.costs x

/-- Weight of a point. -/
def load (k : Knapsack α) (x : List α) : α :=
  Scalar.dot k.weights x

/-- Whether a point satisfies the constraint, up to `tol`. -/
def isFeasible (k : Knapsack α) (x : List α) (tol : α) : Bool :=
  if k.equality then decide (Scalar.abs (k.load x - k.capacity) ≤ tol)
  else decide (k.load x ≤ k.capacity + tol)

/-- Cost per weight. -/
def ratio (k : Knapsack α) (i : Nat) : α :=
  k.costs.getD i (Scalar.ofInt 0) / k.weights.getD i (Scalar.ofInt 0)

/-- Whether an item has a cost and a weight but no ratio, as zero has to zero. -/
def isIndefinite (k : Knapsack α) (i : Nat) : Bool :=
  Scalar.isNaN (k.ratio i) &&
    !Scalar.isNaN (k.costs.getD i (Scalar.ofInt 0)) &&
    !Scalar.isNaN (k.weights.getD i (Scalar.ofInt 0))

/-- Order of two items by ratio.  Indefinite ratios come first. -/
def compareRatio (k : Knapsack α) (i j : Nat) : Ordering :=
  match k.isIndefinite i, k.isIndefinite j with
  | true, true => .eq
  | true, false => .lt
  | false, true => .gt
  | false, false => Scalar.order (k.ratio i) (k.ratio j)

/-- Items by ratio, and of equal ratios by index. -/
def fillingOrder (k : Knapsack α) : List Nat :=
  (List.range k.costs.length).mergeSort fun i j =>
    ((k.compareRatio i j).then (compare i j)).isLE

/-- Fill the items of a list one after the other until nothing remains.  An item
that does not lower the cost is skipped unless the constraint is an equation. -/
def fill (k : Knapsack α) (domain : Domain α) :
    List Nat → List α → α → Except RangeFault (List α × α)
  | [], x, remaining => .ok (x, remaining)
  | i :: rest, x, remaining =>
      if remaining ≤ Scalar.decimal 1 12 then .ok (x, remaining)
      else if !k.equality && k.costs[i]?.any (fun c => decide (Scalar.ofInt 0 ≤ c)) then
        fill k domain rest x remaining
      else
        match domain.get? i, x[i]? with
        | some interval, some value =>
            let room := interval.upper - value
            if room ≤ Scalar.ofInt 0 then fill k domain rest x remaining
            else
              match k.weights[i]? with
              | none => .error .missingIndex
              | some weight =>
                  let taken := Scalar.minimum room (remaining / weight)
                  fill k domain rest (x.set i (value + taken)) (remaining - taken * weight)
        | _, _ => .error .missingIndex

/-- Whether every item that is compared with another one has a weight. -/
def isSortable (k : Knapsack α) : Bool :=
  k.costs.length < 2 || decide (k.costs.length ≤ k.weights.length)

/-- Solve the relaxation over a box. -/
def relax (k : Knapsack α) (domain : Domain α) :
    Except (SearchError α) (RelaxationOutcome α) :=
  let lowest := domain.intervals.map Interval.lower
  let remaining := k.capacity - k.load lowest
  if remaining < -Scalar.decimal 1 9 then .ok .infeasible
  else if !k.isSortable then .error (.range .missingIndex)
  else
    match k.fill domain k.fillingOrder lowest remaining with
    | .error fault => .error (.range fault)
    | .ok (x, left) =>
        if k.equality && decide (Scalar.decimal 1 9 < left) then .ok .infeasible
        else .ok (.optimal ⟨k.objective x, x⟩)

/-- The relaxation as an oracle. -/
def oracle (k : Knapsack α) : Oracle Unit α :=
  .ofFunction k.relax

end Knapsack

end BranchBound
