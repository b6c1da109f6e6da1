import BranchBound.Enumeration
import BranchBound.Relaxation.Knapsack

/-!
# Enumeration of knapsacks

The best integer point of a knapsack between given bounds, found by trying every
point.  As for models, the first variable moves fastest, and of several best points
the first one is kept.
-/

namespace BranchBound
namespace Knapsack

variable {α : Type} [Scalar α]

/-- Slack of the constraint at an enumerated point. -/
def enumerationTol : α :=
  Scalar.decimal 1 9

/-- The integers from each lower bound to the upper bound, and the lower bound in any
case. -/
def spans (lower upper : List Int) : List Enumeration.Span :=
  List.zipWith (fun l u => ⟨l, (u - l).toNat + 1⟩) lower upper

/-- The best integer point between two bounds and its cost; none if no point satisfies
the constraint.  Coordinates beyond the items stay at their lower bounds. -/
def best (k : Knapsack α) (lower upper : List Int) :
    Except RangeFault (Option (α × List α)) :=
  let n := k.costs.length
  if lower.length < n ∨ upper.length < n then .error .missingIndex
  else
    .ok (Enumeration.foldPoints
      (Enumeration.keepBetter (k.isFeasible · enumerationTol) k.objective)
      ((spans (lower.take n) upper).map Enumeration.Span.values).reverse
      ((lower.drop n).map Scalar.ofInt) none)

end Knapsack
end BranchBound
