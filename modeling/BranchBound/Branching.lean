import BranchBound.Node
import BranchBound.Problem
import BranchBound.Settings

/-!
# Branching

Choosing the variable a node is split on, and the two halves of its interval.
-/

namespace BranchBound

/-- A variable to split on and the bounds of the two children. -/
structure Decision (α : Type) where
  /-- Index of the variable. -/
  var : Nat
  /-- Its fractional value. -/
  value : α
  /-- Values at or below the fractional one. -/
  down : BoundChange α
  /-- Values at or above the fractional one. -/
  up : BoundChange α
deriving DecidableEq, Repr

namespace Decision

variable {α : Type} [Scalar α]

/-- Split a variable of a box at a value. -/
def split (domain : Domain α) (var : Nat) (value : α) : Except RangeFault (Decision α) :=
  match domain.get? var with
  | none => .error .missingIndex
  | some old =>
      .ok { var, value, down := .down var old value, up := .up var old value }

end Decision

namespace BranchingRule

variable {α : Type} [Scalar α]

/-- The entry of greatest distance; the first one of several. -/
def mostDistant? : List (Fractional α) → Option (Fractional α)
  | [] => none
  | first :: rest =>
      some (rest.foldl
        (fun best next => if best.distance < next.distance then next else best) first)

/-- The fractional variable the rule prefers. -/
def choose? (rule : BranchingRule) (fractional : List (Fractional α)) :
    Option (Fractional α) :=
  match rule with
  | .mostFractional => mostDistant? fractional
  | .firstFractional => fractional.head?

/-- The decision at a point of a box; none if every integral variable is within
`tol` of an integer. -/
def select (rule : BranchingRule) (problem : Problem α) (domain : Domain α)
    (values : List α) (tol : α) : Except RangeFault (Option (Decision α)) :=
  match rule.choose? (problem.fractionalVars values tol) with
  | none => .ok none
  | some f => (Decision.split domain f.var f.value).map some

end BranchingRule

end BranchBound
