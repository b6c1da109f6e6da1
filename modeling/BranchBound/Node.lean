import BranchBound.Incumbent
import BranchBound.Relaxation

/-!
# Search nodes

A node is a box with a lower bound for the points in it.  Children take one
interval of their parent's box apart and inherit its bound.
-/

namespace BranchBound

/-- New bounds of one variable. -/
structure BoundChange (α : Type) where
  /-- Index of the variable. -/
  var : Nat
  /-- Its new interval. -/
  interval : Interval α
deriving DecidableEq, Repr

namespace BoundChange

variable {α : Type} [Scalar α]

/-- The part of `old` at or below `value`, in integers. -/
def down (var : Nat) (old : Interval α) (value : α) : BoundChange α :=
  ⟨var, old.lower, Scalar.floor value⟩

/-- The part of `old` at or above `value`, in integers. -/
def up (var : Nat) (old : Interval α) (value : α) : BoundChange α :=
  ⟨var, Scalar.ceil value, old.upper⟩

end BoundChange

/-- A node of the search tree. -/
structure Node (α : Type) where
  /-- Identifier, increasing in order of creation. -/
  id : Nat
  /-- Identifier of the parent; the root has none. -/
  parent : Option Nat
  /-- Distance from the root. -/
  depth : Nat
  /-- Box of the node. -/
  domain : Domain α
  /-- What distinguishes the box from the parent's. -/
  change : Option (BoundChange α)
  /-- Bound inherited from the parent. -/
  estimate : α
  /-- Relaxation of the node, once it is solved. -/
  relaxation : Option (Relaxation α)
deriving DecidableEq, Repr

namespace Node

variable {α : Type} [Scalar α]

/-- The node of a whole box. -/
def root (domain : Domain α) : Node α where
  id := 0
  parent := none
  depth := 0
  domain := domain
  change := none
  estimate := Scalar.negInf
  relaxation := none

/-- Greatest depth a node can have. -/
def maxDepth : Nat := pow2 64 - 1

/-- Whether the node has no parent. -/
def isRoot (n : Node α) : Bool :=
  n.parent.isNone

/-- Lower bound for the points of the box: the relaxation's value once it is
solved, the inherited bound before. -/
def bound (n : Node α) : α :=
  match n.relaxation with
  | some r => r.objective
  | none => n.estimate

/-- Whether the incumbent leaves nothing to gain in the node. -/
def canPrune (n : Node α) (incumbent : Incumbent α) : Bool :=
  incumbent.dominates n.bound

/-- The child of a node under a bound change. -/
def child (n : Node α) (id : Nat) (change : BoundChange α) : Except RangeFault (Node α) :=
  match n.domain.set? change.var change.interval with
  | none => .error .missingIndex
  | some domain =>
      if n.depth < maxDepth then
        .ok {
          id := id
          parent := some n.id
          depth := n.depth + 1
          domain := domain
          change := some change
          estimate := n.bound
          relaxation := none }
      else .error .counterOverflow

end Node

end BranchBound
