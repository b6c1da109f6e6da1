import BranchBound.Heap
import BranchBound.Node
import BranchBound.Settings

/-!
# The frontier

The open nodes of a search.  By bound they are kept in a binary heap, so that the
next node is the first one by bound and then by identifier.  By depth they are kept
in a stack, so that the next node is the newest.
-/

namespace BranchBound

/-- Open nodes: a heap whose first node is next, or a stack whose last node is. -/
structure Frontier (α : Type) where
  /-- Order of exploration. -/
  selection : NodeSelection
  /-- Open nodes. -/
  nodes : Array (Node α)
deriving DecidableEq, Repr

namespace Frontier

variable {α : Type} [Scalar α]

/-- No open nodes. -/
def empty (selection : NodeSelection) : Frontier α :=
  ⟨selection, #[]⟩

/-- Order of two nodes by bound and then by identifier. -/
def compareByBound (a b : Node α) : Ordering :=
  (Scalar.order a.bound b.bound).then (compare a.id b.id)

/-- Whether a node is explored before another one by bound. -/
def before (a b : Node α) : Bool :=
  compareByBound a b == .lt

/-- Add a node. -/
def push (f : Frontier α) (node : Node α) : Frontier α :=
  match f.selection with
  | .bestBound => { f with nodes := Heap.push before f.nodes node }
  | .depthFirst => { f with nodes := f.nodes.push node }

/-- The next node and the others. -/
def pop? (f : Frontier α) : Option (Node α × Frontier α) :=
  match f.selection with
  | .bestBound =>
      (Heap.pop? before f.nodes).map fun popped => (popped.1, { f with nodes := popped.2 })
  | .depthFirst => f.nodes.back?.map fun node => (node, { f with nodes := f.nodes.pop })

/-- Number of open nodes. -/
def size (f : Frontier α) : Nat :=
  f.nodes.size

/-- Whether no node is open. -/
def isEmpty (f : Frontier α) : Bool :=
  f.nodes.isEmpty

/-- Least bound of an open node, positive infinity if there is none. -/
def bestBound (f : Frontier α) : α :=
  match f.selection with
  | .bestBound =>
      match f.nodes[0]? with
      | none => Scalar.posInf
      | some node => node.bound
  | .depthFirst =>
      f.nodes.foldl (fun least node => Scalar.minimum least node.bound) Scalar.posInf

/-- The nodes that may still hold an improvement. -/
def prune (f : Frontier α) (incumbent : Incumbent α) : Frontier α :=
  let keep (node : Node α) : Bool := !node.canPrune incumbent
  match f.selection with
  | .bestBound => { f with nodes := Heap.filter before keep f.nodes }
  | .depthFirst => { f with nodes := f.nodes.filter keep }

end Frontier

end BranchBound
