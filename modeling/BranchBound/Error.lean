import BranchBound.Printable
import BranchBound.Variable

/-!
# Errors

What can end a search before it has an answer.  Limits and proven infeasibility
are answers, not errors.  Each cause is a constructor; the wording is in the
`message` functions alone.
-/

namespace BranchBound

/-- A broken promise of the caller: the operation has no result at all. -/
inductive RangeFault where
  /-- An index past the end of a list. -/
  | missingIndex
  /-- A counter past its 64-bit range. -/
  | counterOverflow
deriving DecidableEq, Repr

/-- Why a problem is not accepted. -/
inductive ProblemFault (α : Type) where
  /-- There is nothing to decide. -/
  | noVariables
  /-- A bound is not a number. -/
  | nanBounds (var : Nat)
  /-- A variable has no value to start from. -/
  | emptyDomain (var : Nat) (interval : Interval α) (kind : VarKind)
  /-- A cause named by the caller. -/
  | reported (text : String)
deriving DecidableEq, Repr

/-- Why a relaxation gives no usable answer. -/
inductive OracleFault (α : Type) where
  /-- The solution has the wrong number of values. -/
  | valueCount (got expected : Nat)
  /-- The optimal value is infinite or not a number. -/
  | objectiveNotFinite (objective : α)
  /-- A value is infinite or not a number. -/
  | valueNotFinite (var : Nat)
  /-- A value is outside the box, beyond the tolerance. -/
  | valueOutside (var : Nat) (value : α) (interval : Interval α)
  /-- The relaxation has no least value. -/
  | unbounded (model : String)
  /-- The linear solver used up its pivots. -/
  | stalled (model : String)
  /-- A cause named by the oracle. -/
  | reported (text : String)
deriving DecidableEq, Repr

/-- Why the search contradicts itself. -/
inductive InternalFault where
  /-- A point was refused although every integer variable is integral. -/
  | noFractionalVariable (node : Nat)
  /-- A cause named by the caller. -/
  | reported (text : String)
deriving DecidableEq, Repr

/-- Errors that abort a search. -/
inductive SearchError (α : Type) where
  /-- The problem is not accepted. -/
  | invalidProblem (fault : ProblemFault α)
  /-- The relaxation failed. -/
  | oracle (fault : OracleFault α)
  /-- The search contradicts itself. -/
  | internal (fault : InternalFault)
  /-- The operation has no result. -/
  | range (fault : RangeFault)
deriving DecidableEq, Repr

variable {α : Type} [Printable α]

/-- Bounds as they appear in messages. -/
def Interval.text (i : Interval α) : String :=
  "[" ++ Printable.plain i.lower ++ ", " ++ Printable.plain i.upper ++ "]"

/-- Wording of a problem fault. -/
def ProblemFault.message : ProblemFault α → String
  | .noVariables => "problem has no variables"
  | .nanBounds var => s!"variable {var} has NaN bounds"
  | .emptyDomain var interval kind =>
      s!"variable {var} has empty domain {interval.text} ({kind.label})"
  | .reported text => text

/-- Wording of an oracle fault. -/
def OracleFault.message : OracleFault α → String
  | .valueCount got expected =>
      s!"relaxation returned {got} values for {expected} variables"
  | .objectiveNotFinite objective =>
      s!"relaxation objective is not finite: {Printable.plain objective}"
  | .valueNotFinite var => s!"relaxation value of variable {var} is not finite"
  | .valueOutside var value interval =>
      s!"relaxation value x{var} = {Printable.plain value} outside {interval.text}"
  | .unbounded model => s!"relaxation of '{model}' is unbounded"
  | .stalled model => s!"relaxation of '{model}' was not solved"
  | .reported text => text

/-- Wording of an internal fault. -/
def InternalFault.message : InternalFault → String
  | .noFractionalVariable node =>
      s!"node {node} rejected as non-integral but has no fractional variable"
  | .reported text => text

/-- Wording of a range fault. -/
def RangeFault.message : RangeFault → String
  | .missingIndex => "index out of range"
  | .counterOverflow => "counter out of range"

/-- Wording of an error, led by its class. -/
def SearchError.message : SearchError α → String
  | .invalidProblem fault => "Invalid problem: " ++ fault.message
  | .oracle fault => "Oracle failed: " ++ fault.message
  | .internal fault => "Internal error: " ++ fault.message
  | .range fault => fault.message

end BranchBound
