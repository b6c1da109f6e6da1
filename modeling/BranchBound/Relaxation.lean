import BranchBound.Domain
import BranchBound.Duration
import BranchBound.Error

/-!
# Relaxations

An oracle solves the continuous relaxation of a problem over a box.  It carries a
state of its own, which every call may change, and is told how much time is
left.  The search uses an answer only after `Relaxation.fault?` found nothing
wrong with it.
-/

namespace BranchBound

/-- An optimal solution of a relaxation. -/
structure Relaxation (α : Type) where
  /-- Optimal value, a lower bound for the box. -/
  objective : α
  /-- Where it is attained; possibly fractional. -/
  values : List α
deriving DecidableEq, Repr

/-- Answer of an oracle. -/
inductive RelaxationOutcome (α : Type) where
  /-- The relaxation was solved. -/
  | optimal (relaxation : Relaxation α)
  /-- The relaxation has no feasible point. -/
  | infeasible
  /-- The oracle ran out of time. -/
  | interrupted
deriving DecidableEq, Repr

/-- A solver of relaxations with state `σ`. -/
structure Oracle (σ α : Type) where
  /-- Solve over a box within the time left, if that is limited. -/
  solve : σ → Domain α → Option Duration → Except (SearchError α) (RelaxationOutcome α) × σ

/-- One call of an oracle. -/
structure OracleCall (α : Type) where
  /-- The box it was asked about. -/
  domain : Domain α
  /-- The time it was given. -/
  budget : Option Duration
deriving DecidableEq, Repr

variable {α : Type} [Scalar α]

namespace Relaxation

/-- What is wrong with the value of one variable, if anything. -/
def valueFault? (tol : α) (var : Nat) (interval : Interval α) (value : α) :
    Option (OracleFault α) :=
  if !Scalar.isFinite value then some (.valueNotFinite var)
  else if !interval.contains value tol then some (.valueOutside var value interval)
  else none

/-- What is wrong with a solution over a box, if anything: its length, its
objective, then the first bad value. -/
def fault? (r : Relaxation α) (domain : Domain α) (tol : α) : Option (OracleFault α) :=
  if r.values.length ≠ domain.size then
    some (.valueCount r.values.length domain.size)
  else if !Scalar.isFinite r.objective then
    some (.objectiveNotFinite r.objective)
  else
    (List.zip domain.intervals r.values).zipIdx.findSome? fun entry =>
      valueFault? tol entry.2 entry.1.1 entry.1.2

end Relaxation

namespace Oracle

variable {σ : Type}

/-- An oracle without state. -/
def ofFunction (f : Domain α → Except (SearchError α) (RelaxationOutcome α)) :
    Oracle Unit α where
  solve _ domain _ := (f domain, ())

/-- The same oracle, remembering its calls, newest first. -/
def recorded (oracle : Oracle σ α) : Oracle (σ × List (OracleCall α)) α where
  solve state domain budget :=
    let answer := oracle.solve state.1 domain budget
    (answer.1, answer.2, ⟨domain, budget⟩ :: state.2)

/-- The same oracle, interrupted from call number `limit` on (counted from
zero).  Interrupted calls do not reach it. -/
def interruptedFrom (oracle : Oracle σ α) (limit : Nat) : Oracle (σ × Nat) α where
  solve state domain budget :=
    if limit ≤ state.2 then (.ok .interrupted, state.1, state.2 + 1)
    else
      let answer := oracle.solve state.1 domain budget
      (answer.1, answer.2, state.2 + 1)

end Oracle

end BranchBound
