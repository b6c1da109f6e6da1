import BranchBound.Problem

/-!
# Linear models

Minimise a linear objective over integer and continuous variables under linear
constraints.  A `ModelFile` is a model as it is written down: terms in any order,
columns repeated, bounds missing.  `LinearModel.ofFile` checks it and brings every
row into normal form, columns increasing and each named once.
-/

namespace BranchBound

/-- Sense of a constraint. -/
inductive Sense where
  /-- At most. -/
  | le
  /-- At least. -/
  | ge
  /-- Equal. -/
  | eq
deriving DecidableEq, Repr

/-- A linear constraint. -/
structure Constraint (α : Type) where
  /-- Columns and their coefficients. -/
  terms : List (Nat × α)
  /-- Sense of the comparison. -/
  sense : Sense
  /-- Right-hand side. -/
  rhs : α
deriving DecidableEq, Repr

/-- A variable as it is written down. -/
structure VariableEntry (α : Type) where
  /-- Kind of the variable. -/
  kind : VarKind
  /-- Lower bound, if given. -/
  lower : Option α := none
  /-- Upper bound, if given. -/
  upper : Option α := none
  /-- Name, if given. -/
  name : Option String := none
deriving DecidableEq, Repr

/-- A model as it is written down. -/
structure ModelFile (α : Type) where
  /-- Name of the model. -/
  name : String := ""
  /-- Cost of each variable. -/
  objective : List α
  /-- Variables. -/
  vars : List (VariableEntry α)
  /-- Constraints. -/
  constraints : List (Constraint α) := []
deriving DecidableEq, Repr

/-- A checked linear model with its rows in normal form. -/
structure LinearModel (α : Type) where
  /-- Name of the model. -/
  name : String
  /-- Cost of each variable. -/
  objective : List α
  /-- Variables. -/
  vars : List (Variable α)
  /-- Constraints, columns strictly increasing. -/
  constraints : List (Constraint α)
deriving DecidableEq, Repr

/-- Why a model is not accepted. -/
inductive ModelFault (α : Type) where
  /-- The objective does not match the variables. -/
  | objectiveLength (coefficients vars : Nat)
  /-- A cost is not finite. -/
  | objectiveNotFinite (column : Nat)
  /-- A right-hand side is not finite. -/
  | rhsNotFinite (row : Nat)
  /-- A term names no variable. -/
  | columnOutOfRange (row column vars : Nat)
  /-- A coefficient is not finite. -/
  | coefficientNotFinite (row column : Nat)
  /-- The variables make no problem. -/
  | invalid (name : String) (error : SearchError α)
deriving DecidableEq, Repr

/-- Wording of a model fault. -/
def ModelFault.message {α : Type} [Printable α] : ModelFault α → String
  | .objectiveLength coefficients vars =>
      s!"objective has {coefficients} coefficients but the model declares " ++
        s!"{vars} variables"
  | .objectiveNotFinite column => s!"objective coefficient {column} is not finite"
  | .rhsNotFinite row => s!"constraint {row}: right-hand side is not finite"
  | .columnOutOfRange row column vars =>
      s!"constraint {row}: column {column} out of range (n = {vars})"
  | .coefficientNotFinite row column =>
      s!"constraint {row}: coefficient on column {column} is not finite"
  | .invalid name error => s!"invalid model '{name}': {error.message}"

/-- The fault without what caused it. -/
def ModelFault.headline {α : Type} [Printable α] : ModelFault α → String
  | .invalid name _ => s!"invalid model '{name}'"
  | fault => fault.message

variable {α : Type} [Scalar α]

/-- The variable of an entry.  Missing bounds are infinite, or `0` and `1` for a
binary variable. -/
def VariableEntry.toVariable (entry : VariableEntry α) : Variable α :=
  let free : Interval α :=
    match entry.kind with
    | .binary => .unit
    | _ => .whole
  { kind := entry.kind
    bounds := ⟨entry.lower.getD free.lower, entry.upper.getD free.upper⟩
    name := entry.name }

/-- The entry of a variable.  Only finite bounds are written down. -/
def Variable.toEntry (v : Variable α) : VariableEntry α where
  kind := v.kind
  lower := if Scalar.isFinite v.bounds.lower then some v.bounds.lower else none
  upper := if Scalar.isFinite v.bounds.upper then some v.bounds.upper else none
  name := v.name

namespace Constraint

/-- Add a term to a row in normal form; coefficients of one column add up. -/
def insertTerm (column : Nat) (coefficient : α) : List (Nat × α) → List (Nat × α)
  | [] => [(column, coefficient)]
  | (j, a) :: rest =>
      if column < j then (column, coefficient) :: (j, a) :: rest
      else if column = j then (j, a + coefficient) :: rest
      else (j, a) :: insertTerm column coefficient rest

/-- Terms by increasing column, each column once. -/
def normalTerms (terms : List (Nat × α)) : List (Nat × α) :=
  terms.foldl (fun row term => insertTerm term.1 term.2 row) []

/-- The constraint in normal form. -/
def normalise (c : Constraint α) : Constraint α :=
  { c with terms := normalTerms c.terms }

/-- What is wrong with one term of row `row`, if anything. -/
def termFault? (vars row : Nat) (term : Nat × α) : Option (ModelFault α) :=
  if vars ≤ term.1 then some (.columnOutOfRange row term.1 vars)
  else if !Scalar.isFinite term.2 then some (.coefficientNotFinite row term.1)
  else none

/-- What is wrong with row `row`, if anything. -/
def fault? (vars row : Nat) (c : Constraint α) : Option (ModelFault α) :=
  if !Scalar.isFinite c.rhs then some (.rhsNotFinite row)
  else c.terms.findSome? (termFault? vars row)

/-- A total and the values of terms at a point, given by its coordinates, added from
left to right; none if the point lacks a column. -/
def activityFrom? (coordinate : Nat → Option α) : List (Nat × α) → α → Option α
  | [], total => some total
  | (j, a) :: rest, total =>
      match coordinate j with
      | none => none
      | some x => activityFrom? coordinate rest (total + a * x)

/-- Left-hand side at a point, given by its coordinates; none if the point lacks a
column. -/
def activity? (c : Constraint α) (coordinate : Nat → Option α) : Option α :=
  activityFrom? coordinate c.terms (-Scalar.ofInt 0)

/-- Whether a left-hand side satisfies the constraint, up to `tol`. -/
def admits (c : Constraint α) (activity tol : α) : Bool :=
  match c.sense with
  | .le => decide (activity ≤ c.rhs + tol)
  | .ge => decide (c.rhs - tol ≤ activity)
  | .eq => decide (Scalar.abs (activity - c.rhs) ≤ tol)

end Constraint

namespace ModelFile

/-- What is wrong with the numbers of a file, if anything: objective first, then
row by row. -/
def fault? (file : ModelFile α) : Option (ModelFault α) :=
  let n := file.vars.length
  if file.objective.length ≠ n then some (.objectiveLength file.objective.length n)
  else
    match file.objective.findIdx? fun cost => !Scalar.isFinite cost with
    | some column => some (.objectiveNotFinite column)
    | none => file.constraints.zipIdx.findSome? fun row => row.1.fault? n row.2

end ModelFile

namespace LinearModel

/-- The model as the search sees it. -/
def problem (m : LinearModel α) : Problem α :=
  .ofVariables m.vars

/-- The box of the model. -/
def rootDomain (m : LinearModel α) : Domain α :=
  m.problem.rootDomain

/-- Build and check a model. -/
def ofFile (file : ModelFile α) : Except (ModelFault α) (LinearModel α) :=
  match file.fault? with
  | some fault => .error fault
  | none =>
      let model : LinearModel α :=
        { name := file.name
          objective := file.objective
          vars := file.vars.map VariableEntry.toVariable
          constraints := file.constraints.map Constraint.normalise }
      match model.problem.validate with
      | .error e => .error (.invalid file.name e)
      | .ok _ => .ok model

/-- The model as it is written down. -/
def toFile (m : LinearModel α) : ModelFile α where
  name := m.name
  objective := m.objective
  vars := m.vars.map Variable.toEntry
  constraints := m.constraints

/-- Number of variables. -/
def numVars (m : LinearModel α) : Nat :=
  m.vars.length

/-- Number of constraints. -/
def numConstraints (m : LinearModel α) : Nat :=
  m.constraints.length

/-- Number of stored coefficients. -/
def numTerms (m : LinearModel α) : Nat :=
  (m.constraints.flatMap Constraint.terms).length

/-- Objective at a point. -/
def objectiveValue (m : LinearModel α) (x : List α) : α :=
  Scalar.dot m.objective x

/-- Left-hand sides at a point; none if the point lacks a column that occurs. -/
def rowActivity? (m : LinearModel α) (x : List α) : Option (List α) :=
  let values := x.toArray
  m.constraints.mapM fun c => c.activity? fun j => values[j]?

/-- Whether a point satisfies a constraint, up to `tol`. -/
def satisfies (coordinate : Nat → Option α) (tol : α) (c : Constraint α) : Bool :=
  match c.activity? coordinate with
  | some activity => c.admits activity tol
  | none => false

/-- Whether a point satisfies every row, up to `tol`. -/
def satisfiesRows (m : LinearModel α) (x : List α) (tol : α) : Bool :=
  let values := x.toArray
  m.constraints.all (satisfies (fun j => values[j]?) tol)

/-- Whether a point lies in the model's box and satisfies every row, up to
`tol`. -/
def isFeasible (m : LinearModel α) (x : List α) (tol : α) : Bool :=
  x.length == m.numVars && m.rootDomain.contains x tol && m.satisfiesRows x tol

/-- Whether every variable is integral. -/
def isPureInteger (m : LinearModel α) : Bool :=
  m.vars.all fun v => v.kind.isIntegral

end LinearModel

end BranchBound
