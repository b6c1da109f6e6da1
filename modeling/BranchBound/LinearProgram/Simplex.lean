import BranchBound.LinearProgram

/-!
# The simplex method

Every row of a program gets a variable of its own, equal to the row's value.  A
tableau expresses some of the variables, the basic ones, by the others; the others
stay at values within their ranges.

First basic variables outside their ranges are brought back, one after the other;
then the value is lowered as long as some variable can move in a direction that
lowers it.  For some steps the variable with the greatest effect is moved, which gets
far in few steps; after that the one of least index, which rules out cycles.  All
arithmetic is exact.
-/

namespace BranchBound

/-- A basic variable as a combination of the nonbasic ones. -/
structure TableauRow where
  /-- Index of the basic variable. -/
  basic : Nat
  /-- Coefficients, one per nonbasic variable. -/
  coefficients : List Rat
deriving DecidableEq, Repr

/-- Basic variables in terms of nonbasic ones. -/
structure Tableau where
  /-- Indices of the nonbasic variables. -/
  nonbasic : List Nat
  /-- Their values. -/
  point : List Rat
  /-- Basic variables. -/
  rows : List TableauRow
  /-- Cost of each nonbasic variable, the basic ones substituted. -/
  costs : List Rat
deriving DecidableEq, Repr

/-- What a step of the method leads to. -/
inductive TableauStep where
  /-- Another tableau. -/
  | next (tableau : Tableau)
  /-- Nothing is left to do. -/
  | done
  /-- There is no answer to look for. -/
  | fail
deriving DecidableEq, Repr

/-- Which of several variables is moved. -/
inductive PivotRule where
  /-- The one with the greatest coefficient. -/
  | greatest
  /-- The one of least index. -/
  | least
deriving DecidableEq, Repr

/-- Where a number of steps leads to. -/
inductive TableauRun where
  /-- Nothing is left to do. -/
  | finished (tableau : Tableau)
  /-- There is no answer to look for. -/
  | failed
  /-- The steps ran out. -/
  | unfinished (tableau : Tableau)
deriving DecidableEq, Repr

/-- A nonbasic variable that can move. -/
structure Mover where
  /-- Its position. -/
  position : Nat
  /-- Its index. -/
  index : Nat
  /-- Size of its coefficient. -/
  effect : Rat
  /-- Whether it grows. -/
  grows : Bool
deriving DecidableEq, Repr

/-- Why a row blocks a move, and where. -/
structure Blocking where
  /-- Position of the row. -/
  row : Nat
  /-- Index of its basic variable. -/
  basic : Nat
  /-- Length of the move. -/
  length : Rat
  /-- Value of the basic variable there. -/
  bound : Rat
deriving DecidableEq, Repr

namespace Tableau

/-- Scalar product. -/
def combine (coefficients values : List Rat) : Rat :=
  (List.zipWith (· * ·) coefficients values).foldl (· + ·) 0

/-- Range of the variable of some index. -/
def rangeOf (ranges : Array Range) (index : Nat) : Range :=
  ranges.getD index ⟨none, none⟩

/-- Value of a basic variable. -/
def rowValue (t : Tableau) (row : TableauRow) : Rat :=
  combine row.coefficients t.point

/-- Coefficients of a basic variable solved for the nonbasic one in position
`column`. -/
def solveFor (coefficients : List Rat) (column : Nat) : List Rat :=
  let inverse := 1 / coefficients.getD column 1
  (coefficients.map fun a => -(a * inverse)).set column inverse

/-- Put the combination `solved` in place of the variable in position `column`. -/
def substitute (solved : List Rat) (column : Nat) (coefficients : List Rat) : List Rat :=
  let a := coefficients.getD column 0
  List.zipWith (fun x y => x + a * y) (coefficients.set column 0) solved

/-- Exchange the basic variable of row number `row` with the nonbasic one in
position `column`; the former basic variable gets the value `bound`. -/
def pivot (t : Tableau) (row column : Nat) (bound : Rat) : Tableau :=
  match t.rows[row]?, t.nonbasic[column]? with
  | some leaving, some entering =>
      let solved := solveFor leaving.coefficients column
      { nonbasic := t.nonbasic.set column leaving.basic
        point := t.point.set column bound
        rows := (t.rows.map fun r =>
          { r with coefficients := substitute solved column r.coefficients }).set row
            ⟨entering, solved⟩
        costs := substitute solved column t.costs }
  | _, _ => t

/-- The entry of least index. -/
def leastIndex? {β : Type} (index : β → Nat) : List β → Option β
  | [] => none
  | first :: rest =>
      some (rest.foldl (fun best next => if index next < index best then next else best) first)

/-- Positions and indices of the nonbasic variables, with one coefficient and the
value of each. -/
def columns (t : Tableau) (coefficients : List Rat) : List (Nat × Nat × Rat × Rat) :=
  (List.zip t.nonbasic (List.zip coefficients t.point)).zipIdx.map fun entry =>
    (entry.2, entry.1.1, entry.1.2.1, entry.1.2.2)

/-- The nonbasic variables that can move so as to change a combination in the wanted
direction. -/
def movers (t : Tableau) (ranges : Array Range) (coefficients : List Rat) (grow : Bool) :
    List Mover :=
  (t.columns coefficients).filterMap fun (position, index, a, x) =>
    let range := rangeOf ranges index
    if a = 0 then none
    else
      let grows := decide (0 < a) == grow
      if (if grows then range.canGrow x else range.canShrink x) then
        some ⟨position, index, if 0 < a then a else -a, grows⟩
      else none

/-- The mover of greatest effect, of several the first one. -/
def greatestEffect? : List Mover → Option Mover
  | [] => none
  | first :: rest =>
      some (rest.foldl (fun best next => if best.effect < next.effect then next else best) first)

/-- The mover a rule chooses. -/
def entering? (ranges : Array Range) (rule : PivotRule) (t : Tableau)
    (coefficients : List Rat) (grow : Bool) : Option Mover :=
  let all := t.movers ranges coefficients grow
  match rule with
  | .greatest => greatestEffect? all
  | .least => leastIndex? Mover.index all

/-- Bring the basic variable of least index that is outside its range back to its
bound. -/
def repair (ranges : Array Range) (rule : PivotRule) (t : Tableau) : TableauStep :=
  let broken := t.rows.zipIdx.filterMap fun entry =>
    let range := rangeOf ranges entry.1.basic
    let value := t.rowValue entry.1
    if range.isAbove value then some (entry.1, entry.2, true, range.lower.getD 0)
    else if range.isBelow value then some (entry.1, entry.2, false, range.upper.getD 0)
    else none
  match leastIndex? (fun entry => entry.1.basic) broken with
  | none => .done
  | some (row, position, grow, bound) =>
      match entering? ranges rule t row.coefficients grow with
      | none => .fail
      | some mover => .next (t.pivot position mover.position bound)

/-- Where a row stops a nonbasic variable that moves by `direction` per unit of
length. -/
def blocking? (ranges : Array Range) (t : Tableau) (column : Nat) (direction : Rat)
    (entry : TableauRow × Nat) : Option Blocking :=
  let slope := entry.1.coefficients.getD column 0 * direction
  let range := rangeOf ranges entry.1.basic
  let value := t.rowValue entry.1
  let limit := if 0 < slope then range.upper else range.lower
  if slope = 0 then none
  else limit.map fun bound => ⟨entry.2, entry.1.basic, (bound - value) / slope, bound⟩

/-- The nearest block, of several the one of least index. -/
def nearest? : List Blocking → Option Blocking
  | [] => none
  | first :: rest =>
      some (rest.foldl
        (fun best next =>
          if next.length < best.length ∨
              (next.length = best.length ∧ next.basic < best.basic) then next
          else best)
        first)

/-- Move a nonbasic variable that lowers the value, as far as its own range and the
rows allow. -/
def improve (ranges : Array Range) (rule : PivotRule) (t : Tableau) : TableauStep :=
  match entering? ranges rule t t.costs false with
  | none => .done
  | some mover =>
      let column := mover.position
      let direction : Rat := if mover.grows then 1 else -1
      let range := rangeOf ranges mover.index
      let value := t.point.getD column 0
      let own := if mover.grows then range.upper else range.lower
      let block := nearest? (t.rows.zipIdx.filterMap (blocking? ranges t column direction))
      match own, block with
      | none, none => .fail
      | some bound, none => .next { t with point := t.point.set column bound }
      | none, some b => .next (t.pivot b.row column b.bound)
      | some bound, some b =>
          if (bound - value) * direction ≤ b.length then
            .next { t with point := t.point.set column bound }
          else .next (t.pivot b.row column b.bound)

/-- Repeat a step until it is done or fails, at most `fuel` times. -/
def repeatStep (step : Tableau → TableauStep) : (fuel : Nat) → Tableau → TableauRun
  | 0, t => .unfinished t
  | fuel + 1, t =>
      match step t with
      | .next t => repeatStep step fuel t
      | .done => .finished t
      | .fail => .failed

/-- Repeat a step, some times with the rule that gets far and then with the one that
rules out cycles. -/
def repeatBoth (step : PivotRule → Tableau → TableauStep) (far all : Nat) (t : Tableau) :
    TableauRun :=
  match repeatStep (step .greatest) far t with
  | .unfinished t => repeatStep (step .least) all t
  | run => run

/-- Value of the variable of some index. -/
def valueOf (t : Tableau) (index : Nat) : Rat :=
  match t.rows.find? fun row => row.basic == index with
  | some row => t.rowValue row
  | none => ((List.zip t.nonbasic t.point).lookup index).getD 0

end Tableau

namespace LinearProgram

/-- Number of variables. -/
def size (p : LinearProgram) : Nat :=
  p.ranges.length

/-- Ranges of the variables and then of the rows. -/
def allRanges (p : LinearProgram) : List Range :=
  p.ranges ++ p.rows.map LinearRow.range

/-- Coefficient of a column in some terms. -/
def coefficient (terms : List (Nat × Rat)) (column : Nat) : Rat :=
  (terms.filter fun term => term.1 == column).foldl (fun a term => a + term.2) 0

/-- The tableau whose basic variables are those of the rows. -/
def tableau (p : LinearProgram) : Tableau where
  nonbasic := List.range p.size
  point := p.ranges.map Range.corner
  rows := p.rows.zipIdx.map fun entry =>
    { basic := p.size + entry.2
      coefficients := (List.range p.size).map (coefficient entry.1.terms) }
  costs := (List.range p.size).map fun j => p.costs.getD j 0

/-- More steps than there are tableaux. -/
def maxSteps (p : LinearProgram) : Nat :=
  pow2 (2 * (p.size + p.rows.length)) + 1

/-- The answer a final tableau stands for. -/
def readOff (p : LinearProgram) (t : Tableau) : LinearVerdict :=
  let point := (List.range p.size).map t.valueOf
  .optimal (Tableau.combine p.costs point) point

/-- Steps with the rule that gets far. -/
def farSteps (p : LinearProgram) : Nat :=
  4 * (p.size + p.rows.length)

/-- Solve a linear program exactly. -/
def solve (p : LinearProgram) : LinearVerdict :=
  let ranges := p.allRanges.toArray
  let settle (step : PivotRule → Tableau → TableauStep) (t : Tableau) : TableauRun :=
    Tableau.repeatBoth step p.farSteps p.maxSteps t
  if p.allRanges.any Range.isEmpty then .infeasible
  else
    match settle (Tableau.repair ranges) p.tableau with
    | .unfinished _ => .stalled
    | .failed => .infeasible
    | .finished feasible =>
        match settle (Tableau.improve ranges) feasible with
        | .unfinished _ => .stalled
        | .failed => .unbounded
        | .finished final => p.readOff final

end LinearProgram

end BranchBound
