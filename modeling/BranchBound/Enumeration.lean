import BranchBound.Model

/-!
# Enumeration

The best point of a small pure integer model, found by trying every integer point
of its box.  The first variable moves fastest, and of several best points the
first one is kept.
-/

namespace BranchBound

/-- Why a model cannot be enumerated. -/
inductive EnumerationFault where
  /-- Some variable is continuous. -/
  | notPureInteger
  /-- A variable has an infinite bound. -/
  | unbounded (var : Nat)
  /-- A bound is not a 64-bit integer. -/
  | outOfIntegerRange (var : Nat)
  /-- One variable has too many values. -/
  | tooManyValues (var : Nat)
  /-- The box has too many points. -/
  | tooManyPoints
deriving DecidableEq, Repr

namespace Enumeration

/-- Greatest number of points that are tried. -/
def maxPoints : Nat := pow2 22

end Enumeration

/-- Wording of an enumeration fault. -/
def EnumerationFault.message : EnumerationFault → String
  | .notPureInteger => "brute force requires a pure integer model"
  | .unbounded var => s!"variable {var} is unbounded"
  | .outOfIntegerRange var => s!"variable {var} bounds exceed the integer range"
  | .tooManyValues var => s!"variable {var} has too many integer values to enumerate"
  | .tooManyPoints => s!"more than {Enumeration.maxPoints} integer points to enumerate"

namespace Enumeration

/-- The integers `start, …, start + count - 1` of one variable. -/
structure Span where
  /-- Least value. -/
  start : Int
  /-- Number of values. -/
  count : Nat
deriving DecidableEq, Repr

/-- Least 64-bit integer. -/
def minInt : Int := -(pow2 63 : Int)

/-- Greatest 64-bit integer. -/
def maxInt : Int := (pow2 63 : Int) - 1

variable {α : Type} [Scalar α]

/-- The integer nearest a whole number within 64 bits. -/
def saturate (n : Int) : Int :=
  max minInt (min maxInt n)

/-- The integers of an interval: none if there is no integer in it. -/
def span? (var : Nat) (interval : Interval α) : Except EnumerationFault (Option Span) :=
  if !Scalar.isFinite interval.lower || !Scalar.isFinite interval.upper then
    .error (.unbounded var)
  else
    let lower := Scalar.ceil interval.lower
    let upper := Scalar.floor interval.upper
    if upper < lower then .ok none
    else
      match Scalar.toInt? lower, Scalar.toInt? upper with
      | some least, some greatest =>
          if lower < Scalar.ofInt minInt ∨ Scalar.ofInt maxInt < upper then
            .error (.outOfIntegerRange var)
          else
            let least := saturate least
            let greatest := saturate greatest
            if maxInt < greatest - least + 1 then .error (.tooManyValues var)
            else .ok (some ⟨least, (greatest - least + 1).toNat⟩)
      | _, _ => .error (.outOfIntegerRange var)

/-- The integers of every interval in turn; `points` counts those of the box so
far.  None if some interval holds no integer. -/
def spans? : List (Interval α × Nat) → (points : Nat) →
    Except EnumerationFault (Option (List Span))
  | [], _ => .ok (some [])
  | (interval, var) :: rest, points =>
      match span? var interval with
      | .error fault => .error fault
      | .ok none => .ok none
      | .ok (some span) =>
          if maxPoints < points * span.count then .error .tooManyPoints
          else
            match spans? rest (points * span.count) with
            | .error fault => .error fault
            | .ok spans => .ok (spans.map (span :: ·))

/-- The values of a span. -/
def Span.values (span : Span) : List α :=
  (List.range span.count).map fun (i : Nat) => Scalar.ofInt (span.start + i)

/-- The values of each variable that lie in its interval, up to `tol`.  A point with
any other value is not feasible. -/
def admissibleValues (box : Domain α) (tol : α) (spans : List Span) : List (List α) :=
  List.zipWith (fun interval span => (Span.values span).filter fun v => interval.contains v tol)
    box.intervals spans

/-- Visit the points of a box, whose values are listed last variable first, with
those of the later variables fixed.  The first variable moves fastest. -/
def foldPoints {β : Type} (visit : β → List α → β) :
    List (List α) → (later : List α) → β → β
  | [], later, state => visit state later
  | values :: earlier, later, state =>
      values.foldl (fun state value => foldPoints visit earlier (value :: later) state) state

/-- The better of a best point and a new one, which counts only if it is feasible. -/
def keepBetter (isFeasible : List α → Bool) (objective : List α → α)
    (best : Option (α × List α)) (x : List α) : Option (α × List α) :=
  if isFeasible x then
    let value := objective x
    match best with
    | none => some (value, x)
    | some (least, _) => if value < least then some (value, x) else best
  else best

/-- The better of a best point and a new one whose values are admissible. -/
def consider (model : LinearModel α) (tol : α) :
    Option (α × List α) → List α → Option (α × List α) :=
  keepBetter (model.satisfiesRows · tol) model.objectiveValue

/-- The best integer point of a model and its objective; none if there is no
feasible one. -/
def best (model : LinearModel α) (tol : α) : Except EnumerationFault (Option (α × List α)) :=
  if !model.isPureInteger then .error .notPureInteger
  else
    let box := model.rootDomain
    match spans? box.intervals.zipIdx 1 with
    | .error fault => .error fault
    | .ok none => .ok none
    | .ok (some spans) =>
        .ok (foldPoints (consider model tol) (admissibleValues box tol spans).reverse [] none)

end Enumeration

end BranchBound
