import BranchBound.Power

/-!
# Scalars

The search, its relaxations and its models are written over a small class of
number systems rather than over one.  Binary floating point is what a program
runs on; exact rational arithmetic with infinities is what a statement about
optimal values is usually made in.  Both are instances of `Scalar`.

A scalar is either *finite*, and then has a rational value `toRat?`, or one of
the infinities, or not a number.  Comparisons are propositions, and a value
that is not a number compares with nothing.
-/

namespace BranchBound

/-- A number system with infinities, integer rounding and a total order. -/
class Scalar (α : Type) extends Add α, Sub α, Mul α, Div α, Neg α, LE α, LT α where
  /-- Whether `a ≤ b` is decided by evaluation. -/
  leDecidable : ∀ a b : α, Decidable (a ≤ b)
  /-- Whether `a < b` is decided by evaluation. -/
  ltDecidable : ∀ a b : α, Decidable (a < b)
  /-- The scalar nearest a rational number. -/
  ofRat : Rat → α
  /-- The value of a finite scalar. -/
  toRat? : α → Option Rat
  /-- Positive infinity. -/
  posInf : α
  /-- Whether the scalar is not a number. -/
  isNaN : α → Bool
  /-- Magnitude. -/
  abs : α → α
  /-- Greatest integer not above the scalar. -/
  floor : α → α
  /-- Least integer not below the scalar. -/
  ceil : α → α
  /-- Nearest integer, halves away from zero. -/
  round : α → α
  /-- A total order that extends `<`: it also ranks signed zeros and puts what is
  not a number last. -/
  order : α → α → Ordering

variable {α : Type} [Scalar α]

instance instDecidableScalarLE (a b : α) : Decidable (a ≤ b) :=
  Scalar.leDecidable a b

instance instDecidableScalarLT (a b : α) : Decidable (a < b) :=
  Scalar.ltDecidable a b

namespace Scalar

/-- The scalar nearest an integer. -/
def ofInt (n : Int) : α :=
  ofRat (n : Rat)

/-- The scalar nearest `digits / 10 ^ places`. -/
def decimal (digits places : Nat) : α :=
  ofRat (mkRat digits (pow10 places))

/-- Negative infinity. -/
def negInf : α :=
  -posInf

/-- Whether the scalar has a rational value. -/
def isFinite (a : α) : Bool :=
  (toRat? a).isSome

/-- Whether the scalar is one of the two infinities. -/
def isInfinite (a : α) : Bool :=
  !isFinite a && !isNaN a

/-- The greater of two scalars.  A value that is not a number gives way to the
other one, and of two equal values the first is kept. -/
def maximum (a b : α) : α :=
  if isNaN a then b else if a < b then b else a

/-- The smaller of two scalars.  A value that is not a number gives way to the
other one, and of two equal values the first is kept. -/
def minimum (a b : α) : α :=
  if isNaN a then b else if b < a then b else a

/-- The scalar moved into `[lower, upper]`; what is not a number stays. -/
def clamp (a lower upper : α) : α :=
  if a < lower then lower else if upper < a then upper else a

/-- Sum from left to right.  It starts from negative zero, the neutral element
of addition when zeros are signed. -/
def sum (values : List α) : α :=
  values.foldl (· + ·) (-ofInt 0)

/-- A total and the products of corresponding entries, added from left to right; the
longer list is cut. -/
def dotFrom (total : α) : List α → List α → α
  | a :: left, b :: right => dotFrom (total + a * b) left right
  | _, _ => total

/-- Sum of the products of corresponding entries; the longer list is cut. -/
def dot (left right : List α) : α :=
  dotFrom (-ofInt 0) left right

/-- The integer a scalar denotes after rounding down, if it is finite. -/
def toInt? (a : α) : Option Int :=
  (toRat? a).map Rat.floor

end Scalar

end BranchBound
