import BranchBound.Scalar

/-!
# Exact scalars

Rational numbers with two infinities, closed by one undefined value.  Finite
values are added, multiplied and divided without rounding, so a statement about
optimal values over these scalars is a statement about rational arithmetic.

There is one zero, and it divides like a positive number that is arbitrarily
small: a positive value over zero is positive infinity.
-/

namespace BranchBound

/-- An exact scalar. -/
inductive Exact where
  /-- The result of an operation without a value, such as `∞ - ∞`. -/
  | undefined
  /-- An infinity. -/
  | infinite (negative : Bool)
  /-- A rational number. -/
  | finite (value : Rat)
deriving DecidableEq, Repr

namespace Exact

/-- The rational value of a finite scalar. -/
def toRat? : Exact → Option Rat
  | finite r => some r
  | _ => none

/-- Whether the scalar is the undefined one. -/
def isUndefined : Exact → Bool
  | undefined => true
  | _ => false

/-- Sum; opposite infinities have none. -/
def add : Exact → Exact → Exact
  | finite r, finite s => finite (r + s)
  | infinite n, infinite m => if n = m then infinite n else undefined
  | infinite n, finite _ => infinite n
  | finite _, infinite n => infinite n
  | _, _ => undefined

/-- The opposite scalar. -/
def neg : Exact → Exact
  | undefined => undefined
  | infinite n => infinite (!n)
  | finite r => finite (-r)

/-- An infinity times a finite value; zero gives the undefined scalar. -/
def scaleInfinite (negative : Bool) (r : Rat) : Exact :=
  if r = 0 then undefined
  else if r < 0 then infinite (!negative)
  else infinite negative

/-- Product; an infinity and zero have none. -/
def mul : Exact → Exact → Exact
  | finite r, finite s => finite (r * s)
  | infinite n, infinite m => infinite (n != m)
  | infinite n, finite r => scaleInfinite n r
  | finite r, infinite n => scaleInfinite n r
  | _, _ => undefined

/-- The reciprocal; that of zero is positive infinity. -/
def inv : Exact → Exact
  | undefined => undefined
  | infinite _ => finite 0
  | finite r => if r = 0 then infinite false else finite (1 / r)

/-- Whether `a` is at most `b`.  The undefined scalar compares with nothing. -/
def le : Exact → Exact → Prop
  | finite r, finite s => r ≤ s
  | infinite n, infinite m => m = true → n = true
  | infinite n, finite _ => n = true
  | finite _, infinite m => m = false
  | _, _ => False

/-- Whether `a` is below `b`.  The undefined scalar compares with nothing. -/
def lt : Exact → Exact → Prop
  | finite r, finite s => r < s
  | infinite n, infinite m => n = true ∧ m = false
  | infinite n, finite _ => n = true
  | finite _, infinite m => m = false
  | _, _ => False

instance instDecidableLe (a b : Exact) : Decidable (a.le b) := by
  cases a <;> cases b <;> dsimp only [le] <;> infer_instance

instance instDecidableLt (a b : Exact) : Decidable (a.lt b) := by
  cases a <;> cases b <;> dsimp only [lt] <;> infer_instance

/-- The scalar with its finite value replaced. -/
def mapFinite (f : Rat → Rat) : Exact → Exact
  | finite r => finite (f r)
  | a => a

/-- Magnitude. -/
def abs : Exact → Exact
  | undefined => undefined
  | infinite _ => infinite false
  | finite r => finite (if r < 0 then -r else r)

/-- Nearest integer, halves away from zero. -/
def nearest (r : Rat) : Int :=
  if r < 0 then Rat.ceil (r - 1 / 2) else Rat.floor (r + 1 / 2)

/-- The total order: negative infinity, the rationals, positive infinity, the
undefined scalar. -/
def order (a b : Exact) : Ordering :=
  match a, b with
  | undefined, undefined => .eq
  | undefined, _ => .gt
  | _, undefined => .lt
  | a, b => if a.lt b then .lt else if b.lt a then .gt else .eq

end Exact

instance instScalarExact : Scalar Exact where
  add := Exact.add
  sub := fun a b => Exact.add a (Exact.neg b)
  mul := Exact.mul
  div := fun a b => Exact.mul a (Exact.inv b)
  neg := Exact.neg
  le := Exact.le
  lt := Exact.lt
  leDecidable := Exact.instDecidableLe
  ltDecidable := Exact.instDecidableLt
  ofRat := Exact.finite
  toRat? := Exact.toRat?
  posInf := Exact.infinite false
  isNaN := Exact.isUndefined
  abs := Exact.abs
  floor := Exact.mapFinite fun r => Rat.floor r
  ceil := Exact.mapFinite fun r => Rat.ceil r
  round := Exact.mapFinite fun r => Exact.nearest r
  order := Exact.order

end BranchBound
