import BranchBound.Decimal
import BranchBound.Binary64

/-!
# Shortest decimals

The decimal numeral with the fewest digits that still reads back as a given
binary64 number, and of those the nearest one.

A number `significand * 2 ^ exponent` owns the reals that round to it: those up
to half the distance to its neighbours, the ends included when the significand
is even.  On the grid of `k`-digit numerals only the two grid points around the
number can be the answer, so each `k` is settled by two comparisons of natural
numbers.
-/

namespace BranchBound.Decimal

/-- The reals that read back as one number, as quotients over one denominator. -/
structure ReadBack where
  /-- Lower end. -/
  low : Nat
  /-- The number itself. -/
  value : Nat
  /-- Upper end. -/
  high : Nat
  /-- Common denominator. -/
  den : Nat
  /-- Whether the ends belong to the range. -/
  closed : Bool

/-- The reals that round to `significand * 2 ^ exponent`.  Below a power of two
the numbers lie twice as close. -/
def ReadBack.ofParts (significand : Nat) (exponent : Int) : ReadBack :=
  let below :=
    if significand = pow2 52 ∧ Binary64.minExponent < exponent then 1 else 2
  let shift := exponent - 2
  let unit := pow2 shift.toNat
  { low := (4 * significand - below) * unit
    value := 4 * significand * unit
    high := (4 * significand + 2) * unit
    den := pow2 (-shift).toNat
    closed := significand % 2 = 0 }

/-- Whether a numeral reads back as the number. -/
def ReadBack.reads (r : ReadBack) (d : Decimal) : Bool :=
  let low := Rounding.scaleDown r.low r.den d.exponent
  let high := Rounding.scaleDown r.high r.den d.exponent
  let point := d.digits * low.2
  if r.closed then decide (low.1 ≤ point ∧ point ≤ high.1)
  else decide (low.1 < point ∧ point < high.1)

/-- The two numerals of `k + 1` digits around the number, the nearer one first
and the greater one first if both are equally near. -/
def ReadBack.neighbours (r : ReadBack) (k : Nat) : List Decimal :=
  let e := Rounding.decimalExponent r.value r.den - k
  let scaled := Rounding.scaleDown r.value r.den e
  let below := scaled.1 / scaled.2
  if 2 * (scaled.1 % scaled.2) < scaled.2 then [⟨below, e⟩, ⟨below + 1, e⟩]
  else [⟨below + 1, e⟩, ⟨below, e⟩]

/-- The shortest numeral that reads back as `significand * 2 ^ exponent`, for a
positive significand.  Seventeen digits always suffice. -/
def shortest (significand : Nat) (exponent : Int) : Decimal :=
  let r := ReadBack.ofParts significand exponent
  let candidates := (List.range 17).flatMap r.neighbours
  ((candidates.find? r.reads).getD ⟨0, 0⟩).trimmed 17

end BranchBound.Decimal
