import BranchBound.Scalar
import BranchBound.Rounding

/-!
# Binary64 scalars

The 64-bit floating-point numbers as a number system of the search.  Sums,
products and comparisons are the machine's.  Rounding to an integer, the
rational value and the rounding of a rational go through the fields of the bit
pattern, so that they are defined by integer arithmetic alone.
-/

namespace BranchBound

/-- What a bit pattern stands for. -/
inductive Binary64 where
  /-- Not a number. -/
  | nan
  /-- An infinity. -/
  | infinite (negative : Bool)
  /-- `± significand * 2 ^ exponent`. -/
  | finite (negative : Bool) (significand : Nat) (exponent : Int)
deriving DecidableEq, Repr

namespace Binary64

/-- Exponent of the smallest positive number, `2 ^ minExponent`. -/
def minExponent : Int := -1074

/-- Read the fields of a bit pattern. -/
def decode (x : Float) : Binary64 :=
  let bits := x.toBits.toNat
  let negative := decide (pow2 63 ≤ bits)
  let biased : Nat := bits / pow2 52 % pow2 11
  let fraction := bits % pow2 52
  if biased = 2047 then
    if fraction = 0 then infinite negative else nan
  else if biased = 0 then
    finite negative fraction minExponent
  else
    finite negative (pow2 52 + fraction) ((biased : Int) - 1075)

/-- The float of a sign, a biased exponent and a fraction. -/
def ofFields (negative : Bool) (biased fraction : Nat) : Float :=
  Float.ofBits
    (UInt64.ofNat ((if negative then pow2 63 else 0) + biased * pow2 52 + fraction))

/-- The float `± significand * 2 ^ exponent`, for a significand below `2 ^ 53`
that is normalised or has the smallest exponent; too large a value is an
infinity. -/
def encode (negative : Bool) (significand : Nat) (exponent : Int) : Float :=
  if significand < pow2 52 then
    ofFields negative 0 significand
  else if 971 < exponent then
    ofFields negative 2047 0
  else
    ofFields negative (exponent + 1075).toNat (significand - pow2 52)

/-- `num / den` to the nearest float of the given sign, a half to the even
neighbour. -/
def ofQuotient (negative : Bool) (num den : Nat) : Float :=
  if num = 0 then ofFields negative 0 0
  else
    let guess : Int := (Nat.log2 num : Int) - Nat.log2 den - 53
    let scaled (k : Int) : Nat × Nat :=
      if 0 ≤ k then (num, den * pow2 k.toNat) else (num * pow2 (-k).toNat, den)
    let wide := scaled (guess + 53)
    let k := max minExponent (if wide.2 ≤ wide.1 then guess + 1 else guess)
    let exact := scaled k
    let significand := Rounding.halfEven exact.1 exact.2
    if significand = pow2 53 then encode negative (pow2 52) (k + 1)
    else encode negative significand k

/-- The float nearest a rational number. -/
def ofRat (r : Rat) : Float :=
  ofQuotient (decide (r.num < 0)) r.num.natAbs r.den

/-- `significand * 2 ^ exponent`. -/
def magnitude (significand : Nat) (exponent : Int) : Rat :=
  if 0 ≤ exponent then ((significand * pow2 exponent.toNat : Nat) : Rat)
  else mkRat significand (pow2 (-exponent).toNat)

/-- The rational value of a finite float. -/
def toRat? (x : Float) : Option Rat :=
  match decode x with
  | finite negative significand exponent =>
      let r := magnitude significand exponent
      some (if negative then -r else r)
  | _ => none

/-- A finite float rounded to an integer, the sign kept.  `away` says, from the
sign, the part that is cut off and its unit, whether the magnitude grows. -/
def roundWith (away : Bool → Nat → Nat → Bool) (x : Float) : Float :=
  match decode x with
  | finite negative significand exponent =>
      if 0 ≤ exponent then x
      else
        let unit := pow2 (-exponent).toNat
        let whole := significand / unit
        let grown := if away negative (significand % unit) unit then whole + 1 else whole
        ofQuotient negative grown 1
  | _ => x

/-- Greatest integer not above the float. -/
def floor : Float → Float :=
  roundWith fun negative rest _ => negative && decide (0 < rest)

/-- Least integer not below the float. -/
def ceil : Float → Float :=
  roundWith fun negative rest _ => !negative && decide (0 < rest)

/-- Nearest integer, halves away from zero. -/
def round : Float → Float :=
  roundWith fun _ rest unit => decide (unit ≤ 2 * rest)

/-- Place of a float in the total order: negative patterns descend below the
positive ones. -/
def rank (x : Float) : Int :=
  let bits := x.toBits.toNat
  if pow2 63 ≤ bits then -((bits : Int) - pow2 63) - 1 else bits

end Binary64

instance instScalarFloat : Scalar Float where
  leDecidable := fun a b => inferInstanceAs (Decidable (a ≤ b))
  ltDecidable := fun a b => inferInstanceAs (Decidable (a < b))
  ofRat := Binary64.ofRat
  toRat? := Binary64.toRat?
  posInf := Binary64.ofFields false 2047 0
  isNaN := Float.isNaN
  abs := Float.abs
  floor := Binary64.floor
  ceil := Binary64.ceil
  round := Binary64.round
  order := fun a b => compare (Binary64.rank a) (Binary64.rank b)

end BranchBound
