import BranchBound.Rounding

/-!
# Decimal numerals

A positive decimal numeral `digits * 10 ^ exponent` and the ways of writing it:
all places spelled out, or one leading digit and an exponent.  Signs and values
that are not finite are added where a number is printed.
-/

namespace BranchBound

/-- The number `digits * 10 ^ exponent`. -/
structure Decimal where
  /-- Significant digits, read as a natural number. -/
  digits : Nat
  /-- Power of ten they are scaled by. -/
  exponent : Int
deriving DecidableEq, Repr

namespace Decimal

/-- `n` zeros. -/
def zeros (n : Nat) : String :=
  String.ofList (List.replicate n '0')

/-- A natural number in decimal digits. -/
def natText (n : Nat) : String :=
  String.ofList (Nat.toDigits 10 n)

/-- An integer in decimal digits. -/
def intText (n : Int) : String :=
  if n < 0 then "-" ++ natText n.natAbs else natText n.natAbs

/-- Decimal digits of `n`, filled with leading zeros up to `width`. -/
def padded (width n : Nat) : String :=
  let text := natText n
  zeros (width - text.length) ++ text

/-- The numeral without trailing zeros in its digits, which are at most `fuel`
many. -/
def trimmed (fuel : Nat) (d : Decimal) : Decimal :=
  match fuel with
  | 0 => d
  | fuel + 1 =>
      if d.digits ≠ 0 ∧ d.digits % 10 = 0 then
        trimmed fuel ⟨d.digits / 10, d.exponent + 1⟩
      else d

/-- Power of ten of the leading digit. -/
def leadingExponent (d : Decimal) : Int :=
  d.exponent + Rounding.log10 d.digits

/-- `n / 10 ^ places` with all its places written; no point if there are none. -/
def placed (places n : Nat) : String :=
  if places = 0 then natText n
  else natText (n / pow10 places) ++ "." ++ padded places (n % pow10 places)

/-- All places spelled out; a whole number has no point. -/
def positional (d : Decimal) : String :=
  if 0 ≤ d.exponent then natText d.digits ++ zeros d.exponent.toNat
  else placed (-d.exponent).toNat d.digits

/-- One leading digit, the others behind a point if there are any, and the power
of ten after `e`. -/
def exponential (d : Decimal) : String :=
  let places := Rounding.log10 d.digits
  placed places d.digits ++ "e" ++ intText (d.leadingExponent)

/-- A quotient to a fixed number of places, a half to the even neighbour. -/
def fixed (places num den : Nat) : String :=
  placed places (Rounding.halfEven (num * pow10 places) den)

/-- A quotient with one leading digit and a fixed number of places, a half to
the even neighbour. -/
def scientific (places num den : Nat) : String :=
  if num = 0 then placed places 0 ++ "e0"
  else
    let lead := Rounding.decimalExponent num den
    let scaled := Rounding.scaleDown num den (lead - places)
    let digits := Rounding.halfEven scaled.1 scaled.2
    if digits = pow10 (places + 1) then
      placed places (pow10 places) ++ "e" ++ intText (lead + 1)
    else placed places digits ++ "e" ++ intText lead

end Decimal

end BranchBound
