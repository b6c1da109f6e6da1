import BranchBound.Decimal.Shortest

/-!
# Printed numbers

How numbers appear in messages, tables and files.  Three notations are in use:
the shortest digits that read back, a fixed number of places, and one leading
digit with a fixed number of places and an exponent.
-/

namespace BranchBound

/-- Numbers that can be written as text. -/
class Printable (α : Type) where
  /-- Shortest digits, never an exponent, whole numbers without a point. -/
  plain : α → String
  /-- Shortest digits, always with a point or an exponent. -/
  general : α → String
  /-- A fixed number of places. -/
  fixed : Nat → α → String
  /-- One leading digit, a fixed number of places and an exponent. -/
  scientific : Nat → α → String

/-- Which powers of ten of the leading digit are written without an exponent. -/
structure PositionalRange where
  /-- Least power of ten. -/
  least : Int
  /-- Greatest power of ten. -/
  greatest : Int

namespace PositionalRange

/-- Messages spell out numbers from `10 ^ -4` to below `10 ^ 16`. -/
def message : PositionalRange := ⟨-4, 15⟩

/-- Files spell out numbers from `10 ^ -5` to below `10 ^ 16`. -/
def file : PositionalRange := ⟨-5, 15⟩

/-- Whether a numeral is written without an exponent. -/
def covers (range : PositionalRange) (d : Decimal) : Bool :=
  decide (range.least ≤ d.leadingExponent ∧ d.leadingExponent ≤ range.greatest)

end PositionalRange

namespace Binary64

/-- A minus sign in front of negative numbers, negative zero included. -/
def signed (negative : Bool) (text : String) : String :=
  if negative then "-" ++ text else text

/-- Text of a float from a printer of finite magnitudes. -/
def printWith (finiteText : Nat → Int → String) (x : Float) : String :=
  match decode x with
  | nan => "NaN"
  | infinite negative => signed negative "inf"
  | finite negative significand exponent =>
      signed negative (finiteText significand exponent)

/-- Shortest digits, never an exponent. -/
def plain : Float → String :=
  printWith fun significand exponent =>
    if significand = 0 then "0" else (Decimal.shortest significand exponent).positional

/-- Shortest digits with a point, or with an exponent outside the range. -/
def general (range : PositionalRange) : Float → String :=
  printWith fun significand exponent =>
    if significand = 0 then "0.0"
    else
      let d := Decimal.shortest significand exponent
      if range.covers d then
        if 0 ≤ d.exponent then d.positional ++ ".0" else d.positional
      else d.exponential

/-- The magnitude of a finite float as a quotient. -/
def quotient (significand : Nat) (exponent : Int) : Nat × Nat :=
  (significand * pow2 exponent.toNat, pow2 (-exponent).toNat)

/-- A fixed number of places, a half to the even neighbour. -/
def fixed (places : Nat) : Float → String :=
  printWith fun significand exponent =>
    let q := quotient significand exponent
    Decimal.fixed places q.1 q.2

/-- One leading digit, a fixed number of places and an exponent. -/
def scientific (places : Nat) : Float → String :=
  printWith fun significand exponent =>
    let q := quotient significand exponent
    Decimal.scientific places q.1 q.2

end Binary64

instance instPrintableFloat : Printable Float where
  plain := Binary64.plain
  general := Binary64.general .message
  fixed := Binary64.fixed
  scientific := Binary64.scientific

end BranchBound
