import BranchBound.Power

/-!
# Rounding a quotient

One rule for turning an exact quotient of natural numbers into a natural
number, used wherever an exact value is written with fewer digits.
-/

namespace BranchBound.Rounding

/-- `num / den` to the nearest natural number; a half goes to the even
neighbour. -/
def halfEven (num den : Nat) : Nat :=
  let quotient := num / den
  let twice := 2 * (num % den)
  if den < twice ∨ (twice = den ∧ quotient % 2 = 1) then quotient + 1 else quotient

/-- `num / den` rounded up. -/
def ceilDiv (num den : Nat) : Nat :=
  (num + den - 1) / den

/-- The greatest `e` with `10 ^ e ≤ n`, for positive `n`. -/
def log10 (n : Nat) : Nat :=
  (Nat.toDigits 10 n).length - 1

/-- The least `e` with `n ≤ 10 ^ e`, for positive `n`. -/
def clog10 (n : Nat) : Nat :=
  if n ≤ 1 then 0 else log10 (n - 1) + 1

/-- The exponent `e` with `10 ^ e ≤ num / den < 10 ^ (e + 1)`, for a positive
quotient. -/
def decimalExponent (num den : Nat) : Int :=
  if den ≤ num then Int.ofNat (log10 (num / den))
  else Int.negOfNat (clog10 (ceilDiv den num))

/-- `num / den / 10 ^ e` as a quotient of natural numbers. -/
def scaleDown (num den : Nat) (e : Int) : Nat × Nat :=
  if 0 ≤ e then (num, den * pow10 e.toNat) else (num * pow10 (-e).toNat, den)

end BranchBound.Rounding
