import BranchBound.Binary64

/-!
# Reading decimals

The binary64 number nearest a decimal numeral: an optional sign, digits with at
most one point and at least one digit, and an optional exponent; or the words for
infinity and for what is not a number, in any case.
-/

namespace BranchBound.Decimal

/-- Decimal digits. -/
def isDigit (c : Char) : Bool :=
  decide ('0' ≤ c ∧ c ≤ '9')

/-- Value of decimal digits. -/
def digitsValue (digits : List Char) : Nat :=
  digits.foldl (fun n c => 10 * n + (c.toNat - '0'.toNat)) 0

/-- A sign and what follows it; true for minus. -/
def splitSign : List Char → Bool × List Char
  | '-' :: rest => (true, rest)
  | '+' :: rest => (false, rest)
  | cs => (false, cs)

/-- The exponent at the end of a numeral, zero if there is none. -/
def exponent? : List Char → Option Int
  | [] => some 0
  | c :: rest =>
      if c == 'e' || c == 'E' then
        let (minus, digits) := splitSign rest
        if digits.isEmpty || !digits.all isDigit then none
        else some (if minus then -(digitsValue digits : Int) else digitsValue digits)
      else none

/-- The float nearest `± digits * 10 ^ e`.  Exponents far outside the range are
settled without computing the power. -/
def nearest (negative : Bool) (digits : List Char) (e : Int) : Float :=
  let significant := digits.dropWhile (· == '0')
  let top := (significant.length : Int) + e
  if significant.isEmpty || top < -400 then Binary64.ofFields negative 0 0
  else if 400 < top then Binary64.ofFields negative 2047 0
  else
    let n := digitsValue significant
    if 0 ≤ e then Binary64.ofQuotient negative (n * pow10 e.toNat) 1
    else Binary64.ofQuotient negative n (pow10 (-e).toNat)

/-- The finite number of a numeral without sign. -/
def magnitude? (negative : Bool) (cs : List Char) : Option Float :=
  let whole := cs.takeWhile isDigit
  let rest := cs.dropWhile isDigit
  let (fraction, rest) :=
    match rest with
    | '.' :: behind => (behind.takeWhile isDigit, behind.dropWhile isDigit)
    | _ => ([], rest)
  if whole.isEmpty && fraction.isEmpty then none
  else
    match exponent? rest with
    | none => none
    | some e => some (nearest negative (whole ++ fraction) (e - fraction.length))

/-- The number a text denotes. -/
def read? (text : String) : Option Float :=
  let (negative, cs) := splitSign text.toList
  let word := String.ofList (cs.map Char.toLower)
  if word == "inf" || word == "infinity" then some (Binary64.ofFields negative 2047 0)
  else if word == "nan" then some (Binary64.ofFields false 2047 1)
  else magnitude? negative cs

end BranchBound.Decimal
