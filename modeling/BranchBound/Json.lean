import BranchBound.Printable

/-!
# JSON values

Values of the JSON data format as they are written: a number keeps its digits, and
an object keeps its members in order, repeated names included.  A string whose
escapes denote no text (half a surrogate pair) is kept as such, since a reader
that skips it need not look into it.
-/

namespace BranchBound

/-- A number as it is written. -/
structure Numeral where
  /-- Whether a minus sign leads. -/
  negative : Bool
  /-- Digits before the point. -/
  whole : List Char
  /-- Digits behind the point; none means no point. -/
  fraction : List Char
  /-- Sign (true for minus) and digits of the exponent. -/
  exponent : Option (Bool × List Char)
deriving DecidableEq, Repr

/-- A JSON value. -/
inductive Json where
  /-- The value `null`. -/
  | null
  /-- A truth value. -/
  | bool (b : Bool)
  /-- A number. -/
  | number (n : Numeral)
  /-- A string; none if its escapes denote no text. -/
  | string (text : Option String)
  /-- An array. -/
  | array (items : List Json)
  /-- An object. -/
  | object (members : List (Option String × Json))
deriving Repr

namespace Numeral

/-- Value of a decimal digit. -/
def digitValue (c : Char) : Nat :=
  c.toNat - '0'.toNat

/-- Value of decimal digits. -/
def natValue (digits : List Char) : Nat :=
  digits.foldl (fun n c => 10 * n + digitValue c) 0

/-- A natural number. -/
def ofNat (n : Nat) : Numeral :=
  { negative := false, whole := Nat.toDigits 10 n, fraction := [], exponent := none }

/-- Whether there is neither a point nor an exponent. -/
def isInteger (n : Numeral) : Bool :=
  n.fraction.isEmpty && n.exponent.isNone

/-- The numeral as text. -/
def text (n : Numeral) : String :=
  let sign := if n.negative then "-" else ""
  let point := if n.fraction.isEmpty then "" else "." ++ String.ofList n.fraction
  let power :=
    match n.exponent with
    | none => ""
    | some (minus, digits) => "e" ++ (if minus then "-" else "") ++ String.ofList digits
  sign ++ String.ofList n.whole ++ point ++ power

/-- Leading digits of a numeral that fit into 64 bits, the digits left over
before the point, and whether any were left over. -/
def takeWhole : List Char → Nat → Nat × Nat
  | [], kept => (kept, 0)
  | c :: rest, kept =>
      let next := 10 * kept + digitValue c
      if next < pow2 64 then takeWhole rest next else (kept, rest.length + 1)

/-- Go on with the digits behind the point as long as they fit; also count
them. -/
def takeFraction : List Char → Nat → Nat → Nat × Nat
  | [], kept, count => (kept, count)
  | c :: rest, kept, count =>
      let next := 10 * kept + digitValue c
      if next < pow2 64 then takeFraction rest next (count + 1) else (kept, count)

/-- The float `10 ^ k`, for `k` up to 308. -/
def powerOfTen (k : Nat) : Float :=
  Float.ofScientific 1 false k

/-- A float divided by `10 ^ k`, in steps of at most 308 places. -/
def shrink (x : Float) (k : Nat) : Float :=
  if k ≤ 308 then x / powerOfTen k
  else if x == 0 then x
  else shrink (x / powerOfTen 308) (k - 308)
termination_by k

/-- A float scaled by a power of ten, if the result is finite. -/
def scale? (x : Float) (e : Int) : Option Float :=
  if e < 0 then some (shrink x e.natAbs)
  else if 308 < e then if x == 0 then some x else none
  else
    let scaled := x * powerOfTen e.toNat
    if scaled.isInf then none else some scaled

/-- The value of an exponent; none if it leaves 32 bits. -/
def exponentValue? (minus : Bool) (digits : List Char) : Option Int :=
  let size := natValue digits
  if size < pow2 31 then some (if minus then -(size : Int) else size) else none

/-- Magnitude as a float: the leading digits as an integer, scaled once by a power
of ten.  Values beyond the range have none. -/
def magnitude? (n : Numeral) : Option Float :=
  let (whole, dropped) := takeWhole n.whole 0
  if n.isInteger && dropped == 0 then some (Float.ofNat whole)
  else
    let (kept, places) := takeFraction n.fraction whole 0
    let start : Int := (dropped : Int) - places
    match n.exponent with
    | none => scale? (Float.ofNat kept) start
    | some (minus, digits) =>
        match exponentValue? minus digits with
        | some e => scale? (Float.ofNat kept) (start + e)
        | none => if kept ≠ 0 ∧ !minus then none else some 0

/-- The float a numeral denotes, if it is within the range. -/
def toFloat? (n : Numeral) : Option Float :=
  n.magnitude?.map fun x => if n.negative then -x else x

/-- The unsigned 64-bit integer a numeral denotes, if it does. -/
def toNat? (n : Numeral) : Option Nat :=
  if n.isInteger && !n.negative && decide (natValue n.whole < pow2 64) then
    some (natValue n.whole)
  else none

/-- The integer a numeral denotes, if it does. -/
def toInt? (n : Numeral) : Option Int :=
  if n.isInteger then
    some (if n.negative then -(natValue n.whole : Int) else natValue n.whole)
  else none

/-- The shortest numeral that reads back as `significand * 2 ^ exponent`, always
with a point or an exponent. -/
def ofParts (negative : Bool) (significand : Nat) (exponent : Int) : Numeral :=
  if significand = 0 then
    { negative, whole := ['0'], fraction := ['0'], exponent := none }
  else
    let d := Decimal.shortest significand exponent
    let digits := Nat.toDigits 10 d.digits
    if PositionalRange.file.covers d then
      if 0 ≤ d.exponent then
        { negative
          whole := digits ++ List.replicate d.exponent.toNat '0'
          fraction := ['0']
          exponent := none }
      else
        let places := (-d.exponent).toNat
        let filled := List.replicate (places + 1 - digits.length) '0' ++ digits
        { negative
          whole := filled.take (filled.length - places)
          fraction := filled.drop (filled.length - places)
          exponent := none }
    else
      let power := d.leadingExponent
      { negative
        whole := digits.take 1
        fraction := digits.drop 1
        exponent := some (decide (power < 0), Nat.toDigits 10 power.natAbs) }

end Numeral

namespace Json

/-- A text. -/
def ofString (s : String) : Json :=
  .string (some s)

/-- A natural number. -/
def ofNat (n : Nat) : Json :=
  .number (.ofNat n)

/-- A float; what is not finite is `null`. -/
def ofFloat (x : Float) : Json :=
  match Binary64.decode x with
  | .finite negative significand exponent =>
      .number (.ofParts negative significand exponent)
  | _ => .null

/-- A value that may be missing. -/
def ofOption {β : Type} (f : β → Json) : Option β → Json
  | some b => f b
  | none => .null

/-- An object with named members. -/
def record (members : List (String × Json)) : Json :=
  .object (members.map fun member => (some member.1, member.2))

end Json

end BranchBound
