import BranchBound.Json

/-!
# Reading JSON

A recursive-descent reader for one JSON text.  It accepts exactly the grammar of
the format: blanks are space, tab and line ends, no control character stands in a
string, a number has no superfluous leading zero, and nothing but blanks follows
the value.

The readers return what is left of the input.  Their fuel bounds the number of
calls; every second call consumes a character, so twice the length of the text is
enough.
-/

namespace BranchBound.Json

/-- Blanks between tokens. -/
def isBlank (c : Char) : Bool :=
  c == ' ' || c == '\n' || c == '\t' || c == '\r'

/-- Drop leading blanks. -/
def skipBlanks (cs : List Char) : List Char :=
  cs.dropWhile isBlank

/-- Decimal digits. -/
def isDigit (c : Char) : Bool :=
  decide ('0' ≤ c ∧ c ≤ '9')

/-- Value of a hexadecimal digit. -/
def hexValue? (c : Char) : Option Nat :=
  if isDigit c then some (c.toNat - '0'.toNat)
  else if 'a' ≤ c ∧ c ≤ 'f' then some (c.toNat - 'a'.toNat + 10)
  else if 'A' ≤ c ∧ c ≤ 'F' then some (c.toNat - 'A'.toNat + 10)
  else none

/-- Value of four hexadecimal digits. -/
def hex4? (a b c d : Char) : Option Nat := do
  return (((← hexValue? a) * 16 + (← hexValue? b)) * 16 + (← hexValue? c)) * 16 +
    (← hexValue? d)

/-- The character of a one-letter escape. -/
def simpleEscape? : Char → Option Char
  | '"' => some '"'
  | '\\' => some '\\'
  | '/' => some '/'
  | 'b' => some '\x08'
  | 'f' => some '\x0c'
  | 'n' => some '\n'
  | 'r' => some '\r'
  | 't' => some '\t'
  | _ => none

/-- A string under construction. -/
structure StringPart where
  /-- Characters so far, last one first. -/
  chars : List Char := []
  /-- First half of a surrogate pair that waits for the second. -/
  pending : Option Nat := none
  /-- Whether half a pair stood alone. -/
  broken : Bool := false

namespace StringPart

/-- Add a character. -/
def push (p : StringPart) (c : Char) : StringPart :=
  { chars := c :: p.chars, pending := none, broken := p.broken || p.pending.isSome }

/-- Add a 16-bit unit. -/
def pushUnit (p : StringPart) (unit : Nat) : StringPart :=
  if 0xDC00 ≤ unit ∧ unit < 0xE000 then
    match p.pending with
    | some high =>
        { p with
          chars := Char.ofNat (0x10000 + (high - 0xD800) * 0x400 + (unit - 0xDC00)) :: p.chars
          pending := none }
    | none => { p with broken := true }
  else if 0xD800 ≤ unit ∧ unit < 0xDC00 then
    { p with pending := some unit, broken := p.broken || p.pending.isSome }
  else p.push (Char.ofNat unit)

/-- The text, if the escapes denote one. -/
def finish (p : StringPart) : Option String :=
  if p.broken || p.pending.isSome then none else some (String.ofList p.chars.reverse)

end StringPart

/-- Read a string behind its opening quote. -/
def readString : List Char → StringPart → Option (Option String × List Char)
  | [], _ => none
  | '"' :: rest, part => some (part.finish, rest)
  | '\\' :: 'u' :: a :: b :: c :: d :: rest, part =>
      match hex4? a b c d with
      | some unit => readString rest (part.pushUnit unit)
      | none => none
  | '\\' :: e :: rest, part =>
      match simpleEscape? e with
      | some c => readString rest (part.push c)
      | none => none
  | c :: rest, part =>
      if c.toNat < 0x20 || c == '\\' then none else readString rest (part.push c)

/-- Read the digits behind a point, if there is a point. -/
def readFraction : List Char → Option (List Char × List Char)
  | '.' :: rest =>
      match rest.takeWhile isDigit with
      | [] => none
      | digits => some (digits, rest.dropWhile isDigit)
  | cs => some ([], cs)

/-- Read the digits of an exponent. -/
def readExponentDigits (minus : Bool) (cs : List Char) :
    Option (Option (Bool × List Char) × List Char) :=
  match cs.takeWhile isDigit with
  | [] => none
  | digits => some (some (minus, digits), cs.dropWhile isDigit)

/-- Read an exponent, if there is one. -/
def readExponent : List Char → Option (Option (Bool × List Char) × List Char)
  | [] => some (none, [])
  | c :: rest =>
      if c == 'e' || c == 'E' then
        match rest with
        | '+' :: digits => readExponentDigits false digits
        | '-' :: digits => readExponentDigits true digits
        | digits => readExponentDigits false digits
      else some (none, c :: rest)

/-- Read a number without its sign. -/
def readMagnitude (negative : Bool) (cs : List Char) : Option (Numeral × List Char) := do
  let whole := cs.takeWhile isDigit
  if whole.isEmpty || (whole.head? == some '0' && whole.length != 1) then none
  else
    let (fraction, rest) ← readFraction (cs.dropWhile isDigit)
    let (exponent, rest) ← readExponent rest
    return ({ negative, whole, fraction, exponent }, rest)

/-- Read a number. -/
def readNumber : List Char → Option (Numeral × List Char)
  | '-' :: rest => readMagnitude true rest
  | cs => readMagnitude false cs

mutual

/-- Read a value; blanks may lead. -/
def readValue : (fuel : Nat) → List Char → Option (Json × List Char)
  | 0, _ => none
  | fuel + 1, cs =>
      match skipBlanks cs with
      | 'n' :: 'u' :: 'l' :: 'l' :: rest => some (.null, rest)
      | 't' :: 'r' :: 'u' :: 'e' :: rest => some (.bool true, rest)
      | 'f' :: 'a' :: 'l' :: 's' :: 'e' :: rest => some (.bool false, rest)
      | '"' :: rest => do
          let (text, rest) ← readString rest {}
          return (.string text, rest)
      | '[' :: rest =>
          match skipBlanks rest with
          | ']' :: rest => some (.array [], rest)
          | rest => do
              let (items, rest) ← readItems fuel rest
              return (.array items, rest)
      | '\x7b' :: rest =>
          match skipBlanks rest with
          | '\x7d' :: rest => some (.object [], rest)
          | rest => do
              let (members, rest) ← readMembers fuel rest
              return (.object members, rest)
      | cs => do
          let (n, rest) ← readNumber cs
          return (.number n, rest)

/-- Read the items of an array up to its end. -/
def readItems : (fuel : Nat) → List Char → Option (List Json × List Char)
  | 0, _ => none
  | fuel + 1, cs => do
      let (item, rest) ← readValue fuel cs
      match skipBlanks rest with
      | ',' :: rest =>
          let (items, rest) ← readItems fuel rest
          return (item :: items, rest)
      | ']' :: rest => return ([item], rest)
      | _ => none

/-- Read the members of an object up to its end. -/
def readMembers : (fuel : Nat) → List Char → Option (List (Option String × Json) × List Char)
  | 0, _ => none
  | fuel + 1, cs =>
      match skipBlanks cs with
      | '"' :: rest => do
          let (name, rest) ← readString rest {}
          match skipBlanks rest with
          | ':' :: rest =>
              let (value, rest) ← readValue fuel rest
              match skipBlanks rest with
              | ',' :: rest =>
                  let (members, rest) ← readMembers fuel rest
                  return ((name, value) :: members, rest)
              | '\x7d' :: rest => return ([(name, value)], rest)
              | _ => none
          | _ => none
      | _ => none

end

/-- Read a whole text. -/
def read? (text : String) : Option Json := do
  let cs := text.toList
  let (value, rest) ← readValue (2 * cs.length + 2) cs
  if (skipBlanks rest).isEmpty then some value else none

end BranchBound.Json
