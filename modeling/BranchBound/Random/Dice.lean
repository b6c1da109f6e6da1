import BranchBound.Random.WordStream
import BranchBound.Scalar

/-!
# Dice

What a generator of instances asks of chance: a number below a bound, and an
event of some probability.  `Dice` is that interface for any source of state `σ`;
`WordStream.dice` draws from a word stream.
-/

namespace BranchBound

/-- A source of chance with state `σ`. -/
structure Dice (σ α : Type) where
  /-- A small number below a positive bound. -/
  small : Nat → σ → Nat × σ
  /-- An index below a positive bound. -/
  index : Nat → σ → Nat × σ
  /-- Whether an event of some probability happens; none if it is no
  probability. -/
  event : α → σ → Option (Bool × σ)

namespace WordStream

/-- Draws before a number is taken as it is. -/
def maxAttempts : Nat := 4096

/-- A number below `bound` from draws of `bits` bits.  A draw is multiplied by the
bound; the high half is the number, and the low half decides whether the draw is
fair: it must not exceed the bound's multiple of full length. -/
def uniform (bits : Nat) (draw : WordStream → Nat × WordStream) (bound : Nat) :
    (attempts : Nat) → WordStream → Nat × WordStream
  | 0, s =>
      let (v, rest) := draw s
      (v * bound / pow2 bits, rest)
  | attempts + 1, s =>
      let (v, rest) := draw s
      let zone := bound * pow2 (bits - 1 - Nat.log2 bound) - 1
      if v * bound % pow2 bits ≤ zone then (v * bound / pow2 bits, rest)
      else uniform bits draw bound attempts rest

/-- Whether an event happens.  A certain one needs no draw; any other happens if a
64-bit draw is below the probability's share of the range. -/
def event {α : Type} [Scalar α] (probability : α) (s : WordStream) :
    Option (Bool × WordStream) :=
  match Scalar.toRat? probability with
  | none => none
  | some p =>
      if p = 1 then some (true, s)
      else if 0 ≤ p ∧ p < 1 then
        let (v, rest) := s.next64
        some (decide (v < (p.num.toNat * pow2 64) / p.den), rest)
      else none

/-- Dice that draw from a word stream. -/
def dice {α : Type} [Scalar α] : Dice WordStream α where
  small bound := uniform 32 next32 bound maxAttempts
  index bound := uniform 64 next64 bound maxAttempts
  event := event

end WordStream

end BranchBound
