import BranchBound.Power

/-!
# Word streams

A stream of 32-bit words that is determined by a 64-bit seed.  The seed is spread
over eight key words; the stream is the ChaCha key stream of that key with twelve
rounds, block after block.
-/

namespace BranchBound

/-- A stream of words at some position. -/
structure WordStream where
  /-- Key words. -/
  key : List UInt32
  /-- Number of the next block. -/
  block : Nat
  /-- Words of the current block that are left. -/
  buffer : List UInt32
deriving DecidableEq, Repr

namespace WordStream

/-- The sixteen words a block is computed from. -/
abbrev Block := Vector UInt32 16

/-- Rotate a word to the left. -/
def rotateLeft (x : UInt32) (n : UInt32) : UInt32 :=
  (x <<< n) ||| (x >>> (32 - n))

/-- Add word `b` to word `a`, and mix the sum into word `d`, rotated. -/
def mix (s : Block) (a b d : Fin 16) (n : UInt32) : Block :=
  let sum := s.get a + s.get b
  let added := s.set a.val sum a.isLt
  added.set d.val (rotateLeft (added.get d ^^^ sum) n) d.isLt

/-- A quarter round. -/
def quarterRound (s : Block) (a b c d : Fin 16) : Block :=
  mix (mix (mix (mix s a b d 16) c d b 12) a b d 8) c d b 7

/-- Four rounds on the columns and four on the diagonals. -/
def doubleRound (s : Block) : Block :=
  let s := quarterRound s 0 4 8 12
  let s := quarterRound s 1 5 9 13
  let s := quarterRound s 2 6 10 14
  let s := quarterRound s 3 7 11 15
  let s := quarterRound s 0 5 10 15
  let s := quarterRound s 1 6 11 12
  let s := quarterRound s 2 7 8 13
  quarterRound s 3 4 9 14

/-- Number of double rounds. -/
def doubleRounds : Nat := 6

/-- The block constants: the bytes of `expand 32-byte k`. -/
def constants : List UInt32 :=
  [0x61707865, 0x3320646e, 0x79622d32, 0x6b206574]

/-- The words block `n` is computed from: constants, key, counter, and no nonce. -/
def blockInput (key : List UInt32) (n : Nat) : Block :=
  let words := constants ++ key ++
    [UInt32.ofNat n, UInt32.ofNat (n / pow2 32), 0, 0]
  Vector.ofFn fun i => words.getD i.val 0

/-- The words of block `n`. -/
def blockOutput (key : List UInt32) (n : Nat) : List UInt32 :=
  let input := blockInput key n
  let output := Nat.repeat doubleRound doubleRounds input
  (Vector.zipWith (· + ·) output input).toList

/-- Step of the generator that spreads a seed. -/
def seedStep (s : UInt64) : UInt64 :=
  s * 6364136223846793005 + 11634580027462260723

/-- Key word of a state of that generator: its high bits, mixed and rotated to the
right by its top five bits. -/
def seedWord (s : UInt64) : UInt32 :=
  let mixed := (((s >>> 18) ^^^ s) >>> 27).toUInt32
  let turn := (s >>> 59).toUInt32
  (mixed >>> turn) ||| (mixed <<< ((32 - turn) % 32))

/-- The next `count` key words. -/
def keyWords : (count : Nat) → UInt64 → List UInt32
  | 0, _ => []
  | count + 1, s =>
      let next := seedStep s
      seedWord next :: keyWords count next

/-- The stream of a seed. -/
def ofSeed (seed : Nat) : WordStream :=
  { key := keyWords 8 (UInt64.ofNat seed), block := 0, buffer := [] }

/-- The next word. -/
def next (s : WordStream) : UInt32 × WordStream :=
  match s.buffer with
  | word :: rest => (word, { s with buffer := rest })
  | [] =>
      match blockOutput s.key s.block with
      | word :: rest => (word, { s with block := s.block + 1, buffer := rest })
      | [] => (0, s)

/-- The next 32 bits as a number. -/
def next32 (s : WordStream) : Nat × WordStream :=
  let (word, rest) := s.next
  (word.toNat, rest)

/-- The next 64 bits as a number, low word first. -/
def next64 (s : WordStream) : Nat × WordStream :=
  let (low, rest) := s.next32
  let (high, rest) := rest.next32
  (low + pow2 32 * high, rest)

end WordStream

end BranchBound
