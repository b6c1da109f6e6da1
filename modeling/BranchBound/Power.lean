/-!
# Powers

Powers of the two bases in use: two for word sizes and binary fractions, ten for
decimal places.
-/

namespace BranchBound

/-- Two to the power of `k`. -/
def pow2 (k : Nat) : Nat :=
  Nat.pow 2 k

/-- Ten to the power of `k`. -/
def pow10 (k : Nat) : Nat :=
  Nat.pow 10 k

end BranchBound
