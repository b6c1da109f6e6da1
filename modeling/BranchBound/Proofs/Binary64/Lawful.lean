import BranchBound.Proofs.Binary64.IntegerRounding

/-!
# Binary64 scalars are lawful

The 64-bit floats satisfy the laws of `LawfulScalar`.  So what is proved of the search
over lawful scalars holds of the search that is run on floats, rounding included.
-/

namespace BranchBound

namespace Binary64

open Float.Model

theorem rounded_eq_roundExact (a : Exact) : Scalar.rounded Float a = roundExact a := by
  cases a with
  | undefined => rfl
  | infinite negative => rfl
  | finite r =>
      rw [Scalar.rounded, value_eq_floatValue, roundExact]
      exact floatValue_ofRat r

theorem roundExact_floatValue (x : Float) : roundExact (floatValue x) = floatValue x :=
  roundExact_unpackedValue (isStored_unpack x)

/-- The value of a float that a machine operation has packed. -/
theorem floatValue_ofModel_pack {u : UnpackedFloat} (hu : IsRounded u) :
    floatValue (.ofModel (.pack u)) = packedValue u := by
  rw [floatValue_eq_decode, decode_ofModel_pack hu, packedValue]

theorem floatValue_add (x y : Float) :
    floatValue (x + y) = roundExact (floatValue x + floatValue y) := by
  obtain ⟨hrounded, hvalue⟩ := packedValue_add (isStored_unpack x) (isStored_unpack y)
  exact (floatValue_ofModel_pack hrounded).trans hvalue

theorem floatValue_sub (x y : Float) :
    floatValue (x - y) = roundExact (floatValue x - floatValue y) := by
  obtain ⟨hrounded, hvalue⟩ := packedValue_add (isStored_unpack x) (isStored_unpack y).neg
  rw [← sub_eq_add_neg] at hrounded hvalue
  rw [unpackedValue_neg] at hvalue
  exact (floatValue_ofModel_pack hrounded).trans hvalue

theorem floatValue_mul (x y : Float) :
    floatValue (x * y) = roundExact (floatValue x * floatValue y) := by
  obtain ⟨hrounded, hvalue⟩ := packedValue_mul (isStored_unpack x) (isStored_unpack y)
  exact (floatValue_ofModel_pack hrounded).trans hvalue

theorem floatValue_neg (x : Float) : floatValue (-x) = (floatValue x).neg := by
  have hstored := (isStored_unpack x).neg
  calc
    floatValue (-x) = packedValue x.toModel.unpack.neg := floatValue_ofModel_pack hstored.rounded
    _ = unpackedValue x.toModel.unpack.neg := hstored.packedValue_eq
    _ = (floatValue x).neg := unpackedValue_neg _

theorem floatValue_abs (x : Float) : floatValue x.abs = (floatValue x).abs := by
  have hstored := (isStored_unpack x).abs
  calc
    floatValue x.abs = packedValue x.toModel.unpack.abs := floatValue_ofModel_pack hstored.rounded
    _ = unpackedValue x.toModel.unpack.abs := hstored.packedValue_eq
    _ = (floatValue x).abs := unpackedValue_abs _

theorem floatValue_ofInt {n : ℤ} (hn : n.natAbs ≤ 2 ^ 53) :
    floatValue (ofRat n) = .finite n := by
  have hsign : withSign (decide (n < 0)) n.natAbs = n := by
    by_cases hneg : n < 0
    · simp [withSign, hneg, Nat.cast_natAbs, abs_of_neg hneg]
    · simp [withSign, hneg, Nat.cast_natAbs, abs_of_nonneg (not_lt.mp hneg)]
  rw [ofRat, Rat.num_intCast, Rat.den_intCast, floatValue_ofQuotient_one _ hn, hsign]

theorem floatValue_ofFields_infinite : floatValue (ofFields false 2047 0) = .infinite false := by
  rw [floatValue_eq_decode, decode_ofFields (by decide) (by decide)]
  rfl

/-- What has a rational value is a number. -/
theorem isNaN_of_toRat? {x : Float} {r : ℚ} (h : toRat? x = some r) : x.isNaN = false := by
  rw [← Bool.not_eq_true, isNaN_iff_decode]
  intro hnan
  simp [toRat?, hnan] at h

end Binary64

open Binary64

instance instLawfulScalarFloat : LawfulScalar Float where
  isNaN_of_toRat? h := Binary64.isNaN_of_toRat? h
  le_iff_value x y := by
    rw [value_eq_floatValue, value_eq_floatValue]
    exact le_iff_floatValue x y
  lt_iff_value x y := by
    rw [value_eq_floatValue, value_eq_floatValue]
    exact lt_iff_floatValue x y
  value_posInf := by
    rw [value_eq_floatValue]
    exact floatValue_ofFields_infinite
  value_ofInt n hn := by
    rw [value_eq_floatValue]
    exact floatValue_ofInt hn
  value_neg x := by
    rw [value_eq_floatValue, value_eq_floatValue]
    exact floatValue_neg x
  value_abs x := by
    rw [value_eq_floatValue, value_eq_floatValue]
    exact floatValue_abs x
  value_floor x := by
    rw [value_eq_floatValue, value_eq_floatValue]
    exact floatValue_floor x
  value_ceil x := by
    rw [value_eq_floatValue, value_eq_floatValue]
    exact floatValue_ceil x
  value_round x := by
    rw [value_eq_floatValue, value_eq_floatValue]
    exact floatValue_round x
  rounded_mono h := by
    rw [rounded_eq_roundExact, rounded_eq_roundExact]
    exact saturate_mono (roundSigned_mono h)
  rounded_value x := by
    rw [rounded_eq_roundExact, value_eq_floatValue]
    exact roundExact_floatValue x
  value_add x y := by
    rw [rounded_eq_roundExact, value_eq_floatValue, value_eq_floatValue, value_eq_floatValue]
    exact floatValue_add x y
  value_sub x y := by
    rw [rounded_eq_roundExact, value_eq_floatValue, value_eq_floatValue, value_eq_floatValue]
    exact floatValue_sub x y
  value_mul x y := by
    rw [rounded_eq_roundExact, value_eq_floatValue, value_eq_floatValue, value_eq_floatValue]
    exact floatValue_mul x y
  value_sub_round x := by
    rw [value_eq_floatValue, value_eq_floatValue, value_eq_floatValue]
    exact (floatValue_sub x (Binary64.round x)).trans (roundExact_sub_round x)
  order_of_lt h := Int.compare_eq_lt.mpr (rank_lt_of_lt h)
  order_swap x y := Int.compare_swap _ _
  order_trans hxy hyz :=
    Int.isLE_compare.mpr ((Int.isLE_compare.mp hxy).trans (Int.isLE_compare.mp hyz))

end BranchBound
