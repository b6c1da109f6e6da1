import BranchBound.Proofs.Binary64.MachineRounding
import BranchBound.Proofs.ExactLawful

/-!
# Machine operations

Sums, differences and products of floats are the exact ones, rounded; negation and
magnitude are exact.
-/

namespace BranchBound.Binary64

open Float.Model

/-- An unpacked float that is stored as it is. -/
structure IsStored (u : UnpackedFloat) : Prop where
  rounded : IsRounded u
  fits : clip u = u

/-- The exact scalar that an unpacked float stands for. -/
def unpackedValue (u : UnpackedFloat) : Exact :=
  exactValue (ofUnpacked u)

/-- An exact scalar as a float can express it. -/
def roundExact : Exact → Exact
  | .finite r => saturate (roundSigned r)
  | a => a

theorem isStored_unpack (x : Float) : IsStored x.toModel.unpack :=
  ⟨(isRounded_unpack _).1, (isRounded_unpack _).2⟩

theorem IsStored.packedValue_eq {u : UnpackedFloat} (h : IsStored u) :
    packedValue u = unpackedValue u := by
  rw [packedValue, h.fits]
  rfl

theorem unpackedValue_zero (s : UnpackedFloat.Sign) :
    unpackedValue (.zero s) = .finite 0 := by
  change Exact.finite (withSign _ ((0 : ℕ) * 2 ^ minExponent)) = _
  rw [Nat.cast_zero, zero_mul, withSign_zero]

theorem unpackedValue_finite (s : UnpackedFloat.Sign) (m : ℕ) (e : ℤ) (hm : 0 < m) :
    unpackedValue (.finite s m e hm) = .finite (withSign (isNegative s) (m * 2 ^ e)) :=
  rfl

theorem IsStored.isCanonical {s : UnpackedFloat.Sign} {m : ℕ} {e : ℤ} {hm : 0 < m}
    (h : IsStored (.finite s m e hm)) : IsCanonical m e ∧ e ≤ 971 := by
  refine ⟨h.rounded, ?_⟩
  by_contra hlarge
  have hfits := h.fits
  rw [clip, if_pos (by omega)] at hfits
  cases hfits

/-- What is stored as a float is not changed by rounding. -/
theorem roundExact_unpackedValue {u : UnpackedFloat} (h : IsStored u) :
    roundExact (unpackedValue u) = unpackedValue u := by
  cases u with
  | notANumber => rfl
  | infinity s => rfl
  | zero s =>
      rw [unpackedValue_zero, roundExact, roundSigned, if_neg (lt_irrefl 0),
        roundPlace_of_mul (n := 0) (by simp),
        saturate_of_lt (by simp [overflow_pos]) overflow_pos]
  | finite s m e hm =>
      obtain ⟨hcanonical, hle⟩ := h.isCanonical
      rw [unpackedValue_finite, roundExact, roundSigned_withSign _ (by positivity),
        roundPlace_eq_self rfl hcanonical.lt hcanonical.le,
        saturate_withSign_of_lt _ (by positivity) (hcanonical.lt_overflow_iff.mpr hle)]

theorem withSign_apply (s : UnpackedFloat.Sign) (m : ℕ) :
    ((s.apply m : ℤ) : ℚ) = withSign (isNegative s) m := by
  cases s <;> simp [UnpackedFloat.Sign.apply, withSign, isNegative]

theorem withSign_mul (negative : Bool) (q r : ℚ) :
    withSign negative q * r = withSign negative (q * r) := by
  cases negative <;> simp [withSign]

/-- The sum of two finite floats is the exact sum, rounded. -/
theorem packedValue_add_finite (s s' : UnpackedFloat.Sign) {m m' : ℕ} (hm : 0 < m) (hm' : 0 < m')
    (e e' : ℤ) :
    IsRounded (UnpackedFloat.add Format.binary64 (.finite s m e hm) (.finite s' m' e' hm')) ∧
      packedValue (UnpackedFloat.add Format.binary64 (.finite s m e hm) (.finite s' m' e' hm')) =
        roundExact (unpackedValue (.finite s m e hm) + unpackedValue (.finite s' m' e' hm')) := by
  obtain ⟨hvalue, hexponent⟩ := decreaseExponent_eq m e (min e e')
  obtain ⟨hvalue', hexponent'⟩ := decreaseExponent_eq m' e' (min e e')
  rw [hexponent, min_eq_right (min_le_left e e')] at hvalue
  rw [hexponent', min_eq_right (min_le_right e e')] at hvalue'
  have hsum : (((s.apply (UnpackedFloat.decreaseExponent m e (min e e')).1 +
      s'.apply (UnpackedFloat.decreaseExponent m' e' (min e e')).1 : ℤ)) : ℚ) *
      2 ^ min e e' =
      withSign (isNegative s) (m * 2 ^ e) + withSign (isNegative s') (m' * 2 ^ e') := by
    rw [Int.cast_add, add_mul, withSign_apply, withSign_apply, withSign_mul,
      withSign_mul, hvalue, hvalue']
  rw [unpackedValue_finite, unpackedValue_finite, Exact.finite_add_finite, roundExact,
    ← hsum]
  exact packedValue_normalize _ _ _

/-- The sum of two stored floats is the exact sum, rounded. -/
theorem packedValue_add {u v : UnpackedFloat} (hu : IsStored u) (hv : IsStored v) :
    IsRounded (UnpackedFloat.add Format.binary64 u v) ∧
      packedValue (UnpackedFloat.add Format.binary64 u v) =
        roundExact (unpackedValue u + unpackedValue v) := by
  cases u with
  | notANumber => exact ⟨trivial, rfl⟩
  | infinity s =>
      cases v with
      | notANumber => exact ⟨trivial, rfl⟩
      | infinity s' => cases s <;> cases s' <;> exact ⟨trivial, rfl⟩
      | zero s' => exact ⟨trivial, rfl⟩
      | finite s' m' e' hm' => exact ⟨trivial, rfl⟩
  | zero s =>
      cases v with
      | notANumber => exact ⟨trivial, rfl⟩
      | infinity s' => exact ⟨trivial, rfl⟩
      | zero s' =>
          have hsum : unpackedValue (.zero s) + unpackedValue (.zero s') =
              unpackedValue (.zero s) := by
            rw [unpackedValue_zero, unpackedValue_zero, Exact.finite_add_finite, add_zero]
          rw [hsum, roundExact_unpackedValue hu, unpackedValue_zero]
          cases s <;> cases s' <;> exact ⟨trivial, unpackedValue_zero _⟩
      | finite s' m' e' hm' =>
          have hsum : unpackedValue (.zero s) + unpackedValue (.finite s' m' e' hm') =
              unpackedValue (.finite s' m' e' hm') := by
            rw [unpackedValue_zero, unpackedValue_finite, Exact.finite_add_finite, zero_add]
          rw [hsum, roundExact_unpackedValue hv]
          exact ⟨hv.rounded, hv.packedValue_eq⟩
  | finite s m e hm =>
      cases v with
      | notANumber => exact ⟨trivial, rfl⟩
      | infinity s' => exact ⟨trivial, rfl⟩
      | zero s' =>
          have hsum : unpackedValue (.finite s m e hm) + unpackedValue (.zero s') =
              unpackedValue (.finite s m e hm) := by
            rw [unpackedValue_zero, unpackedValue_finite, Exact.finite_add_finite, add_zero]
          rw [hsum, roundExact_unpackedValue hu]
          exact ⟨hu.rounded, hu.packedValue_eq⟩
      | finite s' m' e' hm' =>
          exact packedValue_add_finite s s' hm hm' e e'

theorem isNegative_neg (s : UnpackedFloat.Sign) : isNegative (-s) = !isNegative s := by
  cases s <;> rfl

theorem withSign_not (negative : Bool) (q : ℚ) :
    withSign (!negative) q = -withSign negative q := by
  cases negative <;> simp [withSign]

theorem unpackedValue_neg (u : UnpackedFloat) :
    unpackedValue u.neg = (unpackedValue u).neg := by
  cases u with
  | notANumber => rfl
  | infinity s => cases s <;> rfl
  | zero s =>
      rw [UnpackedFloat.neg, unpackedValue_zero, unpackedValue_zero, Exact.neg, neg_zero]
  | finite s m e hm =>
      rw [UnpackedFloat.neg, unpackedValue_finite, unpackedValue_finite, Exact.neg,
        isNegative_neg, withSign_not]

theorem unpackedValue_abs (u : UnpackedFloat) :
    unpackedValue u.abs = (unpackedValue u).abs := by
  cases u with
  | notANumber => rfl
  | infinity s => rfl
  | zero s =>
      rw [UnpackedFloat.abs, unpackedValue_zero, unpackedValue_zero, Exact.abs,
        if_neg (lt_irrefl 0)]
  | finite s m e hm =>
      have hpos : (0 : ℚ) < m * 2 ^ e := by positivity
      rw [UnpackedFloat.abs, unpackedValue_finite, unpackedValue_finite, Exact.abs]
      cases s with
      | negative => simp [withSign, isNegative, hpos]
      | positive => simp [withSign, isNegative, hpos.not_gt]

theorem IsStored.neg {u : UnpackedFloat} (h : IsStored u) : IsStored u.neg := by
  cases u with
  | notANumber => exact h
  | infinity s => exact ⟨trivial, rfl⟩
  | zero s => exact ⟨trivial, rfl⟩
  | finite s m e hm =>
      obtain ⟨hcanonical, hle⟩ := h.isCanonical
      exact ⟨hcanonical, if_neg (by omega)⟩

theorem IsStored.abs {u : UnpackedFloat} (h : IsStored u) : IsStored u.abs := by
  cases u with
  | notANumber => exact h
  | infinity s => exact ⟨trivial, rfl⟩
  | zero s => exact ⟨trivial, rfl⟩
  | finite s m e hm =>
      obtain ⟨hcanonical, hle⟩ := h.isCanonical
      exact ⟨hcanonical, if_neg (by omega)⟩

/-- Subtracting is adding the opposite. -/
theorem sub_eq_add_neg (u v : UnpackedFloat) :
    UnpackedFloat.sub Format.binary64 u v = UnpackedFloat.add Format.binary64 u v.neg := by
  cases u <;> cases v
  case finite.finite s m e hm s' m' e' hm' =>
    have hopposite (n : ℕ) : (-s').apply n = -s'.apply n := by
      cases s' with
      | negative => exact (Int.neg_neg _).symm
      | positive => rfl
    simp only [UnpackedFloat.sub, UnpackedFloat.add, UnpackedFloat.neg, hopposite,
      Int.sub_eq_add_neg]
  all_goals rfl

theorem isNegative_mul (s s' : UnpackedFloat.Sign) :
    isNegative (s * s') = (isNegative s != isNegative s') := by
  cases s <;> cases s' <;> rfl

theorem withSign_mul_withSign (a b : Bool) (q r : ℚ) :
    withSign a q * withSign b r = withSign (a != b) (q * r) := by
  cases a <;> cases b <;> simp [withSign]

/-- An infinity times a finite float that is not zero. -/
theorem scaleInfinite_withSign (a b : Bool) {q : ℚ} (hq : 0 < q) :
    Exact.scaleInfinite a (withSign b q) = .infinite (a != b) := by
  cases b with
  | false => simp [withSign, Exact.scaleInfinite, hq.ne', hq.not_gt]
  | true => cases a <;> simp [withSign, Exact.scaleInfinite, hq, hq.ne']

/-- The product of two canonical significands is not shifted to the left. -/
theorem IsCanonical.add_le_lastPlace {m m' : ℕ} {e e' : ℤ} (h : IsCanonical m e)
    (h' : IsCanonical m' e') (hm : 0 < m) (hm' : 0 < m') :
    e + e' ≤ lastPlace ((m * m' : ℕ) * 2 ^ (e + e')) := by
  rw [lastPlace, log_mul_zpow (Nat.mul_pos hm hm')]
  by_cases hlarge : 2 ^ 52 ≤ m * m'
  · have hlog := (Nat.le_log2 (Nat.mul_pos hm hm').ne').mpr hlarge
    omega
  · have hsmall : ¬2 ^ 52 ≤ m := fun hle => hlarge (hle.trans (Nat.le_mul_of_pos_right m hm'))
    have hsmall' : ¬2 ^ 52 ≤ m' := fun hle => hlarge (hle.trans (Nat.le_mul_of_pos_left m' hm))
    have he := h.normal.resolve_left hsmall
    have he' := h'.normal.resolve_left hsmall'
    omega

/-- The product of two finite floats is the exact product, rounded. -/
theorem packedValue_mul_finite {s s' : UnpackedFloat.Sign} {m m' : ℕ} {hm : 0 < m} {hm' : 0 < m'}
    {e e' : ℤ} (hu : IsStored (.finite s m e hm)) (hv : IsStored (.finite s' m' e' hm')) :
    IsRounded (UnpackedFloat.mul Format.binary64 (.finite s m e hm) (.finite s' m' e' hm')) ∧
      packedValue (UnpackedFloat.mul Format.binary64 (.finite s m e hm) (.finite s' m' e' hm')) =
        roundExact (unpackedValue (.finite s m e hm) * unpackedValue (.finite s' m' e' hm')) := by
  have hplace := hu.isCanonical.1.add_le_lastPlace hv.isCanonical.1 hm hm'
  obtain ⟨hrounded, hvalue⟩ :=
    packedValue_roundWithAccuracy (s * s') (Nat.mul_pos hm hm') hplace
  refine ⟨hrounded, hvalue.trans ?_⟩
  have hproduct : ((m * m' : ℕ) : ℚ) * 2 ^ (e + e') = m * 2 ^ e * (m' * 2 ^ e') := by
    rw [zpow_add₀ two_ne_zero]
    push_cast
    ring
  rw [unpackedValue_finite, unpackedValue_finite, Exact.finite_mul_finite,
    withSign_mul_withSign, roundExact, roundSigned_withSign _ (by positivity), hproduct,
    isNegative_mul]

/-- The product of two stored floats is the exact product, rounded. -/
theorem packedValue_mul {u v : UnpackedFloat} (hu : IsStored u) (hv : IsStored v) :
    IsRounded (UnpackedFloat.mul Format.binary64 u v) ∧
      packedValue (UnpackedFloat.mul Format.binary64 u v) =
        roundExact (unpackedValue u * unpackedValue v) := by
  have hzero : roundExact (.finite 0) = .finite 0 := by
    have hfix := roundExact_unpackedValue (u := .zero .positive) ⟨trivial, rfl⟩
    rwa [unpackedValue_zero] at hfix
  cases u with
  | notANumber => exact ⟨trivial, rfl⟩
  | infinity s =>
      cases v with
      | notANumber => exact ⟨trivial, rfl⟩
      | infinity s' => cases s <;> cases s' <;> exact ⟨trivial, rfl⟩
      | zero s' =>
          rw [unpackedValue_zero]
          exact ⟨trivial, rfl⟩
      | finite s' m' e' hm' =>
          refine ⟨trivial, ?_⟩
          change Exact.infinite (isNegative (s * s')) = roundExact (Exact.scaleInfinite _ _)
          rw [scaleInfinite_withSign _ _ (by positivity), isNegative_mul]
          rfl
  | zero s =>
      cases v with
      | notANumber => exact ⟨trivial, rfl⟩
      | infinity s' =>
          rw [unpackedValue_zero]
          exact ⟨trivial, rfl⟩
      | zero s' =>
          rw [unpackedValue_zero, unpackedValue_zero, Exact.finite_mul_finite, zero_mul, hzero]
          exact ⟨trivial, unpackedValue_zero _⟩
      | finite s' m' e' hm' =>
          rw [unpackedValue_zero, unpackedValue_finite, Exact.finite_mul_finite, zero_mul, hzero]
          exact ⟨trivial, unpackedValue_zero _⟩
  | finite s m e hm =>
      cases v with
      | notANumber => exact ⟨trivial, rfl⟩
      | infinity s' =>
          refine ⟨trivial, ?_⟩
          change Exact.infinite (isNegative (s * s')) = roundExact (Exact.scaleInfinite _ _)
          rw [scaleInfinite_withSign _ _ (by positivity), isNegative_mul, bne_comm]
          rfl
      | zero s' =>
          rw [unpackedValue_zero, unpackedValue_finite, Exact.finite_mul_finite, mul_zero, hzero]
          exact ⟨trivial, unpackedValue_zero _⟩
      | finite s' m' e' hm' =>
          exact packedValue_mul_finite hu hv

end BranchBound.Binary64
