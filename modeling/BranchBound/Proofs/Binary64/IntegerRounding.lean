import BranchBound.Proofs.Binary64.Quotients
import BranchBound.Proofs.IntegerParts

/-!
# Rounding floats to integers

A float with a negative exponent is cut at the binary point, and its whole part
grows by one or not.  The result has at most 53 bits, so nothing is lost when it
is turned into a float again: floor, ceiling and nearest integer are those of the value.
-/

namespace BranchBound.Binary64

/-! ## Integer parts -/

theorem floor_eq {r : ℚ} {n : ℤ} (hlow : n ≤ r) (hhigh : r < n + 1) : r.floor = n := by
  have hle := Rat.le_floor_iff.mpr hlow
  have hlt : ((r.floor : ℤ) : ℚ) < n + 1 := (Rat.floor_le r).trans_lt hhigh
  have hlt' : r.floor < n + 1 := by exact_mod_cast hlt
  omega

theorem ceil_eq {r : ℚ} {n : ℤ} (hlow : n - 1 < r) (hhigh : r ≤ n) : r.ceil = n := by
  have hle := Rat.ceil_le_iff.mpr hhigh
  have hlt : (n : ℚ) - 1 < (r.ceil : ℤ) := hlow.trans_le Rat.le_ceil
  have hlt' : n - 1 < r.ceil := by exact_mod_cast hlt
  omega

/-- What is cut off at the binary point is less than a unit. -/
theorem cut_bounds {rest unit : ℕ} (h : rest < unit) :
    0 ≤ (rest : ℚ) / unit ∧ (rest : ℚ) / unit < 1 ∧ (0 < rest ↔ 0 < (rest : ℚ) / unit) ∧
      (unit ≤ 2 * rest ↔ 1 / 2 ≤ (rest : ℚ) / unit) := by
  have hunit : (0 : ℚ) < unit := by exact_mod_cast Nat.zero_lt_of_lt h
  refine ⟨by positivity, (div_lt_one hunit).mpr (by exact_mod_cast h), ?_, ?_⟩
  · rw [div_pos_iff_of_pos_right hunit, Nat.cast_pos]
  · rw [div_le_div_iff₀ two_pos hunit, one_mul, mul_comm (rest : ℚ)]
    exact_mod_cast Iff.rfl

/-- A rule for growing whole parts that rounds like the function `f`. -/
def RoundsLike (away : Bool → ℕ → ℕ → Bool) (f : ℚ → ℤ) : Prop :=
  ∀ (negative : Bool) (whole rest unit : ℕ), rest < unit →
    (f (withSign negative (whole + rest / unit)) : ℚ) =
      withSign negative ((if away negative rest unit then whole + 1 else whole : ℕ) : ℚ)

theorem roundsLike_floor :
    RoundsLike (fun negative rest _ => negative && decide (0 < rest)) Rat.floor := by
  intro negative whole rest unit hrest
  obtain ⟨hnonneg, hlt, hpos, -⟩ := cut_bounds hrest
  generalize (rest : ℚ) / unit = t at hnonneg hlt hpos ⊢
  cases negative with
  | false =>
      have hfloor : ((whole : ℚ) + t).floor = (whole : ℕ) :=
        floor_eq (by push_cast; linarith) (by push_cast; linarith)
      simp [withSign, hfloor]
  | true =>
      by_cases hrest : 0 < rest
      · have ht := hpos.mp hrest
        have hfloor : (-((whole : ℚ) + t)).floor = -((whole + 1 : ℕ) : ℤ) :=
          floor_eq (by push_cast; linarith) (by push_cast; linarith)
        simp [withSign, hrest, -neg_add_rev, hfloor]
      · have ht := le_antisymm (not_lt.mp fun hlt => hrest (hpos.mpr hlt)) hnonneg
        have hfloor : (-((whole : ℚ) + t)).floor = -(whole : ℤ) :=
          floor_eq (by push_cast; linarith) (by push_cast; linarith)
        simp [withSign, hrest, -neg_add_rev, hfloor]

theorem roundsLike_ceil :
    RoundsLike (fun negative rest _ => !negative && decide (0 < rest)) Rat.ceil := by
  intro negative whole rest unit hrest
  obtain ⟨hnonneg, hlt, hpos, -⟩ := cut_bounds hrest
  generalize (rest : ℚ) / unit = t at hnonneg hlt hpos ⊢
  cases negative with
  | false =>
      by_cases hrest : 0 < rest
      · have ht := hpos.mp hrest
        have hceil : ((whole : ℚ) + t).ceil = ((whole + 1 : ℕ) : ℤ) :=
          ceil_eq (by push_cast; linarith) (by push_cast; linarith)
        simp [withSign, hrest, hceil]
      · have ht := le_antisymm (not_lt.mp fun hlt => hrest (hpos.mpr hlt)) hnonneg
        have hceil : ((whole : ℚ) + t).ceil = (whole : ℤ) :=
          ceil_eq (by push_cast; linarith) (by push_cast; linarith)
        simp [withSign, hrest, hceil]
  | true =>
      have hceil : (-((whole : ℚ) + t)).ceil = -(whole : ℤ) :=
        ceil_eq (by push_cast; linarith) (by push_cast; linarith)
      simp [withSign, -neg_add_rev, hceil]

theorem roundsLike_nearest :
    RoundsLike (fun _ rest unit => decide (unit ≤ 2 * rest)) Exact.nearest := by
  intro negative whole rest unit hrest
  obtain ⟨hnonneg, hlt, -, hhalf⟩ := cut_bounds hrest
  generalize (rest : ℚ) / unit = t at hnonneg hlt hhalf ⊢
  have hwhole : (0 : ℚ) ≤ whole := by positivity
  generalize hgrown : (if decide (unit ≤ 2 * rest) = true then whole + 1 else whole) = n
  -- the grown whole part is within a half of the magnitude, or above it by a half
  have hbounds : (n : ℚ) ≤ whole + t + 1 / 2 ∧ (whole : ℚ) + t + 1 / 2 < n + 1 := by
    subst hgrown
    by_cases h : unit ≤ 2 * rest
    · have ht := hhalf.mp h
      simp only [h, decide_true, if_true]
      push_cast
      constructor <;> linarith
    · have ht := not_le.mp fun hle => h (hhalf.mpr hle)
      simp only [h, decide_false, Bool.false_eq_true, if_false]
      constructor <;> linarith
  cases negative with
  | false =>
      have hfloor : ((whole : ℚ) + t + 1 / 2).floor = (n : ℤ) :=
        floor_eq (by push_cast; linarith) (by push_cast; linarith)
      have hneg : ¬(whole : ℚ) + t < 0 := by linarith
      simp only [withSign, Bool.false_eq_true, if_false, Exact.nearest, if_neg hneg, hfloor]
      simp
  | true =>
      rcases (add_nonneg hwhole hnonneg).eq_or_lt with hzero | hpos
      · have hn : n = 0 := by
          have hlt : (n : ℚ) < (1 : ℕ) := by
            push_cast
            linarith
          exact Nat.lt_one_iff.mp (by exact_mod_cast hlt)
        have hfloor : ((0 : ℚ) + 1 / 2).floor = 0 := floor_eq (by norm_num) (by norm_num)
        simp only [withSign, ← hzero, hn, neg_zero, if_true, Exact.nearest, lt_irrefl, if_false,
          hfloor]
        simp
      · have hceil : (-((whole : ℚ) + t) - 1 / 2).ceil = -(n : ℤ) :=
          ceil_eq (by push_cast; linarith) (by push_cast; linarith)
        have hneg : -((whole : ℚ) + t) < 0 := by linarith
        simp only [withSign, if_true, Exact.nearest, if_pos hneg, hceil]
        simp

/-! ## Rounded floats -/

/-- Rounding by a rule is rounding the value. -/
theorem floatValue_roundWith {away : Bool → ℕ → ℕ → Bool} {f : ℚ → ℤ}
    (hcut : RoundsLike away f) (hwhole : ∀ n : ℤ, f n = n) (x : Float) :
    floatValue (roundWith away x) = (floatValue x).mapFinite fun r => f r := by
  cases hx : decode x with
  | nan =>
      have hvalue : floatValue x = .undefined := by rw [floatValue_eq_decode, hx]; rfl
      simp only [roundWith, hx, hvalue, Exact.mapFinite]
  | infinite negative =>
      have hvalue : floatValue x = .infinite negative := by rw [floatValue_eq_decode, hx]; rfl
      simp only [roundWith, hx, hvalue, Exact.mapFinite]
  | finite negative m e =>
      obtain ⟨⟨hm, -, -⟩, -⟩ := isCanonical_decode hx
      simp only [roundWith, hx, floatValue_of_decode hx, Exact.mapFinite]
      by_cases he : 0 ≤ e
      · obtain ⟨k, rfl⟩ := Int.eq_ofNat_of_zero_le he
        have hint : withSign negative (m * 2 ^ (k : ℤ)) =
            ((if negative then -(m * 2 ^ k : ℤ) else m * 2 ^ k : ℤ) : ℚ) := by
          cases negative <;> simp [withSign]
        rw [if_pos he, floatValue_of_decode hx, hint, hwhole]
      · obtain ⟨k, hk⟩ := Int.eq_ofNat_of_zero_le (show 0 ≤ -e by omega)
        obtain rfl : e = -(k : ℤ) := by omega
        have hunit : 0 < 2 ^ k := Nat.two_pow_pos k
        have hsplit : (m : ℚ) * 2 ^ (-(k : ℤ)) =
            (m / 2 ^ k : ℕ) + (m % 2 ^ k : ℕ) / (2 ^ k : ℕ) := by
          have hdiv : (m : ℚ) = (2 ^ k : ℕ) * (m / 2 ^ k : ℕ) + (m % 2 ^ k : ℕ) := by
            exact_mod_cast (Nat.div_add_mod m (2 ^ k)).symm
          have hunit' : ((2 ^ k : ℕ) : ℚ) ≠ 0 := by positivity
          rw [zpow_neg, zpow_natCast, ← div_eq_mul_inv, ← Nat.cast_two, ← Nat.cast_pow,
            div_eq_iff hunit', add_mul, div_mul_cancel₀ _ hunit', mul_comm ((m / 2 ^ k : ℕ) : ℚ)]
          exact hdiv
        have hle : (if away negative (m % 2 ^ k) (2 ^ k) = true then m / 2 ^ k + 1
            else m / 2 ^ k) ≤ 2 ^ 53 := by
          have hself := Nat.div_le_self m (2 ^ k)
          split <;> omega
        rw [if_neg he, neg_neg, Int.toNat_natCast, pow2_eq, floatValue_ofQuotient_one _ hle,
          hsplit, hcut negative _ _ _ (Nat.mod_lt m hunit)]

theorem floatValue_floor (x : Float) :
    floatValue (floor x) = (floatValue x).mapFinite fun r => r.floor :=
  floatValue_roundWith roundsLike_floor Rat.floor_intCast x

theorem floatValue_ceil (x : Float) :
    floatValue (ceil x) = (floatValue x).mapFinite fun r => r.ceil :=
  floatValue_roundWith roundsLike_ceil Rat.ceil_intCast x

theorem floatValue_round (x : Float) :
    floatValue (round x) = (floatValue x).mapFinite fun r => Exact.nearest r :=
  floatValue_roundWith roundsLike_nearest Exact.nearest_intCast x

/-! ## The part beyond the nearest integer -/

/-- A multiple of a float's last place that is not larger than the float is not changed
by rounding. -/
theorem roundExact_of_abs_le {m : ℕ} {e d : ℤ} (h : IsCanonical m e) (he : e ≤ 971)
    (hd : |d| ≤ m) : roundExact (.finite (d * 2 ^ e)) = .finite (d * 2 ^ e) := by
  have hnat : d.natAbs ≤ m := by
    rw [Int.abs_eq_natAbs] at hd
    exact_mod_cast hd
  have hlt : (d.natAbs : ℚ) * 2 ^ e < overflow := by
    refine lt_of_le_of_lt ?_ (h.lt_overflow_iff.mpr he)
    gcongr
  have hsign : (d : ℚ) * 2 ^ e = withSign (decide (d < 0)) (d.natAbs * 2 ^ e) := by
    by_cases hneg : d < 0
    · simp [withSign, hneg, Nat.cast_natAbs, abs_of_neg hneg]
    · simp [withSign, hneg, Nat.cast_natAbs, abs_of_nonneg (not_lt.mp hneg)]
  rw [hsign, roundExact, roundSigned_withSign _ (by positivity),
    roundPlace_eq_self rfl (hnat.trans_lt h.lt) h.le,
    saturate_withSign_of_lt _ (by positivity) hlt]

/-- The part beyond the nearest integer is a multiple of the last place. -/
theorem exists_sub_nearest (negative : Bool) (m : ℕ) (e : ℤ) :
    ∃ d : ℤ, |d| ≤ m ∧ withSign negative (m * 2 ^ e) -
      Exact.nearest (withSign negative (m * 2 ^ e)) = d * 2 ^ e := by
  have hpow : (0 : ℚ) < 2 ^ e := by positivity
  obtain ⟨c, hc, habs⟩ : ∃ c : ℤ, withSign negative ((m : ℚ) * 2 ^ e) = c * 2 ^ e ∧ |c| = m := by
    cases negative with
    | false => exact ⟨m, by simp [withSign], by simp⟩
    | true => exact ⟨-m, by simp [withSign], by simp⟩
  rw [hc]
  rcases le_or_gt 0 e with he | he
  · obtain ⟨k, rfl⟩ := Int.eq_ofNat_of_zero_le he
    have hint : (c : ℚ) * 2 ^ (k : ℤ) = ((c * 2 ^ k : ℤ) : ℚ) := by simp
    refine ⟨0, by simp, ?_⟩
    rw [hint, Exact.nearest_intCast, sub_self, Int.cast_zero, zero_mul]
  · obtain ⟨k, hk⟩ := Int.eq_ofNat_of_zero_le (show 0 ≤ -e by omega)
    obtain rfl : e = -(k : ℤ) := by omega
    have hdist := Exact.abs_sub_nearest_le (c * 2 ^ (-(k : ℤ))) 0
    generalize Exact.nearest ((c : ℚ) * 2 ^ (-(k : ℤ))) = n at hdist ⊢
    have hsub : (c : ℚ) * 2 ^ (-(k : ℤ)) - n = ((c - n * 2 ^ k : ℤ) : ℚ) * 2 ^ (-(k : ℤ)) := by
      push_cast
      rw [sub_mul, mul_assoc, zpow_neg, zpow_natCast, mul_inv_cancel₀ (by positivity), mul_one]
    refine ⟨c - n * 2 ^ k, ?_, hsub⟩
    rw [hsub, Int.cast_zero, sub_zero, abs_mul, abs_mul, abs_of_pos hpow] at hdist
    rw [← habs]
    exact_mod_cast le_of_mul_le_mul_right hdist hpow

/-- The part of a float beyond its nearest integer is expressed exactly. -/
theorem roundExact_sub_round (x : Float) :
    roundExact (floatValue x - floatValue (round x)) = floatValue x - floatValue (round x) := by
  rw [floatValue_round]
  cases hx : decode x with
  | nan =>
      rw [floatValue_eq_decode, hx]
      rfl
  | infinite negative =>
      rw [floatValue_eq_decode, hx]
      cases negative <;> rfl
  | finite negative m e =>
      obtain ⟨hcanonical, he⟩ := isCanonical_decode hx
      obtain ⟨d, hd, hsub⟩ := exists_sub_nearest negative m e
      rw [floatValue_of_decode hx, Exact.mapFinite, Exact.finite_sub_finite, hsub]
      exact roundExact_of_abs_le hcanonical he hd

end BranchBound.Binary64
