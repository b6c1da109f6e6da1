import BranchBound.Proofs.Binary64.Comparison

/-!
# Quotients and integers

The float that `Binary64.ofQuotient` gives for a quotient is the quotient rounded to
its last place.  So rational numbers are turned into floats in the way in which
machine operations round their results, and small integers are kept as they are.
-/

namespace BranchBound.Binary64

/-! ## Encoding -/

/-- An encoded canonical pair has its value, saturated. -/
theorem floatValue_encode (negative : Bool) {m : ℕ} {e : ℤ} (h : IsCanonical m e) :
    floatValue (encode negative m e) = saturate (withSign negative (m * 2 ^ e)) := by
  have hlimit := h.lt_overflow_iff
  obtain ⟨hlt, hle, hnormal⟩ := h
  rw [floatValue_eq_decode, encode, pow2_eq]
  by_cases hsmall : m < 2 ^ 52
  · obtain rfl : e = -1074 := hnormal.resolve_left (by omega)
    rw [if_pos hsmall, decode_ofFields (by decide) hsmall,
      saturate_withSign_of_lt _ (by positivity) (hlimit.mpr (by decide))]
    rfl
  · rw [if_neg hsmall]
    by_cases hlarge : 971 < e
    · rw [if_pos hlarge, decode_ofFields (by decide) (by decide),
        saturate_withSign_of_ge _ (not_lt.mp fun hbelow => absurd (hlimit.mp hbelow) (by omega))]
      rfl
    · have hbiased : ((e + 1075).toNat : ℤ) = e + 1075 := Int.toNat_of_nonneg (by omega)
      have hfield : assemble negative (e + 1075).toNat (m - 2 ^ 52) = finite negative m e := by
        rw [assemble, if_neg (by omega), if_neg (by omega), hbiased, pow2_eq,
          Nat.add_sub_cancel' (not_lt.mp hsmall), Int.add_sub_cancel]
      rw [if_neg hlarge, decode_ofFields (by omega) (by omega), hfield,
        saturate_withSign_of_lt _ (by positivity) (hlimit.mpr (by omega))]
      rfl

/-! ## Scaling -/

/-- `num / den / 2 ^ k` as a quotient of natural numbers. -/
def scaled (num den : ℕ) (k : ℤ) : ℕ × ℕ :=
  if 0 ≤ k then (num, den * pow2 k.toNat) else (num * pow2 (-k).toNat, den)

theorem scaled_pos (num : ℕ) {den : ℕ} (hden : 0 < den) (k : ℤ) : 0 < (scaled num den k).2 := by
  unfold scaled
  split
  · exact Nat.mul_pos hden (Nat.two_pow_pos _)
  · exact hden

theorem scaled_div (num den : ℕ) (k : ℤ) :
    ((scaled num den k).1 : ℚ) / (scaled num den k).2 = num / den / 2 ^ k := by
  unfold scaled
  split
  next hk =>
    obtain ⟨n, rfl⟩ := Int.eq_ofNat_of_zero_le hk
    rw [Int.toNat_natCast, pow2_eq, zpow_natCast, div_div]
    push_cast
    rfl
  next hk =>
    obtain ⟨n, hn⟩ := Int.eq_ofNat_of_zero_le (show 0 ≤ -k by omega)
    obtain rfl : k = -(n : ℤ) := by omega
    rw [neg_neg, Int.toNat_natCast, pow2_eq, zpow_neg, zpow_natCast, div_inv_eq_mul]
    push_cast
    ring

/-- The leading place of a quotient, from those of its parts. -/
theorem log_div {num den : ℕ} (hnum : 0 < num) (hden : 0 < den) :
    Int.log 2 ((num : ℚ) / den) =
      if (scaled num den (num.log2 - den.log2)).2 ≤ (scaled num den (num.log2 - den.log2)).1
      then (num.log2 : ℤ) - den.log2 else num.log2 - den.log2 - 1 := by
  have hpos := scaled_pos num hden (num.log2 - den.log2)
  have hdiv := scaled_div num den (num.log2 - den.log2)
  have hiff : (scaled num den (num.log2 - den.log2)).2 ≤
      (scaled num den (num.log2 - den.log2)).1 ↔
      (2 : ℚ) ^ ((num.log2 : ℤ) - den.log2) ≤ num / den := by
    rw [← one_le_div (show (0 : ℚ) < 2 ^ ((num.log2 : ℤ) - den.log2) by positivity), ← hdiv,
      one_le_div (by exact_mod_cast hpos)]
    exact_mod_cast Iff.rfl
  have hden' : (0 : ℚ) < den := by exact_mod_cast hden
  have hnumlow : (2 : ℚ) ^ (num.log2 : ℤ) ≤ num := by
    exact_mod_cast Nat.log2_self_le hnum.ne'
  have hnumhigh : (num : ℚ) < 2 ^ ((num.log2 : ℤ) + 1) := by
    exact_mod_cast Nat.lt_log2_self
  have hdenlow : (2 : ℚ) ^ (den.log2 : ℤ) ≤ den := by
    exact_mod_cast Nat.log2_self_le hden.ne'
  have hdenhigh : (den : ℚ) < 2 ^ ((den.log2 : ℤ) + 1) := by
    exact_mod_cast Nat.lt_log2_self
  split
  next hwide =>
    refine log_eq (hiff.mp hwide) ?_
    rw [div_lt_iff₀ hden']
    calc
      (num : ℚ) < 2 ^ ((num.log2 : ℤ) + 1) := hnumhigh
      _ = 2 ^ ((num.log2 : ℤ) - den.log2 + 1) * 2 ^ (den.log2 : ℤ) := by
        rw [← zpow_add₀ two_ne_zero]
        congr 1
        ring
      _ ≤ 2 ^ ((num.log2 : ℤ) - den.log2 + 1) * den := by gcongr
  next hnarrow =>
    refine log_eq ?_ ?_
    · rw [le_div_iff₀ hden']
      calc
        (2 : ℚ) ^ ((num.log2 : ℤ) - den.log2 - 1) * den ≤
            2 ^ ((num.log2 : ℤ) - den.log2 - 1) * 2 ^ ((den.log2 : ℤ) + 1) := by gcongr
        _ = 2 ^ (num.log2 : ℤ) := by
          rw [← zpow_add₀ two_ne_zero]
          congr 1
          ring
        _ ≤ num := hnumlow
    · rw [sub_add_cancel]
      exact not_le.mp fun hle => hnarrow (hiff.mpr hle)

/-! ## Rounded quotients -/

/-- A quotient becomes the float nearest it. -/
theorem floatValue_ofQuotient (negative : Bool) (num : ℕ) {den : ℕ} (hden : 0 < den) :
    floatValue (ofQuotient negative num den) =
      saturate (withSign negative (roundPlace (num / den))) := by
  rcases Nat.eq_zero_or_pos num with rfl | hnum
  · rw [ofQuotient, if_pos rfl, floatValue_ofFields_zero, Nat.cast_zero, zero_div,
      roundPlace_of_mul (n := 0) (by simp), withSign_zero,
      saturate_of_lt (by simp [overflow_pos]) overflow_pos]
  · have hq : (0 : ℚ) < num / den := by positivity
    have hplace : max minExponent
        (if (scaled num den ((num.log2 : ℤ) - den.log2 - 53 + 53)).2 ≤
            (scaled num den ((num.log2 : ℤ) - den.log2 - 53 + 53)).1
          then (num.log2 : ℤ) - den.log2 - 53 + 1 else (num.log2 : ℤ) - den.log2 - 53) =
        lastPlace (num / den) := by
      rw [lastPlace, log_div hnum hden, sub_add_cancel, minExponent]
      split <;> omega
    have hquotient : ofQuotient negative num den =
        if Rounding.halfEven (scaled num den (lastPlace (num / den))).1
            (scaled num den (lastPlace (num / den))).2 = 2 ^ 53
          then encode negative (2 ^ 52) (lastPlace (num / den) + 1)
          else encode negative (Rounding.halfEven (scaled num den (lastPlace (num / den))).1
            (scaled num den (lastPlace (num / den))).2) (lastPlace (num / den)) := by
      rw [← hplace, ofQuotient, if_neg hnum.ne']
      rfl
    have hn : (Rounding.halfEven (scaled num den (lastPlace (num / den))).1
        (scaled num den (lastPlace (num / den))).2 : ℤ) =
        nearestEven (num / den / 2 ^ lastPlace (num / den)) := by
      rw [halfEven_eq (scaled_pos num hden _), scaled_div]
    obtain ⟨hplain, hcarry⟩ := isCanonical_nearestEven hq hn
    rw [hquotient]
    generalize Rounding.halfEven _ _ = n at hplain hcarry ⊢
    by_cases h : n = 2 ^ 53
    · obtain ⟨hcanonical, hvalue⟩ := hcarry h
      rw [if_pos h, floatValue_encode negative hcanonical, hvalue]
    · obtain ⟨hcanonical, hvalue⟩ := hplain h
      rw [if_neg h, floatValue_encode negative hcanonical, hvalue]

/-- A rational number becomes the float nearest it. -/
theorem floatValue_ofRat (r : ℚ) : floatValue (ofRat r) = saturate (roundSigned r) := by
  have hr : r = withSign (decide (r.num < 0)) (r.num.natAbs / r.den) := by
    have hdiv : r = r.num / r.den := (Rat.num_div_den r).symm
    by_cases hneg : r.num < 0
    · have habs : ((r.num.natAbs : ℕ) : ℚ) = -r.num := by
        rw [Nat.cast_natAbs, abs_of_neg hneg, Int.cast_neg]
      rw [decide_eq_true hneg, habs, neg_div, ← hdiv]
      simp [withSign]
    · have habs : ((r.num.natAbs : ℕ) : ℚ) = r.num := by
        rw [Nat.cast_natAbs, abs_of_nonneg (not_lt.mp hneg)]
      rw [decide_eq_false hneg, habs, ← hdiv]
      rfl
  rw [ofRat, floatValue_ofQuotient _ _ r.den_pos, ← roundSigned_withSign _ (by positivity), ← hr]

/-- Natural numbers of up to 53 bits are floats. -/
theorem floatValue_ofQuotient_one (negative : Bool) {n : ℕ} (hn : n ≤ 2 ^ 53) :
    floatValue (ofQuotient negative n 1) = .finite (withSign negative n) := by
  have hfix : roundPlace (n : ℚ) = n := by
    rcases Nat.lt_or_eq_of_le hn with hlt | rfl
    · exact roundPlace_eq_self (d := n) (e := 0) (by simp) hlt (by decide)
    · exact roundPlace_eq_self (d := 2 ^ 52) (e := 1) (by norm_num) (by decide) (by decide)
  have hlt : (n : ℚ) < overflow := by
    unfold overflow
    have hpow : (2 : ℚ) ^ (53 : ℤ) < 2 ^ (1024 : ℤ) :=
      zpow_lt_zpow_right₀ one_lt_two (by decide)
    have hcast : (n : ℚ) ≤ 2 ^ (53 : ℤ) := by exact_mod_cast hn
    exact hcast.trans_lt hpow
  rw [floatValue_ofQuotient negative n one_pos, Nat.cast_one, div_one, hfix,
    saturate_withSign_of_lt negative (by positivity) hlt]

end BranchBound.Binary64
