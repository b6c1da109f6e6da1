import BranchBound.Proofs.Binary64.Lawful
import BranchBound.Proofs.Tolerances

/-!
# Tolerances on floats

How far rounding to the nearest float can move a bound that was widened by a
tolerance.  A rounded number is at most half a last place away from the exact one;
a float and an integer above it are at least one last place apart.  So a float below
an integer, widened by less than a half, stays below the integer widened by the same
amount.

The tolerance itself may be missed: the sum of a bound and a tolerance is often rounded
up.
-/

namespace BranchBound

namespace Binary64

/-! ## Half a place -/

theorem abs_nearestEven_sub_le (x : ℚ) : |(nearestEven x : ℚ) - x| ≤ 1 / 2 := by
  have hlow := Int.floor_le x
  have hhigh := Int.lt_floor_add_one x
  unfold nearestEven
  split
  next hup =>
    have hhalf : 1 / 2 ≤ x - ⌊x⌋ := by
      rcases hup with h | h
      · exact h.le
      · exact h.1.ge
    push_cast
    rw [abs_le]
    constructor <;> linarith
  next hdown =>
    rw [not_or, not_lt] at hdown
    rw [abs_le]
    constructor <;> linarith

theorem abs_roundPlace_sub_le (q : ℚ) : |roundPlace q - q| ≤ 2 ^ lastPlace q / 2 := by
  have hplace : (0 : ℚ) < 2 ^ lastPlace q := by positivity
  have hq : q = q / 2 ^ lastPlace q * 2 ^ lastPlace q := (div_mul_cancel₀ q hplace.ne').symm
  have hscaled : roundPlace q - q =
      (nearestEven (q / 2 ^ lastPlace q) - q / 2 ^ lastPlace q) * 2 ^ lastPlace q := by
    rw [sub_mul, ← hq]
    rfl
  rw [hscaled, abs_mul, abs_of_pos hplace]
  calc
    |(nearestEven (q / 2 ^ lastPlace q) : ℚ) - q / 2 ^ lastPlace q| * 2 ^ lastPlace q ≤
        1 / 2 * 2 ^ lastPlace q :=
      mul_le_mul_of_nonneg_right (abs_nearestEven_sub_le _) hplace.le
    _ = 2 ^ lastPlace q / 2 := by ring

theorem roundSigned_neg (r : ℚ) : roundSigned (-r) = -roundSigned r := by
  have hzero : roundPlace 0 = 0 := roundPlace_of_mul (n := 0) (by simp)
  unfold roundSigned
  rcases lt_trichotomy r 0 with h | rfl | h
  · rw [if_neg (by linarith), if_pos h, neg_neg]
  · simp [hzero]
  · rw [if_pos (by linarith), if_neg (by linarith), neg_neg]

theorem roundSigned_le_add (r : ℚ) : roundSigned r ≤ r + 2 ^ lastPlace |r| / 2 := by
  unfold roundSigned
  split
  next h =>
    rw [abs_of_neg h]
    have hdist := (abs_le.mp (abs_roundPlace_sub_le (-r))).1
    linarith
  next h =>
    rw [abs_of_nonneg (not_lt.mp h)]
    have hdist := (abs_le.mp (abs_roundPlace_sub_le r)).2
    linarith

/-- A rounded number is a multiple of the last place. -/
theorem exists_roundSigned_eq_mul (r : ℚ) :
    ∃ k : ℤ, roundSigned r = k * 2 ^ lastPlace |r| := by
  unfold roundSigned
  split
  next hneg =>
    rw [abs_of_neg hneg]
    refine ⟨-nearestEven (-r / 2 ^ lastPlace (-r)), ?_⟩
    rw [Int.cast_neg, neg_mul]
    rfl
  next hnonneg =>
    rw [abs_of_nonneg (not_lt.mp hnonneg)]
    exact ⟨_, rfl⟩

theorem lastPlace_mono {q q' : ℚ} (hq : 0 < q) (h : q ≤ q') : lastPlace q ≤ lastPlace q' := by
  have hlog := Int.log_mono_right (b := 2) hq h
  unfold lastPlace
  omega

theorem lastPlace_le_succ {q q' : ℚ} (hq' : 0 < q') (h : q' ≤ 2 * q) :
    lastPlace q' ≤ lastPlace q + 1 := by
  have hlog : Int.log 2 q' < Int.log 2 q + 2 := by
    rw [← Int.lt_zpow_iff_log_lt Nat.one_lt_two hq']
    push_cast
    calc
      q' ≤ 2 * q := h
      _ < 2 * 2 ^ (Int.log 2 q + 1) := by linarith [lt_zpow_log q]
      _ = 2 ^ (Int.log 2 q + 2) := by
        rw [show Int.log 2 q + 2 = 1 + (Int.log 2 q + 1) by ring, zpow_add₀ two_ne_zero 1, zpow_one]
  unfold lastPlace
  omega

/-- Between a float and an integer above it there is at least one place of the float. -/
theorem zpow_lastPlace_le_sub {u : ℚ} {n : ℤ} (hu : roundSigned u = u) (h : u < n)
    (hnear : n - u < 1) : (2 : ℚ) ^ lastPlace |u| ≤ n - u := by
  obtain ⟨k, hk⟩ := exists_roundSigned_eq_mul u
  rw [hu] at hk
  generalize lastPlace |u| = e at hk ⊢
  by_cases he : 0 ≤ e
  · -- the float is an integer
    obtain ⟨j, rfl⟩ := Int.eq_ofNat_of_zero_le he
    have hint : u = ((k * 2 ^ j : ℤ) : ℚ) := by
      rw [hk, zpow_natCast]
      push_cast
      rfl
    rw [hint] at h hnear
    have hlt : k * 2 ^ j < n := by exact_mod_cast h
    have hlt' : n < k * 2 ^ j + 1 := by
      have hcast : (n : ℚ) < ((k * 2 ^ j + 1 : ℤ) : ℚ) := by
        push_cast at hnear ⊢
        linarith
      exact_mod_cast hcast
    omega
  · obtain ⟨j, hj⟩ := Int.eq_ofNat_of_zero_le (show 0 ≤ -e by omega)
    have hpow : (0 : ℚ) < 2 ^ e := by positivity
    have hn : (n : ℚ) = ((n * 2 ^ j : ℤ) : ℚ) * 2 ^ e := by
      have hone : (2 : ℚ) ^ j * 2 ^ e = 1 := by
        rw [← zpow_natCast, ← zpow_add₀ two_ne_zero, ← hj]
        simp
      push_cast
      rw [mul_assoc, hone, mul_one]
    have hsub : (n : ℚ) - u = ((n * 2 ^ j - k : ℤ) : ℚ) * 2 ^ e := by
      rw [Int.cast_sub, sub_mul, ← hn, ← hk]
    have hpos : 0 < n * 2 ^ j - k := by
      have hprod : 0 < ((n * 2 ^ j - k : ℤ) : ℚ) * 2 ^ e := by
        rw [← hsub]
        linarith
      exact_mod_cast (mul_pos_iff_of_pos_right hpow).mp hprod
    have hone : (1 : ℚ) ≤ ((n * 2 ^ j - k : ℤ) : ℚ) := by exact_mod_cast hpos
    rw [hsub]
    exact le_mul_of_one_le_left hpow.le hone

/-- Rounding does not cross a multiple of the last place by more than it has to. -/
theorem roundSigned_le_of_lt_add_half {r : ℚ} {m : ℤ}
    (h : r < m * 2 ^ lastPlace |r| + 2 ^ lastPlace |r| / 2) :
    roundSigned r ≤ m * 2 ^ lastPlace |r| := by
  have hplace : (0 : ℚ) < 2 ^ lastPlace |r| := by positivity
  obtain ⟨k, hk⟩ := exists_roundSigned_eq_mul r
  have hround := roundSigned_le_add r
  rw [hk] at hround ⊢
  have hlt : (k : ℚ) * 2 ^ lastPlace |r| < ((m + 1 : ℤ) : ℚ) * 2 ^ lastPlace |r| := by
    rw [Int.cast_add, Int.cast_one, add_mul, one_mul]
    linarith
  have hle : k ≤ m :=
    Int.lt_add_one_iff.mp (Int.cast_lt.mp (lt_of_mul_lt_mul_right hlt hplace.le))
  exact mul_le_mul_of_nonneg_right (Int.cast_le.mpr hle) hplace.le

/-- The last place of a large number does not exceed that of an integer less than a half
below it. -/
theorem lastPlace_le_of_lt_half {n : ℤ} {r : ℚ} (hlow : n < r) (hhigh : r < n + 1 / 2)
    (he : 0 ≤ lastPlace |r|) : lastPlace |r| ≤ lastPlace |(n : ℚ)| := by
  have hr : r ≠ 0 := by
    rintro rfl
    simp [lastPlace] at he
  have hlog : 52 ≤ Int.log 2 |r| := by
    unfold lastPlace at he
    omega
  rcases lt_or_gt_of_ne hr with hneg | hpos
  · refine lastPlace_mono (abs_pos.mpr hr) ?_
    rw [abs_of_neg hneg, abs_of_neg (hlow.trans hneg)]
    linarith
  · rw [abs_of_pos hpos] at hlog ⊢
    -- the power of two below the number is an integer, so it is not above `n`
    obtain ⟨j, hj⟩ := Int.eq_ofNat_of_zero_le (show 0 ≤ Int.log 2 r by omega)
    have hpow : (2 : ℚ) ^ j ≤ r := by
      have h := zpow_log_le hpos
      rwa [hj, zpow_natCast] at h
    have hle : (2 : ℤ) ^ j ≤ n := by
      have hcast : (((2 : ℤ) ^ j : ℤ) : ℚ) < ((n + 1 : ℤ) : ℚ) := by
        push_cast
        linarith
      have hlt : (2 : ℤ) ^ j < n + 1 := by exact_mod_cast hcast
      omega
    have hle' : (2 : ℚ) ^ j ≤ n := by exact_mod_cast hle
    have hn : (0 : ℚ) < n := lt_of_lt_of_le (by positivity) hle'
    rw [abs_of_pos hn]
    have hlog' : Int.log 2 r ≤ Int.log 2 (n : ℚ) := by
      rw [← Int.zpow_le_iff_le_log Nat.one_lt_two hn, hj]
      exact_mod_cast hle'
    unfold lastPlace
    omega

/-- Less than a half above an integer is not rounded beyond the half. -/
theorem roundSigned_le_half {n : ℤ} {r : ℚ} (hn : roundSigned n = n) (h : r < n + 1 / 2) :
    roundSigned r ≤ n + 1 / 2 := by
  rcases le_or_gt r n with hle | hgt
  · have hmono := roundSigned_mono hle
    rw [hn] at hmono
    linarith
  by_cases he : 0 ≤ lastPlace |r|
  · -- the integer is a multiple of the last place
    have hplace := lastPlace_le_of_lt_half hgt h he
    obtain ⟨k, hk⟩ := exists_roundSigned_eq_mul n
    rw [hn] at hk
    obtain ⟨j, hj⟩ := Int.le.dest hplace
    have hmul : (n : ℚ) = ((k * 2 ^ j : ℤ) : ℚ) * 2 ^ lastPlace |r| := by
      rw [← hj, zpow_add₀ two_ne_zero, zpow_natCast] at hk
      push_cast
      linarith
    have hone : (1 : ℚ) ≤ 2 ^ lastPlace |r| := one_le_zpow₀ one_le_two he
    have hround := roundSigned_le_of_lt_add_half (r := r) (m := k * 2 ^ j) (by
      rw [← hmul]
      linarith)
    rw [← hmul] at hround
    linarith
  · -- so is the half above it
    obtain ⟨j, hj⟩ := Int.eq_ofNat_of_zero_le (show 0 ≤ -1 - lastPlace |r| by omega)
    have hhalf : (2 : ℚ) ^ j * 2 ^ lastPlace |r| = 1 / 2 := by
      rw [← zpow_natCast, ← zpow_add₀ two_ne_zero, ← hj]
      simp
    have hmul : (n : ℚ) + 1 / 2 = (((2 * n + 1) * 2 ^ j : ℤ) : ℚ) * 2 ^ lastPlace |r| := by
      push_cast
      rw [mul_assoc, hhalf]
      ring
    have hpos : (0 : ℚ) < 2 ^ lastPlace |r| := by positivity
    rw [hmul] at h ⊢
    apply roundSigned_le_of_lt_add_half
    linarith

/-- A float below an integer, widened by less than a half, is not rounded beyond the
widened integer. -/
theorem roundSigned_add_le {u q : ℚ} {n : ℤ} (hu : roundSigned u = u) (hq : roundSigned q = q)
    (hn : roundSigned n = n) (hnonneg : 0 ≤ q) (hhalf : q < 1 / 2) (h : u < n) :
    roundSigned (u + q) ≤ n + q := by
  rcases le_or_gt (u + q) n with hle | hgt
  · have hmono := roundSigned_mono hle
    rw [hn] at hmono
    linarith
  have hgap := zpow_lastPlace_le_sub hu h (by linarith)
  have hround := roundSigned_le_add (u + q)
  rcases le_or_gt (1 / 2) u with hpos | hsmall
  · -- the place at most doubles
    have hplace : lastPlace |u + q| ≤ lastPlace |u| + 1 := by
      rw [abs_of_pos (show 0 < u + q by linarith), abs_of_pos (show 0 < u by linarith)]
      apply lastPlace_le_succ <;> linarith
    have hpow : (2 : ℚ) ^ lastPlace |u + q| ≤ 2 ^ (lastPlace |u| + 1) :=
      zpow_le_zpow_right₀ one_le_two hplace
    rw [zpow_add₀ two_ne_zero, zpow_one] at hpow
    linarith
  · rcases le_or_gt u (-(1 / 2)) with hneg | hsmall'
    · -- the place does not grow
      have hplace : lastPlace |u + q| ≤ lastPlace |u| := by
        rw [abs_of_neg (show u + q < 0 by linarith), abs_of_neg (show u < 0 by linarith)]
        apply lastPlace_mono <;> linarith
      have hpow : (2 : ℚ) ^ lastPlace |u + q| ≤ 2 ^ lastPlace |u| :=
        zpow_le_zpow_right₀ one_le_two hplace
      linarith
    · -- the integer is zero
      have hzero : n = 0 := by
        have hlow : ((-1 : ℤ) : ℚ) < n := by
          push_cast
          linarith
        have hhigh : (n : ℚ) < ((1 : ℤ) : ℚ) := by
          push_cast
          linarith
        have hlow' : -1 < n := by exact_mod_cast hlow
        have hhigh' : n < 1 := by exact_mod_cast hhigh
        omega
      rw [hzero, Int.cast_zero] at h ⊢
      have hmono := roundSigned_mono (show u + q ≤ q by linarith)
      rw [hq] at hmono
      linarith

/-! ## Values of floats -/

/-- A finite float is fixed by rounding and does not overflow. -/
theorem bounds_of_floatValue {x : Float} {r : ℚ} (h : floatValue x = .finite r) :
    roundSigned r = r ∧ -overflow < r ∧ r < overflow := by
  have hfix := roundExact_floatValue x
  rw [h, roundExact] at hfix
  unfold saturate at hfix
  split at hfix
  · cases hfix
  · split at hfix
    · cases hfix
    next hlow hhigh =>
      have heq := Exact.finite.inj hfix
      rw [heq] at hlow hhigh
      exact ⟨heq, not_le.mp hlow, not_le.mp hhigh⟩

theorem exists_overflow_eq : ∃ N : ℤ, overflow = N := by
  refine ⟨2 ^ (1024 : ℕ), ?_⟩
  rw [overflow, Int.cast_pow, Int.cast_ofNat]
  exact zpow_ofNat 2 1024

theorem add_half_lt_overflow {n : ℤ} (h : (n : ℚ) < overflow) : (n : ℚ) + 1 / 2 < overflow := by
  obtain ⟨N, hN⟩ := exists_overflow_eq
  rw [hN] at h ⊢
  have hle : n + 1 ≤ N := by exact_mod_cast h
  have hcast : (n : ℚ) + 1 ≤ N := by exact_mod_cast hle
  linarith

/-- What is rounded to at most a number between the ends of the floats is at most that
number. -/
theorem saturate_le {r s : ℚ} (h : r ≤ s) (hlow : -overflow < s) (hhigh : s < overflow) :
    saturate r ≤ .finite s := by
  rw [← saturate_of_lt hlow hhigh]
  exact saturate_mono h

theorem saturate_neg (r : ℚ) : saturate (-r) = (saturate r).neg := by
  have hpos := overflow_pos
  rcases le_or_gt r (-overflow) with hlow | hlow
  · rw [saturate_of_le hlow, saturate_of_ge (by linarith)]
    rfl
  · rcases le_or_gt overflow r with hhigh | hhigh
    · rw [saturate_of_ge hhigh, saturate_of_le (by linarith)]
      rfl
    · rw [saturate_of_lt hlow hhigh, saturate_of_lt (by linarith) (by linarith)]
      rfl

end Binary64

open Binary64

instance instNearestScalarFloat : NearestScalar Float where
  rounded_neg r := by
    rw [rounded_eq_roundExact, rounded_eq_roundExact, roundExact, roundExact, roundSigned_neg,
      saturate_neg]
  rounded_le_half {a n r} ha h := by
    rw [value_eq_floatValue] at ha
    obtain ⟨hfix, hlow, hhigh⟩ := bounds_of_floatValue ha
    rw [rounded_eq_roundExact]
    exact saturate_le (roundSigned_le_half hfix h) (by linarith) (add_half_lt_overflow hhigh)
  rounded_add_le {a b tol u q n} ha hb htol hnonneg hhalf h := by
    rw [value_eq_floatValue] at ha hb htol
    obtain ⟨hfix, hlow, hhigh⟩ := bounds_of_floatValue hb
    have hend := add_half_lt_overflow hhigh
    rw [rounded_eq_roundExact]
    exact saturate_le (roundSigned_add_le (bounds_of_floatValue ha).1
      (bounds_of_floatValue htol).1 hfix hnonneg hhalf h) (by linarith) (by linarith)

end BranchBound
