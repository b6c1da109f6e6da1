import Mathlib.Algebra.Order.Field.Power
import Mathlib.Data.Int.Log
import Mathlib.Data.Rat.Floor
import Mathlib.Tactic.Linarith
import Mathlib.Tactic.Positivity
import Mathlib.Tactic.Ring
import BranchBound.Exact

/-!
# Rounding to a float

What it means to round a rational number to the nearest float: its magnitude is
rounded to a multiple of the last place, a half to the even neighbour, and what is
too large becomes an infinity.  This preserves order, and it fixes the numbers with at most
53 bits.
-/

namespace BranchBound.Binary64

/-! ## Nearest integers -/

/-- The nearest integer, a half to the even neighbour. -/
def nearestEven (x : ℚ) : ℤ :=
  if 1 / 2 < x - ⌊x⌋ ∨ (x - ⌊x⌋ = 1 / 2 ∧ ⌊x⌋ % 2 = 1) then ⌊x⌋ + 1 else ⌊x⌋

theorem floor_le_nearestEven (x : ℚ) : ⌊x⌋ ≤ nearestEven x := by
  unfold nearestEven
  split <;> omega

theorem nearestEven_le_floor_add_one (x : ℚ) : nearestEven x ≤ ⌊x⌋ + 1 := by
  unfold nearestEven
  split <;> omega

theorem nearestEven_intCast (n : ℤ) : nearestEven n = n := by
  unfold nearestEven
  rw [Int.floor_intCast, sub_self, if_neg (by norm_num)]

theorem nearestEven_mono {x y : ℚ} (h : x ≤ y) : nearestEven x ≤ nearestEven y := by
  rcases lt_or_eq_of_le (Int.floor_le_floor h) with hlt | heq
  · have hx := nearestEven_le_floor_add_one x
    have hy := floor_le_nearestEven y
    omega
  · unfold nearestEven
    rw [← heq]
    split
    next hx =>
      have hy : 1 / 2 < y - ⌊x⌋ ∨ (y - ⌊x⌋ = 1 / 2 ∧ ⌊x⌋ % 2 = 1) := by
        rcases hx with hx | ⟨hx, hodd⟩
        · exact Or.inl (by linarith)
        · rcases lt_or_eq_of_le (show 1 / 2 ≤ y - ⌊x⌋ by linarith) with hy | hy
          · exact Or.inl hy
          · exact Or.inr ⟨hy.symm, hodd⟩
      rw [if_pos hy]
    next =>
      split <;> omega

/-! ## Last places -/

/-- Exponent of the last place of the floats around a positive rational. -/
def lastPlace (q : ℚ) : ℤ :=
  max (Int.log 2 q - 52) (-1074)

/-- A nonnegative rational rounded to a multiple of its last place. -/
def roundPlace (q : ℚ) : ℚ :=
  nearestEven (q / 2 ^ lastPlace q) * 2 ^ lastPlace q

theorem log_eq {q : ℚ} {k : ℤ} (hlow : 2 ^ k ≤ q) (hhigh : q < 2 ^ (k + 1)) :
    Int.log 2 q = k := by
  have hq : 0 < q := lt_of_lt_of_le (by positivity) hlow
  have hle := (Int.zpow_le_iff_le_log Nat.one_lt_two hq).mp (by exact_mod_cast hlow)
  have hlt := (Int.lt_zpow_iff_log_lt Nat.one_lt_two hq).mp (by exact_mod_cast hhigh)
  omega

theorem zpow_log_le {q : ℚ} (hq : 0 < q) : (2 : ℚ) ^ Int.log 2 q ≤ q := by
  exact_mod_cast Int.zpow_log_le_self Nat.one_lt_two hq

theorem lt_zpow_log (q : ℚ) : q < (2 : ℚ) ^ (Int.log 2 q + 1) := by
  exact_mod_cast Int.lt_zpow_succ_log_self Nat.one_lt_two q

/-- A multiple of the last place stays as it is. -/
theorem roundPlace_of_mul {q : ℚ} {n : ℤ} (h : q = n * 2 ^ lastPlace q) : roundPlace q = q := by
  have hdiv : q / 2 ^ lastPlace q = n := by
    rw [div_eq_iff (by positivity)]
    exact h
  rw [roundPlace, hdiv, nearestEven_intCast, ← h]

/-- `d * 2 ^ e` with at most 53 bits in `d` is a multiple of its last place. -/
theorem roundPlace_eq_self {d : ℕ} {e : ℤ} {q : ℚ} (hq : q = d * 2 ^ e) (hd : d < 2 ^ 53)
    (he : -1074 ≤ e) : roundPlace q = q := by
  rcases Nat.eq_zero_or_pos d with rfl | hpos
  · refine roundPlace_of_mul (n := 0) ?_
    simp [hq]
  · have hqpos : 0 < q := by
      rw [hq]
      positivity
    have hlt : q < 2 ^ (53 + e) := by
      rw [hq, zpow_add₀ two_ne_zero]
      have hcast : (d : ℚ) < 2 ^ (53 : ℤ) := by exact_mod_cast hd
      exact mul_lt_mul_of_pos_right hcast (by positivity)
    have hlog := (Int.lt_zpow_iff_log_lt Nat.one_lt_two hqpos).mp (by exact_mod_cast hlt)
    have hplace : lastPlace q ≤ e := by
      unfold lastPlace
      omega
    obtain ⟨k, hk⟩ := Int.le.dest hplace
    refine roundPlace_of_mul (n := d * 2 ^ k) ?_
    calc
      q = d * 2 ^ (lastPlace q + k) := by rw [hk, hq]
      _ = d * (2 ^ lastPlace q * 2 ^ k) := by rw [zpow_add₀ two_ne_zero, zpow_natCast]
      _ = ((d * 2 ^ k : ℤ) : ℚ) * 2 ^ lastPlace q := by push_cast; ring

theorem zpow_div_lastPlace {q : ℚ} {k : ℤ} (hk : lastPlace q ≤ k) :
    ∃ n : ℤ, (2 : ℚ) ^ k = n * 2 ^ lastPlace q := by
  obtain ⟨j, hj⟩ := Int.le.dest hk
  refine ⟨2 ^ j, ?_⟩
  rw [← hj, zpow_add₀ two_ne_zero, zpow_natCast, mul_comm]
  push_cast
  rfl

/-- Rounding does not cross a power of two that is a multiple of the last place. -/
theorem roundPlace_le_zpow {q : ℚ} {k : ℤ} (hk : lastPlace q ≤ k) (h : q ≤ 2 ^ k) :
    roundPlace q ≤ 2 ^ k := by
  obtain ⟨n, hn⟩ := zpow_div_lastPlace hk
  rw [hn] at h ⊢
  have hdiv : q / 2 ^ lastPlace q ≤ n := (div_le_iff₀ (by positivity)).mpr h
  have hround := nearestEven_mono hdiv
  rw [nearestEven_intCast] at hround
  unfold roundPlace
  gcongr

theorem zpow_le_roundPlace {q : ℚ} {k : ℤ} (hk : lastPlace q ≤ k) (h : 2 ^ k ≤ q) :
    2 ^ k ≤ roundPlace q := by
  obtain ⟨n, hn⟩ := zpow_div_lastPlace hk
  rw [hn] at h ⊢
  have hdiv : n ≤ q / 2 ^ lastPlace q := (le_div_iff₀ (by positivity)).mpr h
  have hround := nearestEven_mono hdiv
  rw [nearestEven_intCast] at hround
  unfold roundPlace
  gcongr

/-- Rounding to the last place preserves order. -/
theorem roundPlace_mono {q q' : ℚ} (hq : 0 < q) (h : q ≤ q') : roundPlace q ≤ roundPlace q' := by
  have hlog : Int.log 2 q ≤ Int.log 2 q' := Int.log_mono_right hq h
  by_cases heq : lastPlace q = lastPlace q'
  · unfold roundPlace
    rw [heq]
    gcongr
    exact nearestEven_mono (by gcongr)
  · -- a power of two separates the two numbers
    unfold lastPlace at heq
    have hlow : q ≤ 2 ^ Int.log 2 q' := (lt_zpow_log q).le.trans
      (zpow_le_zpow_right₀ one_le_two (by omega))
    have hhigh := zpow_log_le (hq.trans_le h)
    exact (roundPlace_le_zpow (by unfold lastPlace; omega) hlow).trans
      (zpow_le_roundPlace (by unfold lastPlace; omega) hhigh)

/-- The significand of a rounded number has at most 53 bits, or is the next power of
two; it has 53 bits unless the last place is the least one. -/
theorem nearestEven_bounds {q : ℚ} (hq : 0 < q) :
    0 ≤ nearestEven (q / 2 ^ lastPlace q) ∧ nearestEven (q / 2 ^ lastPlace q) ≤ 2 ^ 53 ∧
      (2 ^ 52 ≤ nearestEven (q / 2 ^ lastPlace q) ∨ lastPlace q = -1074) := by
  have hplace : (0 : ℚ) < 2 ^ lastPlace q := by positivity
  refine ⟨?_, ?_, ?_⟩
  · have h : ((0 : ℤ) : ℚ) ≤ q / 2 ^ lastPlace q := by
      push_cast
      positivity
    have hround := nearestEven_mono h
    rwa [nearestEven_intCast] at hround
  · have h : q / 2 ^ lastPlace q ≤ ((2 ^ 53 : ℤ) : ℚ) := by
      have hcast : ((2 ^ 53 : ℤ) : ℚ) = 2 ^ (53 : ℤ) := by norm_num
      rw [div_le_iff₀ hplace, hcast, ← zpow_add₀ two_ne_zero]
      refine (lt_zpow_log q).le.trans (zpow_le_zpow_right₀ one_le_two ?_)
      unfold lastPlace
      omega
    have hround := nearestEven_mono h
    rwa [nearestEven_intCast] at hround
  · by_cases hmin : lastPlace q = -1074
    · exact Or.inr hmin
    · left
      have hlast : lastPlace q = Int.log 2 q - 52 := by
        unfold lastPlace at hmin ⊢
        omega
      have h : ((2 ^ 52 : ℤ) : ℚ) ≤ q / 2 ^ lastPlace q := by
        have hcast : ((2 ^ 52 : ℤ) : ℚ) = 2 ^ (52 : ℤ) := by norm_num
        rw [le_div_iff₀ hplace, hcast, ← zpow_add₀ two_ne_zero, hlast, add_sub_cancel]
        exact zpow_log_le hq
      have hround := nearestEven_mono h
      rwa [nearestEven_intCast] at hround

/-! ## Overflow -/

/-- A rational as a float can express it: its sign is kept and its magnitude is rounded
to the last place. -/
def roundSigned (r : ℚ) : ℚ :=
  if r < 0 then -roundPlace (-r) else roundPlace r

/-- The least power of two that is too large for a float. -/
@[irreducible] def overflow : ℚ :=
  2 ^ (1024 : ℤ)

/-- An exact value with what is too large for a float replaced by an infinity. -/
def saturate (r : ℚ) : Exact :=
  if r ≤ -overflow then .infinite true
  else if overflow ≤ r then .infinite false
  else .finite r

theorem overflow_pos : 0 < overflow := by
  unfold overflow
  positivity

theorem roundPlace_nonneg {q : ℚ} (hq : 0 ≤ q) : 0 ≤ roundPlace q := by
  rcases hq.eq_or_lt with rfl | hpos
  · rw [roundPlace_of_mul (n := 0) (by simp)]
  · exact mul_nonneg (by exact_mod_cast (nearestEven_bounds hpos).1) (by positivity)

theorem roundPlace_mono_nonneg {q q' : ℚ} (hq : 0 ≤ q) (h : q ≤ q') :
    roundPlace q ≤ roundPlace q' := by
  rcases hq.eq_or_lt with rfl | hpos
  · rw [roundPlace_of_mul (n := 0) (by simp)]
    exact roundPlace_nonneg h
  · exact roundPlace_mono hpos h

theorem roundSigned_mono {r s : ℚ} (h : r ≤ s) : roundSigned r ≤ roundSigned s := by
  unfold roundSigned
  by_cases hr : r < 0
  · rw [if_pos hr]
    by_cases hs : s < 0
    · rw [if_pos hs, neg_le_neg_iff]
      exact roundPlace_mono_nonneg (by linarith) (by linarith)
    · rw [if_neg hs]
      have hleft := roundPlace_nonneg (q := -r) (by linarith)
      have hright := roundPlace_nonneg (q := s) (by linarith)
      linarith
  · rw [if_neg hr, if_neg (by linarith)]
    exact roundPlace_mono_nonneg (by linarith) h

theorem saturate_of_le {r : ℚ} (h : r ≤ -overflow) : saturate r = .infinite true :=
  if_pos h

theorem saturate_of_ge {r : ℚ} (h : overflow ≤ r) : saturate r = .infinite false := by
  have hpos := overflow_pos
  rw [saturate, if_neg (by linarith), if_pos h]

theorem saturate_of_lt {r : ℚ} (hlow : -overflow < r) (hhigh : r < overflow) :
    saturate r = .finite r := by
  rw [saturate, if_neg (not_le.mpr hlow), if_neg (not_le.mpr hhigh)]

theorem saturate_mono {r s : ℚ} (h : r ≤ s) : saturate r ≤ saturate s := by
  have hpos := overflow_pos
  rcases le_or_gt r (-overflow) with hr | hr
  · rw [saturate_of_le hr]
    rcases le_or_gt s (-overflow) with hs | hs
    · rw [saturate_of_le hs]
      exact id
    · rcases le_or_gt overflow s with hs' | hs'
      · rw [saturate_of_ge hs']
        exact fun hm => Bool.noConfusion hm
      · rw [saturate_of_lt hs hs']
        exact rfl
  · rcases le_or_gt overflow r with hr' | hr'
    · rw [saturate_of_ge hr', saturate_of_ge (hr'.trans h)]
      exact id
    · rw [saturate_of_lt hr hr']
      rcases le_or_gt overflow s with hs | hs
      · rw [saturate_of_ge hs]
        exact rfl
      · rw [saturate_of_lt (hr.trans_le h) hs]
        exact h

end BranchBound.Binary64
