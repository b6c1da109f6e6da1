import BranchBound.Proofs.Binary64.Operations

/-!
# Comparison of floats

Floats are compared by their exponents first and by their significands then.  In
canonical form this is the order of their values, and the rank of a bit pattern
extends it.
-/

namespace BranchBound.Binary64

open Float.Model

/-! ## Magnitudes -/

/-- Of two canonical pairs the one with the smaller exponent is smaller. -/
theorem IsCanonical.mul_lt_of_lt {m m' : ℕ} {e e' : ℤ} (h : IsCanonical m e)
    (h' : IsCanonical m' e') (hlt : e < e') : (m : ℚ) * 2 ^ e < m' * 2 ^ e' := by
  have hm : (m : ℚ) < 2 ^ (53 : ℤ) := by exact_mod_cast h.lt
  have hm' : (2 : ℚ) ^ (52 : ℤ) ≤ m' := by
    have hlow := h.le
    have hnormal := h'.normal.resolve_right (by omega)
    exact_mod_cast hnormal
  have hexp : (2 : ℚ) ^ (e + 1) ≤ 2 ^ e' := zpow_le_zpow_right₀ one_le_two (by omega)
  calc
    (m : ℚ) * 2 ^ e < 2 ^ (53 : ℤ) * 2 ^ e := by gcongr
    _ = 2 ^ (52 : ℤ) * 2 ^ (e + 1) := by
      rw [← zpow_add₀ two_ne_zero, ← zpow_add₀ two_ne_zero]
      congr 1
      ring
    _ ≤ m' * 2 ^ e' := by gcongr

/-- Canonical pairs are compared by exponent and then by significand. -/
theorem IsCanonical.compare_eq {m m' : ℕ} {e e' : ℤ} (h : IsCanonical m e)
    (h' : IsCanonical m' e') :
    (compare e e').then (compare m m') = cmp ((m : ℚ) * 2 ^ e) (m' * 2 ^ e') := by
  rcases lt_trichotomy e e' with hlt | rfl | hgt
  · rw [Int.compare_eq_lt.mpr hlt, (cmp_eq_lt_iff _ _).mpr (h.mul_lt_of_lt h' hlt)]
    rfl
  · have hpos : (0 : ℚ) < 2 ^ e := by positivity
    rw [cmp_mul_pos_right hpos, Int.compare_eq_eq.mpr rfl]
    rcases lt_trichotomy m m' with hlt | rfl | hgt
    · rw [Nat.compare_eq_lt.mpr hlt, (cmp_eq_lt_iff _ _).mpr (by exact_mod_cast hlt)]
      rfl
    · rw [Nat.compare_eq_eq.mpr rfl, cmp_self_eq_eq]
      rfl
    · rw [Nat.compare_eq_gt.mpr hgt, (cmp_eq_gt_iff _ _).mpr (by exact_mod_cast hgt)]
      rfl
  · rw [Int.compare_eq_gt.mpr hgt, (cmp_eq_gt_iff _ _).mpr (h'.mul_lt_of_lt h hgt)]
    rfl

/-! ## Values -/

theorem cmp_neg_neg (q r : ℚ) : cmp (-q) (-r) = cmp r q := by
  simp only [cmp, cmpUsing, neg_lt_neg_iff]

theorem cmp_zero_withSign (negative : Bool) {q : ℚ} (hq : 0 < q) :
    cmp 0 (withSign negative q) = if negative then .gt else .lt := by
  cases negative with
  | false => exact (cmp_eq_lt_iff _ _).mpr hq
  | true => exact (cmp_eq_gt_iff _ _).mpr (neg_neg_of_pos hq)

theorem cmp_withSign_zero (negative : Bool) {q : ℚ} (hq : 0 < q) :
    cmp (withSign negative q) 0 = if negative then .lt else .gt := by
  rw [← cmp_swap, cmp_zero_withSign negative hq]
  cases negative <;> rfl

/-- Two stored floats other than zero compare like their values. -/
theorem compare_finite {a b : UnpackedFloat.Sign} {m m' : ℕ} {e e' : ℤ} {hm : 0 < m}
    {hm' : 0 < m'} (hu : IsStored (.finite a m e hm)) (hv : IsStored (.finite b m' e' hm')) :
    (UnpackedFloat.finite a m e hm).compare (.finite b m' e' hm') =
      some (cmp (withSign (isNegative a) (m * 2 ^ e))
        (withSign (isNegative b) (m' * 2 ^ e'))) := by
  have hpos : (0 : ℚ) < m * 2 ^ e := by positivity
  have hpos' : (0 : ℚ) < m' * 2 ^ e' := by positivity
  have hcmp := hu.isCanonical.1.compare_eq hv.isCanonical.1
  cases a with
  | negative =>
      cases b with
      | negative => simp [UnpackedFloat.compare, hcmp, cmp_neg_neg, withSign, isNegative]
      | positive =>
          rw [(cmp_eq_lt_iff _ _).mpr (by simp [withSign, isNegative]; linarith)]
          rfl
  | positive =>
      cases b with
      | negative =>
          rw [(cmp_eq_gt_iff _ _).mpr (by simp [withSign, isNegative]; linarith)]
          rfl
      | positive => simp [UnpackedFloat.compare, hcmp, withSign, isNegative]

/-- Two stored floats with rational values compare like these values. -/
theorem compare_eq_cmp {u v : UnpackedFloat} {r s : ℚ} (hu : IsStored u) (hv : IsStored v)
    (hr : unpackedValue u = .finite r) (hs : unpackedValue v = .finite s) :
    u.compare v = some (cmp r s) := by
  cases u with
  | notANumber => cases hr
  | infinity a => cases hr
  | zero a =>
      rw [unpackedValue_zero] at hr
      cases hr
      cases v with
      | notANumber => cases hs
      | infinity b => cases hs
      | zero b =>
          rw [unpackedValue_zero] at hs
          cases hs
          rfl
      | finite b m' e' hm' =>
          cases hs
          rw [cmp_zero_withSign _ (by positivity)]
          cases b <;> rfl
  | finite a m e hm =>
      cases hr
      cases v with
      | notANumber => cases hs
      | infinity b => cases hs
      | zero b =>
          rw [unpackedValue_zero] at hs
          cases hs
          rw [cmp_withSign_zero _ (by positivity)]
          cases a <;> rfl
      | finite b m' e' hm' =>
          cases hs
          exact compare_finite hu hv

theorem isLE_cmp (r s : ℚ) : (cmp r s).isLE = true ↔ r ≤ s := by
  rcases lt_trichotomy r s with hlt | rfl | hgt
  · simp [(cmp_eq_lt_iff _ _).mpr hlt, hlt.le]
  · simp
  · simp [(cmp_eq_gt_iff _ _).mpr hgt, hgt]

/-- The order of two exact scalars, if both are defined. -/
def compareExact : Exact → Exact → Option Ordering
  | .finite r, .finite s => some (cmp r s)
  | .infinite n, .infinite m => some (if n = m then .eq else if n then .lt else .gt)
  | .infinite n, .finite _ => some (if n then .lt else .gt)
  | .finite _, .infinite m => some (if m then .gt else .lt)
  | _, _ => none

theorem isLE_compareExact (a b : Exact) :
    (compareExact a b).any (·.isLE) = true ↔ a ≤ b := by
  rcases a with _ | (_ | _) | r <;> rcases b with _ | (_ | _) | s
  case finite.finite => exact isLE_cmp r s
  all_goals simp [compareExact, LE.le, Exact.le]

theorem compareExact_eq_lt (a b : Exact) : compareExact a b = some .lt ↔ a < b := by
  rcases a with _ | (_ | _) | r <;> rcases b with _ | (_ | _) | s
  case finite.finite => rw [compareExact, Option.some_inj, cmp_eq_lt_iff, Exact.finite_lt_finite]
  all_goals simp [compareExact, LT.lt, Exact.lt]

/-- Stored floats are compared by their values. -/
theorem compare_eq_compareExact {u v : UnpackedFloat} (hu : IsStored u) (hv : IsStored v) :
    u.compare v = compareExact (unpackedValue u) (unpackedValue v) := by
  have hfinite {r s : ℚ} (hr : unpackedValue u = .finite r) (hs : unpackedValue v = .finite s) :
      u.compare v = compareExact (unpackedValue u) (unpackedValue v) := by
    rw [compare_eq_cmp hu hv hr hs, hr, hs, compareExact]
  cases u with
  | notANumber => rfl
  | infinity a =>
      cases v with
      | notANumber => cases a <;> rfl
      | infinity b => cases a <;> cases b <;> rfl
      | zero b => cases a <;> rfl
      | finite b m' e' hm' => cases a <;> rfl
  | zero a =>
      cases v with
      | notANumber => rfl
      | infinity b => cases b <;> rfl
      | zero b => exact hfinite (unpackedValue_zero a) (unpackedValue_zero b)
      | finite b m' e' hm' => exact hfinite (unpackedValue_zero a) rfl
  | finite a m e hm =>
      cases v with
      | notANumber => cases a <;> rfl
      | infinity b => cases a <;> cases b <;> rfl
      | zero b => exact hfinite rfl (unpackedValue_zero b)
      | finite b m' e' hm' => exact hfinite rfl rfl

/-- The exact scalar that a float stands for. -/
def floatValue (x : Float) : Exact :=
  unpackedValue x.toModel.unpack

theorem le_iff_floatValue (x y : Float) : x ≤ y ↔ floatValue x ≤ floatValue y := by
  rw [← isLE_compareExact, floatValue, floatValue,
    ← compare_eq_compareExact (isStored_unpack x) (isStored_unpack y)]
  change decide (x.toModel ≤ y.toModel) = true ↔ _
  rw [decide_eq_true_iff]
  rfl

theorem lt_iff_floatValue (x y : Float) : x < y ↔ floatValue x < floatValue y := by
  rw [← compareExact_eq_lt, floatValue, floatValue,
    ← compare_eq_compareExact (isStored_unpack x) (isStored_unpack y)]
  change decide (x.toModel < y.toModel) = true ↔ _
  rw [decide_eq_true_iff, ← beq_iff_eq]
  rfl

/-! ## The value of a float -/

theorem magnitude_eq (m : ℕ) (e : ℤ) : magnitude m e = m * 2 ^ e := by
  unfold magnitude
  split
  next he =>
    obtain ⟨k, rfl⟩ := Int.eq_ofNat_of_zero_le he
    rw [Int.toNat_natCast, pow2_eq, zpow_natCast]
    push_cast
    rfl
  next he =>
    obtain ⟨k, hk⟩ := Int.eq_ofNat_of_zero_le (show 0 ≤ -e by omega)
    obtain rfl : e = -(k : ℤ) := by omega
    rw [neg_neg, Int.toNat_natCast, pow2_eq, Rat.mkRat_eq_div, zpow_neg, zpow_natCast,
      div_eq_mul_inv]
    push_cast
    rfl

theorem floatValue_eq_decode (x : Float) : floatValue x = exactValue (decode x) := by
  rw [decode_eq]
  rfl

theorem floatValue_ofFields_zero (negative : Bool) :
    floatValue (ofFields negative 0 0) = .finite 0 := by
  rw [floatValue_eq_decode, decode_ofFields (by decide) (by decide)]
  change Exact.finite (withSign _ ((0 : ℕ) * 2 ^ minExponent)) = _
  rw [Nat.cast_zero, zero_mul, withSign_zero]

theorem floatValue_of_decode {x : Float} {negative : Bool} {m : ℕ} {e : ℤ}
    (h : decode x = finite negative m e) :
    floatValue x = .finite (withSign negative (m * 2 ^ e)) := by
  rw [floatValue_eq_decode, h]
  rfl

theorem isNaN_iff_decode (x : Float) : x.isNaN = true ↔ decode x = nan := by
  rw [decode_eq, Float.isNaN, Float.Model.isNaN]
  cases x.toModel.unpack <;> simp [UnpackedFloat.isNaN, ofUnpacked]

theorem toRat?_of_decode {x : Float} {negative : Bool} {m : ℕ} {e : ℤ}
    (h : decode x = finite negative m e) :
    toRat? x = some (withSign negative (m * 2 ^ e)) := by
  rw [← magnitude_eq]
  simp only [toRat?, h, withSign]

/-- The value of a float as a scalar. -/
theorem value_eq_floatValue (x : Float) : Scalar.value x = floatValue x := by
  have hnan : (Scalar.isNaN x : Bool) = x.isNaN := rfl
  have hrat : (Scalar.toRat? x : Option ℚ) = toRat? x := rfl
  rw [Scalar.value, hnan, hrat]
  cases hx : decode x with
  | nan =>
      rw [if_pos ((isNaN_iff_decode x).mpr hx), floatValue_eq_decode, hx]
      rfl
  | infinite negative =>
      have hnumber : ¬x.isNaN = true := by
        rw [isNaN_iff_decode, hx]
        exact nofun
      have hnone : toRat? x = none := by simp only [toRat?, hx]
      have hvalue : floatValue x = .infinite negative := by
        rw [floatValue_eq_decode, hx]
        rfl
      have hzero : floatValue (Scalar.ofInt 0 : Float) = .finite 0 :=
        floatValue_ofFields_zero false
      have hlt : x < Scalar.ofInt 0 ↔ negative = true := by
        rw [lt_iff_floatValue, hvalue, hzero]
        rfl
      rw [if_neg hnumber, hnone, hvalue]
      simp [hlt]
  | finite negative m e =>
      have hnumber : ¬x.isNaN = true := by
        rw [isNaN_iff_decode, hx]
        exact nofun
      rw [if_neg hnumber, toRat?_of_decode hx, floatValue_eq_decode, hx]
      rfl

/-! ## Ranks -/

/-- Rank of a sign and the remaining bits. -/
def signedRank (negative : Bool) (k : ℤ) : ℤ :=
  if negative then -k - 1 else k

/-- Rank of what a bit pattern stands for; what is not a number has none. -/
def rankOf : Binary64 → ℤ
  | nan => 0
  | infinite negative => signedRank negative (2047 * 2 ^ 52)
  | finite negative m e => signedRank negative ((e + 1074) * 2 ^ 52 + m)

theorem rankOf_assemble (negative : Bool) {biased fraction : ℕ}
    (h : assemble negative biased fraction ≠ nan) :
    rankOf (assemble negative biased fraction) =
      signedRank negative (biased * 2 ^ 52 + fraction) := by
  unfold assemble at h ⊢
  split at h
  next hall =>
    split at h
    next hzero =>
      rw [if_pos hall, if_pos hzero, rankOf, hall, hzero]
      rfl
    next => exact absurd rfl h
  next hall =>
    rw [if_neg hall]
    split
    next hnone =>
      rw [rankOf, hnone, minExponent]
      rfl
    next =>
      rw [rankOf, pow2_eq]
      congr 1
      push_cast
      ring

theorem rank_eq_rankOf {x : Float} (hx : decode x ≠ nan) : rank x = rankOf (decode x) := by
  have hlt : x.toBits.toNat < 2 ^ 64 := x.toBits.toNat_lt
  rw [decode_eq_assemble] at hx ⊢
  rw [rankOf_assemble _ hx, rank, pow2_eq, pow2_eq, pow2_eq]
  by_cases hneg : 2 ^ 63 ≤ x.toBits.toNat
  · simp only [signedRank, decide_eq_true hneg, if_pos hneg, if_true]
    omega
  · simp only [signedRank, decide_eq_false hneg, if_neg hneg, Bool.false_eq_true, if_false]
    omega

/-- Canonical pairs rank like their values. -/
theorem IsCanonical.rank_lt {m m' : ℕ} {e e' : ℤ} (h : IsCanonical m e) (h' : IsCanonical m' e')
    (hlt : (m : ℚ) * 2 ^ e < m' * 2 ^ e') :
    (e + 1074) * 2 ^ 52 + m < (e' + 1074) * 2 ^ 52 + m' := by
  rcases lt_trichotomy e e' with hexp | rfl | hexp
  · obtain ⟨hm, he, -⟩ := h
    obtain ⟨-, -, hnormal⟩ := h'
    omega
  · have hpos : (0 : ℚ) < 2 ^ e := by positivity
    have hsig : m < m' := by exact_mod_cast lt_of_mul_lt_mul_right hlt hpos.le
    omega
  · exact absurd hlt (h'.mul_lt_of_lt h hexp).not_gt

theorem IsCanonical.rank_bounds {m : ℕ} {e : ℤ} (h : IsCanonical m e) (he : e ≤ 971) :
    0 ≤ (e + 1074) * 2 ^ 52 + m ∧ (e + 1074) * 2 ^ 52 + m < 2047 * 2 ^ 52 := by
  obtain ⟨hlt, hle, -⟩ := h
  omega

/-- Finite floats rank between the infinities. -/
theorem IsCanonical.signedRank_bounds {m : ℕ} {e : ℤ} (h : IsCanonical m e) (he : e ≤ 971)
    (negative : Bool) :
    signedRank true (2047 * 2 ^ 52) < signedRank negative ((e + 1074) * 2 ^ 52 + m) ∧
      signedRank negative ((e + 1074) * 2 ^ 52 + m) < signedRank false (2047 * 2 ^ 52) := by
  obtain ⟨hlow, hhigh⟩ := h.rank_bounds he
  cases negative <;>
    simp only [signedRank, if_true, if_false, Bool.false_eq_true] <;> omega

theorem signedRank_lt_of_canonical {negative negative' : Bool} {m m' : ℕ} {e e' : ℤ}
    (h : IsCanonical m e ∧ e ≤ 971) (h' : IsCanonical m' e' ∧ e' ≤ 971)
    (hlt : withSign negative ((m : ℚ) * 2 ^ e) < withSign negative' (m' * 2 ^ e')) :
    signedRank negative ((e + 1074) * 2 ^ 52 + m) <
      signedRank negative' ((e' + 1074) * 2 ^ 52 + m') := by
  obtain ⟨hnonneg, -⟩ := h.1.rank_bounds h.2
  obtain ⟨hnonneg', -⟩ := h'.1.rank_bounds h'.2
  have hq : (0 : ℚ) ≤ m * 2 ^ e := by positivity
  have hq' : (0 : ℚ) ≤ m' * 2 ^ e' := by positivity
  cases negative <;> cases negative' <;>
    simp only [withSign, signedRank, if_true, if_false, Bool.false_eq_true] at hlt ⊢
  · exact h.1.rank_lt h'.1 hlt
  · linarith
  · omega
  · have hrank := h'.1.rank_lt h.1 (neg_lt_neg_iff.mp hlt)
    omega

/-- The rank of a float grows with its value. -/
theorem rank_lt_of_lt {x y : Float} (h : x < y) : rank x < rank y := by
  rw [lt_iff_floatValue, floatValue_eq_decode, floatValue_eq_decode] at h
  have hx : decode x ≠ nan := by
    intro hnan
    rw [hnan] at h
    exact h
  have hy : decode y ≠ nan := by
    intro hnan
    rw [hnan] at h
    exact ((Exact.lt_iff_level _ _).mp h).2.1 rfl
  rw [rank_eq_rankOf hx, rank_eq_rankOf hy]
  cases hdx : decode x with
  | nan => exact absurd hdx hx
  | infinite negative =>
      cases hdy : decode y with
      | nan => exact absurd hdy hy
      | infinite negative' =>
          rw [hdx, hdy] at h
          obtain ⟨rfl, rfl⟩ := h
          decide
      | finite negative' m' e' =>
          obtain ⟨hcanonical, he⟩ := isCanonical_decode hdy
          rw [hdx, hdy] at h
          obtain rfl : negative = true := h
          exact (hcanonical.signedRank_bounds he negative').1
  | finite negative m e =>
      cases hdy : decode y with
      | nan => exact absurd hdy hy
      | infinite negative' =>
          obtain ⟨hcanonical, he⟩ := isCanonical_decode hdx
          rw [hdx, hdy] at h
          obtain rfl : negative' = false := h
          exact (hcanonical.signedRank_bounds he negative).2
      | finite negative' m' e' =>
          rw [hdx, hdy] at h
          exact signedRank_lt_of_canonical (isCanonical_decode hdx) (isCanonical_decode hdy) h

end BranchBound.Binary64
