import BranchBound.Proofs.Binary64.Fields
import BranchBound.Proofs.Binary64.Rounding

/-!
# Rounding by the machine

A machine operation ends with shifting the significand of its exact result to the last
place, cutting bits off and rounding.  This is rounding to the last place as
`Binary64.roundPlace` has it, also when the significand grows by a bit, and what is
packed afterwards is the rounded value or an infinity.
-/

namespace BranchBound.Binary64

open Float.Model

/-! ## Values -/

/-- A magnitude with a sign. -/
def withSign (negative : Bool) (q : ℚ) : ℚ :=
  if negative then -q else q

/-- The exact scalar that a bit pattern stands for. -/
def exactValue : Binary64 → Exact
  | nan => .undefined
  | infinite negative => .infinite negative
  | finite negative m e => .finite (withSign negative (m * 2 ^ e))

theorem withSign_zero (negative : Bool) : withSign negative 0 = 0 := by
  cases negative <;> simp [withSign]

theorem roundSigned_withSign (negative : Bool) {q : ℚ} (hq : 0 ≤ q) :
    roundSigned (withSign negative q) = withSign negative (roundPlace q) := by
  cases negative with
  | false => exact if_neg (not_lt.mpr hq)
  | true =>
      rcases hq.eq_or_lt with rfl | hpos
      · have hzero : roundPlace 0 = 0 := roundPlace_of_mul (n := 0) (by simp)
        simp [withSign, roundSigned, hzero]
      · have hneg : -q < 0 := by linarith
        simp [withSign, roundSigned, hneg]

/-- A canonical pair is below the overflow just if its exponent is not too large. -/
theorem IsCanonical.lt_overflow_iff {m : ℕ} {e : ℤ} (h : IsCanonical m e) :
    (m : ℚ) * 2 ^ e < overflow ↔ e ≤ 971 := by
  unfold overflow
  constructor
  · intro hlt
    by_contra hlarge
    have hm : ((2 : ℚ) ^ (52 : ℤ)) ≤ m := by
      have hnormal := h.normal.resolve_right (by omega)
      exact_mod_cast hnormal
    have hexp : (1024 : ℤ) = 52 + 972 := by norm_num
    have hge : (2 : ℚ) ^ (972 : ℤ) ≤ 2 ^ e := zpow_le_zpow_right₀ one_le_two (by omega)
    rw [hexp, zpow_add₀ two_ne_zero] at hlt
    exact absurd hlt (not_lt.mpr (mul_le_mul hm hge (by positivity) (by positivity)))
  · intro hle
    have hm : (m : ℚ) < 2 ^ (53 : ℤ) := by exact_mod_cast h.lt
    have hexp : (1024 : ℤ) = 53 + 971 := by norm_num
    have hpow : (2 : ℚ) ^ e ≤ 2 ^ (971 : ℤ) := zpow_le_zpow_right₀ one_le_two hle
    rw [hexp, zpow_add₀ two_ne_zero]
    exact mul_lt_mul hm hpow (by positivity) (by positivity)

theorem saturate_withSign_of_lt (negative : Bool) {q : ℚ} (hq : 0 ≤ q) (h : q < overflow) :
    saturate (withSign negative q) = .finite (withSign negative q) := by
  have hpos := overflow_pos
  cases negative <;>
    exact saturate_of_lt (by simp [withSign]; linarith) (by simp [withSign]; linarith)

theorem saturate_withSign_of_ge (negative : Bool) {q : ℚ} (h : overflow ≤ q) :
    saturate (withSign negative q) = .infinite negative := by
  cases negative
  · exact saturate_of_ge h
  · exact saturate_of_le (by simpa [withSign] using h)

/-- The unpacked float of a sign, a significand and an exponent. -/
def ofPair (s : UnpackedFloat.Sign) (m : ℕ) (e : ℤ) : UnpackedFloat :=
  if h : m = 0 then .zero s else .finite s m e (Nat.pos_of_ne_zero h)

theorem isRounded_ofPair (s : UnpackedFloat.Sign) {m : ℕ} {e : ℤ} (h : IsCanonical m e) :
    IsRounded (ofPair s m e) := by
  unfold ofPair
  split
  · trivial
  · exact h

/-- A packed canonical pair has its value, saturated. -/
theorem exactValue_ofPair (s : UnpackedFloat.Sign) {m : ℕ} {e : ℤ} (h : IsCanonical m e) :
    exactValue (ofUnpacked (clip (ofPair s m e))) =
      saturate (withSign (isNegative s) (m * 2 ^ e)) := by
  have hlimit := h.lt_overflow_iff
  unfold ofPair
  split
  next hzero =>
    rw [saturate_withSign_of_lt _ (by positivity) (by simp [hzero, overflow_pos]), hzero]
    simp [clip, ofUnpacked, exactValue]
  next hm =>
    by_cases hlarge : 971 < e
    · rw [clip, if_pos hlarge, saturate_withSign_of_ge _ (not_lt.mp fun hlt =>
        absurd (hlimit.mp hlt) (by omega))]
      rfl
    · rw [clip, if_neg hlarge,
        saturate_withSign_of_lt _ (by positivity) (hlimit.mpr (by omega))]
      rfl

/-! ## Quotients -/

theorem halfEven_eq {num den : ℕ} (hden : 0 < den) :
    (Rounding.halfEven num den : ℤ) = nearestEven (num / den) := by
  have hfloor : ⌊(num : ℚ) / den⌋ = (num / den : ℕ) := by
    rw [Rat.floor_natCast_div_natCast]
    rfl
  have hfrac : (num : ℚ) / den - ((num / den : ℕ) : ℤ) = (num % den : ℕ) / den := by
    have hmod : (num : ℚ) = den * (num / den : ℕ) + (num % den : ℕ) := by
      exact_mod_cast (Nat.div_add_mod num den).symm
    rw [eq_div_iff (by positivity), sub_mul, div_mul_cancel₀ _ (by positivity),
      Int.cast_natCast]
    linarith
  have hden' : (0 : ℚ) < den := by exact_mod_cast hden
  unfold nearestEven Rounding.halfEven
  rw [hfloor, hfrac]
  have hgt : 1 / 2 < ((num % den : ℕ) : ℚ) / den ↔ den < 2 * (num % den) := by
    rw [div_lt_div_iff₀ two_pos hden', one_mul]
    constructor
    · intro h
      exact_mod_cast (by linarith : (den : ℚ) < 2 * (num % den : ℕ))
    · intro h
      have hcast : (den : ℚ) < 2 * (num % den : ℕ) := by exact_mod_cast h
      linarith
  have heq : ((num % den : ℕ) : ℚ) / den = 1 / 2 ↔ 2 * (num % den) = den := by
    rw [div_eq_div_iff hden'.ne' two_ne_zero, one_mul]
    constructor
    · intro h
      exact_mod_cast (by linarith : (2 : ℚ) * (num % den : ℕ) = den)
    · intro h
      have hcast : (2 : ℚ) * (num % den : ℕ) = den := by exact_mod_cast h
      linarith
  have hodd : ((num / den : ℕ) : ℤ) % 2 = 1 ↔ num / den % 2 = 1 := by omega
  simp only [hgt, heq, hodd]
  split <;> simp

/-- The canonical form of a rounded significand and the last place. -/
theorem isCanonical_nearestEven {q : ℚ} (hq : 0 < q) {m : ℕ}
    (hm : (m : ℤ) = nearestEven (q / 2 ^ lastPlace q)) :
    (m ≠ 2 ^ 53 → IsCanonical m (lastPlace q) ∧ (m : ℚ) * 2 ^ lastPlace q = roundPlace q) ∧
      (m = 2 ^ 53 → IsCanonical (2 ^ 52) (lastPlace q + 1) ∧
        ((2 ^ 52 : ℕ) : ℚ) * 2 ^ (lastPlace q + 1) = roundPlace q) := by
  obtain ⟨-, hhigh, hnormal⟩ := nearestEven_bounds hq
  rw [← hm] at hhigh hnormal
  have hplace : -1074 ≤ lastPlace q := le_max_right _ _
  have hvalue : (m : ℚ) * 2 ^ lastPlace q = roundPlace q := by
    rw [roundPlace, ← hm, Int.cast_natCast]
  constructor
  · intro hne
    exact ⟨⟨by omega, hplace, by omega⟩, hvalue⟩
  · intro hcarry
    refine ⟨⟨by norm_num, by omega, by norm_num⟩, ?_⟩
    rw [← hvalue, hcarry, zpow_add₀ two_ne_zero]
    push_cast
    ring

/-! ## Machine operations -/

/-- The mantissa, the first bit that was cut off and whether anything else was. -/
theorem shiftRight_eq (m n : ℕ) :
    (UnpackedFloat.ExtendedMantissa.mk m false false) >>> n =
      ⟨m / 2 ^ n, decide (2 ^ n ≤ 2 * (m % 2 ^ n)),
        decide (2 * (m % 2 ^ n) ≠ 0 ∧ 2 * (m % 2 ^ n) ≠ 2 ^ n)⟩ := by
  change n.repeat UnpackedFloat.ExtendedMantissa.shiftRightOne _ = _
  induction n with
  | zero => simp [Nat.repeat, Nat.mod_one]
  | succ n ih =>
      rw [Nat.repeat, ih, UnpackedFloat.ExtendedMantissa.shiftRightOne]
      have hpos : 0 < 2 ^ n := Nat.two_pow_pos n
      have hmod : m % 2 ^ (n + 1) = m % 2 ^ n + 2 ^ n * (m / 2 ^ n % 2) := by
        rw [pow_succ, Nat.mod_mul]
      have hlt : m % 2 ^ n < 2 ^ n := Nat.mod_lt _ hpos
      have hpow : 2 ^ (n + 1) = 2 * 2 ^ n := by ring
      simp only [UnpackedFloat.ExtendedMantissa.mk.injEq]
      rw [Nat.div_div_eq_div_mul, ← pow_succ, hmod, hpow, ← Bool.decide_or]
      refine ⟨rfl, ?_⟩
      rcases Nat.mod_two_eq_zero_or_one (m / 2 ^ n) with hbit | hbit
      · rw [hbit, Nat.mul_zero, decide_eq_false (by omega), decide_eq_decide]
        exact ⟨rfl, by omega⟩
      · rw [hbit, Nat.mul_one, decide_eq_true (by omega), decide_eq_decide]
        exact ⟨rfl, by omega⟩

/-- Shifting and rounding is rounding the quotient. -/
theorem roundedMantissa_shiftRight (m n : ℕ) :
    ((UnpackedFloat.ExtendedMantissa.mk m false false) >>> n).roundedMantissa =
      Rounding.halfEven m (2 ^ n) := by
  rw [shiftRight_eq, UnpackedFloat.ExtendedMantissa.roundedMantissa]
  unfold Rounding.halfEven
  have hlt : m % 2 ^ n < 2 ^ n := Nat.mod_lt _ (Nat.two_pow_pos n)
  rcases lt_trichotomy (2 * (m % 2 ^ n)) (2 ^ n) with hless | hequal | hmore
  · rw [decide_eq_false (show ¬2 ^ n ≤ 2 * (m % 2 ^ n) by omega), if_neg (by omega)]
    cases decide (2 * (m % 2 ^ n) ≠ 0 ∧ 2 * (m % 2 ^ n) ≠ 2 ^ n) <;> rfl
  · rw [decide_eq_true (show 2 ^ n ≤ 2 * (m % 2 ^ n) by omega), decide_eq_false (by omega)]
    change m / 2 ^ n + m / 2 ^ n % 2 = _
    rcases Nat.mod_two_eq_zero_or_one (m / 2 ^ n) with heven | hodd
    · rw [if_neg (by omega), heven]
      rfl
    · rw [if_pos (by omega), hodd]
  · rw [decide_eq_true (show 2 ^ n ≤ 2 * (m % 2 ^ n) by omega), decide_eq_true (by omega),
      if_pos (Or.inl hmore)]
    rfl

theorem log_mul_zpow {m : ℕ} (hm : 0 < m) (e : ℤ) :
    Int.log 2 ((m : ℚ) * 2 ^ e) = m.log2 + e := by
  have hlow : (2 : ℚ) ^ (m.log2 : ℤ) ≤ m := by
    exact_mod_cast Nat.log2_self_le hm.ne'
  have hhigh : (m : ℚ) < 2 ^ ((m.log2 : ℤ) + 1) := by
    exact_mod_cast Nat.lt_log2_self
  refine log_eq ?_ ?_
  · rw [zpow_add₀ two_ne_zero]
    gcongr
  · rw [add_right_comm, zpow_add₀ two_ne_zero]
    gcongr

theorem targetExponent_eq {m : ℕ} (hm : 0 < m) (e : ℤ) :
    Format.binary64.targetExponent (totalExponent m e) = lastPlace (m * 2 ^ e) := by
  rw [lastPlace, log_mul_zpow hm]
  have hbits : Format.binary64.mantissaBits = 53 := by decide
  have hmin : Format.binary64.minExponent = -1074 := by decide
  rw [Format.targetExponent, totalExponent, hbits, hmin]
  omega

/-- A rounded significand is shifted once more just if it has grown by a bit. -/
theorem shift_rounded {n : ℕ} {g : ℤ} (hn : n ≤ 2 ^ 53) (hg : -1074 ≤ g) :
    ((UnpackedFloat.shiftToTargetExponent Format.binary64 n g .exact).1.mantissa,
      (UnpackedFloat.shiftToTargetExponent Format.binary64 n g .exact).2) =
      if n = 2 ^ 53 then (2 ^ 52, g + 1) else (n, g) := by
  have hbits : Format.binary64.mantissaBits = 53 := by decide
  have hmin : Format.binary64.minExponent = -1074 := by decide
  simp only [UnpackedFloat.shiftToTargetExponent, UnpackedFloat.shiftToExponent,
    UnpackedFloat.ExtendedMantissa.ofMantissaAndAccuracy, Format.targetExponent, totalExponent,
    shiftRight_eq, hbits, hmin]
  by_cases hcarry : n = 2 ^ 53
  · have hshift : (max ((n.log2 : ℤ) + 1 + g - (53 : ℕ)) (-1074) - g).toNat = 1 := by
      rw [hcarry, Nat.log2_two_pow]
      omega
    rw [hshift, if_pos hcarry, hcarry]
    rfl
  · have hlog : n.log2 ≤ 52 := by
      rcases Nat.eq_zero_or_pos n with rfl | hpos
      · decide
      · have hlt := (Nat.log2_lt hpos.ne').mpr (show n < 2 ^ 53 by omega)
        omega
    have hshift : (max ((n.log2 : ℤ) + 1 + g - (53 : ℕ)) (-1074) - g).toNat = 0 := by omega
    rw [hshift, if_neg hcarry]
    simp

/-- The rounding at the end of a machine operation: the canonical form of the rounded
significand and the last place. -/
theorem roundWithAccuracy_eq (s : UnpackedFloat.Sign) {m : ℕ} {e : ℤ} (hm : 0 < m)
    (he : e ≤ lastPlace (m * 2 ^ e)) :
    ∃ n : ℕ, (n : ℤ) = nearestEven ((m * 2 ^ e) / 2 ^ lastPlace (m * 2 ^ e)) ∧
      UnpackedFloat.roundWithAccuracy Format.binary64 s m e .exact =
        if n = 2 ^ 53 then ofPair s (2 ^ 52) (lastPlace (m * 2 ^ e) + 1)
        else ofPair s n (lastPlace (m * 2 ^ e)) := by
  obtain ⟨k, hk⟩ := Int.le.dest he
  have hquotient : (m : ℚ) / (2 ^ k : ℕ) = (m * 2 ^ e) / 2 ^ lastPlace (m * 2 ^ e) := by
    rw [← hk, zpow_add₀ two_ne_zero, zpow_natCast, mul_comm ((2 : ℚ) ^ e),
      mul_div_mul_right _ _ (by positivity)]
    push_cast
    rfl
  have hn : (Rounding.halfEven m (2 ^ k) : ℤ) =
      nearestEven ((m * 2 ^ e) / 2 ^ lastPlace (m * 2 ^ e)) := by
    rw [halfEven_eq (Nat.two_pow_pos k), hquotient]
  refine ⟨Rounding.halfEven m (2 ^ k), hn, ?_⟩
  have hle : Rounding.halfEven m (2 ^ k) ≤ 2 ^ 53 := by
    have hbound := (nearestEven_bounds (q := m * 2 ^ e) (by positivity)).2.1
    rw [← hn] at hbound
    exact_mod_cast hbound
  have hshift := shift_rounded hle (show -1074 ≤ lastPlace (m * 2 ^ e) from le_max_right _ _)
  have hfirst : UnpackedFloat.shiftToTargetExponent Format.binary64 m e .exact =
      (UnpackedFloat.ExtendedMantissa.mk m false false >>> k, lastPlace (m * 2 ^ e)) := by
    have hamount : (e + (k : ℤ) - e).toNat = k := by omega
    unfold UnpackedFloat.shiftToTargetExponent
    rw [targetExponent_eq hm, UnpackedFloat.shiftToExponent, ← hk, hamount]
    rfl
  unfold UnpackedFloat.roundWithAccuracy
  simp only [hfirst, roundedMantissa_shiftRight]
  change ofPair s (UnpackedFloat.shiftToTargetExponent Format.binary64
      (Rounding.halfEven m (2 ^ k)) (lastPlace (m * 2 ^ e)) .exact).1.mantissa
    (UnpackedFloat.shiftToTargetExponent Format.binary64
      (Rounding.halfEven m (2 ^ k)) (lastPlace (m * 2 ^ e)) .exact).2 = _
  by_cases hcarry : Rounding.halfEven m (2 ^ k) = 2 ^ 53
  · rw [if_pos hcarry] at hshift ⊢
    obtain ⟨hmantissa, hexponent⟩ := Prod.mk.inj hshift
    rw [hmantissa, hexponent]
  · rw [if_neg hcarry] at hshift ⊢
    obtain ⟨hmantissa, hexponent⟩ := Prod.mk.inj hshift
    rw [hmantissa, hexponent]

/-- The value of a float after a machine operation has rounded and packed it. -/
def packedValue (u : UnpackedFloat) : Exact :=
  exactValue (ofUnpacked (clip u))

theorem packedValue_ofPair_carry (s : UnpackedFloat.Sign) {q : ℚ} (hq : 0 < q) {n : ℕ}
    (hn : (n : ℤ) = nearestEven (q / 2 ^ lastPlace q)) :
    IsRounded (if n = 2 ^ 53 then ofPair s (2 ^ 52) (lastPlace q + 1)
        else ofPair s n (lastPlace q)) ∧
      packedValue (if n = 2 ^ 53 then ofPair s (2 ^ 52) (lastPlace q + 1)
        else ofPair s n (lastPlace q)) =
      saturate (withSign (isNegative s) (roundPlace q)) := by
  obtain ⟨hplain, hcarry⟩ := isCanonical_nearestEven hq hn
  by_cases h : n = 2 ^ 53
  · obtain ⟨hcanonical, hvalue⟩ := hcarry h
    rw [if_pos h, packedValue, exactValue_ofPair s hcanonical, hvalue]
    exact ⟨isRounded_ofPair s hcanonical, rfl⟩
  · obtain ⟨hcanonical, hvalue⟩ := hplain h
    rw [if_neg h, packedValue, exactValue_ofPair s hcanonical, hvalue]
    exact ⟨isRounded_ofPair s hcanonical, rfl⟩

theorem packedValue_roundWithAccuracy (s : UnpackedFloat.Sign) {m : ℕ} {e : ℤ} (hm : 0 < m)
    (he : e ≤ lastPlace (m * 2 ^ e)) :
    IsRounded (UnpackedFloat.roundWithAccuracy Format.binary64 s m e .exact) ∧
      packedValue (UnpackedFloat.roundWithAccuracy Format.binary64 s m e .exact) =
        saturate (withSign (isNegative s) (roundPlace (m * 2 ^ e))) := by
  obtain ⟨n, hn, hround⟩ := roundWithAccuracy_eq s hm he
  rw [hround]
  exact packedValue_ofPair_carry s (by positivity) hn

theorem decreaseExponent_eq (m : ℕ) (e target : ℤ) :
    ((UnpackedFloat.decreaseExponent m e target).1 : ℚ) *
        2 ^ (UnpackedFloat.decreaseExponent m e target).2 = m * 2 ^ e ∧
      (UnpackedFloat.decreaseExponent m e target).2 = min e target := by
  simp only [UnpackedFloat.decreaseExponent]
  constructor
  · rw [Nat.shiftLeft_eq, zpow_sub₀ two_ne_zero, zpow_natCast]
    push_cast
    field_simp
  · omega

/-- Rounding a significand and an exponent of any size. -/
theorem packedValue_round (s : UnpackedFloat.Sign) {m : ℕ} (hm : 0 < m) (e : ℤ) :
    IsRounded (UnpackedFloat.round Format.binary64 s m e) ∧
      packedValue (UnpackedFloat.round Format.binary64 s m e) =
        saturate (withSign (isNegative s) (roundPlace (m * 2 ^ e))) := by
  obtain ⟨hvalue, hexponent⟩ := decreaseExponent_eq m e (lastPlace (m * 2 ^ e))
  have hround : UnpackedFloat.round Format.binary64 s m e =
      UnpackedFloat.roundWithAccuracy Format.binary64 s
        (UnpackedFloat.decreaseExponent m e (lastPlace (m * 2 ^ e))).1
        (UnpackedFloat.decreaseExponent m e (lastPlace (m * 2 ^ e))).2 .exact := by
    rw [← targetExponent_eq hm]
    rfl
  rw [hround]
  generalize (UnpackedFloat.decreaseExponent m e (lastPlace (m * 2 ^ e))).1 = m' at hvalue ⊢
  generalize (UnpackedFloat.decreaseExponent m e (lastPlace (m * 2 ^ e))).2 = e'
    at hvalue hexponent ⊢
  have hm' : 0 < m' := by
    rcases Nat.eq_zero_or_pos m' with rfl | hpos
    · have hpos : (0 : ℚ) < m * 2 ^ e := by positivity
      rw [← hvalue] at hpos
      simp at hpos
    · exact hpos
  rw [← hvalue] at hexponent ⊢
  exact packedValue_roundWithAccuracy s hm' (hexponent.le.trans (min_le_right _ _))

/-- Rounding a signed significand. -/
theorem packedValue_normalize (m e : ℤ) (s : UnpackedFloat.Sign) :
    IsRounded (UnpackedFloat.normalize Format.binary64 m e s) ∧
      packedValue (UnpackedFloat.normalize Format.binary64 m e s) =
        saturate (roundSigned (m * 2 ^ e)) := by
  unfold UnpackedFloat.normalize
  rcases lt_trichotomy m 0 with hneg | rfl | hpos
  · have habs : (((-m).toNat : ℕ) : ℚ) = -m := by
      exact_mod_cast Int.toNat_of_nonneg (show 0 ≤ -m by omega)
    obtain ⟨hrounded, hvalue⟩ :=
      packedValue_round .negative (show 0 < (-m).toNat by omega) e
    rw [Int.compare_eq_lt.mpr hneg]
    refine ⟨hrounded, hvalue.trans ?_⟩
    rw [← roundSigned_withSign _ (by positivity), habs]
    simp [withSign, isNegative]
  · refine ⟨trivial, ?_⟩
    rw [Int.cast_zero, zero_mul, roundSigned, if_neg (lt_irrefl 0),
      roundPlace_of_mul (n := 0) (by simp), saturate_of_lt (by simp [overflow_pos]) overflow_pos]
    change Exact.finite (withSign _ ((0 : ℕ) * 2 ^ minExponent)) = _
    rw [Nat.cast_zero, zero_mul, withSign_zero]
  · have habs : ((m.toNat : ℕ) : ℚ) = m := by
      exact_mod_cast Int.toNat_of_nonneg (show 0 ≤ m by omega)
    obtain ⟨hrounded, hvalue⟩ := packedValue_round .positive (show 0 < m.toNat by omega) e
    rw [Int.compare_eq_gt.mpr hpos]
    refine ⟨hrounded, hvalue.trans ?_⟩
    rw [← roundSigned_withSign _ (by positivity), habs]
    rfl

end BranchBound.Binary64
