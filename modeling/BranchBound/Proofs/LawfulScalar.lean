import Mathlib.Algebra.Order.Ring.Unbundled.Rat
import Mathlib.Order.WithBot
import Mathlib.Tactic.Linarith
import BranchBound.Exact
import BranchBound.Variable

/-!
# Lawful scalars

A scalar stands for an exact one, its *value*: a rational number, an infinity, or
the undefined scalar.  A number system is lawful if its comparisons and its roundings to
integers are those of the values, and if its sums, differences and products are
the exact ones, rounded by `Scalar.ofRat`.  Nothing is said about how far
`ofRat` moves a number, only that it preserves order and fixes what can be
represented.

Exact arithmetic is lawful and does not round at all.  That binary floating
point is lawful is shown in `BranchBound.Proofs.Binary64.Lawful`.
-/

namespace BranchBound

namespace Exact

/-- Place of an exact scalar among the rationals with two ends.  The undefined
scalar has no place; it is sent to the lower end. -/
def level : Exact → WithBot (WithTop ℚ)
  | undefined => ⊥
  | infinite true => ⊥
  | infinite false => ((⊤ : WithTop ℚ) : WithBot (WithTop ℚ))
  | finite r => ((r : WithTop ℚ) : WithBot (WithTop ℚ))

@[simp] theorem finite_le_finite (r s : ℚ) : finite r ≤ finite s ↔ r ≤ s :=
  Iff.rfl

@[simp] theorem finite_lt_finite (r s : ℚ) : finite r < finite s ↔ r < s :=
  Iff.rfl

@[simp] theorem finite_add_finite (r s : ℚ) : finite r + finite s = finite (r + s) :=
  rfl

@[simp] theorem finite_sub_finite (r s : ℚ) : finite r - finite s = finite (r - s) := by
  rw [sub_eq_add_neg]
  rfl

@[simp] theorem finite_mul_finite (r s : ℚ) : finite r * finite s = finite (r * s) :=
  rfl

theorem infinite_mul_finite (negative : Bool) {r : ℚ} (hr : 0 < r) :
    infinite negative * finite r = infinite negative := by
  change scaleInfinite negative r = _
  rw [scaleInfinite, if_neg hr.ne', if_neg hr.le.not_gt]

theorem finite_mul_infinite (negative : Bool) {r : ℚ} (hr : 0 < r) :
    finite r * infinite negative = infinite negative :=
  infinite_mul_finite negative hr

theorem add_finite_zero (a : Exact) : a + finite 0 = a := by
  rcases a with _ | n | r
  · rfl
  · rfl
  · rw [finite_add_finite, add_zero]

theorem sub_finite_zero (a : Exact) : a - finite 0 = a := by
  rcases a with _ | n | r
  · rfl
  · rfl
  · rw [finite_sub_finite, sub_zero]

/-- Scalars are compared by their places, once both are defined. -/
theorem le_iff_level (a b : Exact) :
    a ≤ b ↔ a ≠ undefined ∧ b ≠ undefined ∧ a.level ≤ b.level := by
  change a.le b ↔ _
  rcases a with _ | (_ | _) | r <;> rcases b with _ | (_ | _) | s <;>
    simp [le, level]

/-- Strict comparison of scalars is strict comparison of their places. -/
theorem lt_iff_level (a b : Exact) :
    a < b ↔ a ≠ undefined ∧ b ≠ undefined ∧ a.level < b.level := by
  change a.lt b ↔ _
  have htop (r : ℚ) : ((r : WithTop ℚ) : WithBot (WithTop ℚ)) < ⊤ :=
    WithBot.coe_lt_coe.mpr (WithTop.coe_lt_top r)
  rcases a with _ | (_ | _) | r <;> rcases b with _ | (_ | _) | s <;>
    simp [lt, level, htop]

/-- Defined scalars have places of their own. -/
theorem eq_of_level_eq {a b : Exact} (ha : a ≠ undefined) (hb : b ≠ undefined)
    (h : a.level = b.level) : a = b := by
  rcases a with _ | (_ | _) | r <;> rcases b with _ | (_ | _) | s <;> simp_all [level]

end Exact

namespace Scalar

variable {α : Type} [Scalar α]

/-- The exact scalar that a scalar stands for. -/
def value (a : α) : Exact :=
  if isNaN a then .undefined
  else
    match toRat? a with
    | some r => .finite r
    | none => .infinite (decide (a < ofInt 0))

variable (α) in
/-- An exact result as the number system `α` can express it. -/
def rounded : Exact → Exact
  | .finite r => value (ofRat r : α)
  | a => a

end Scalar

/-- Number systems that compare exactly and compute up to rounding. -/
class LawfulScalar (α : Type) [Scalar α] : Prop where
  /-- What has a rational value is a number. -/
  isNaN_of_toRat? {a : α} {r : ℚ} :
    Scalar.toRat? a = some r → Scalar.isNaN a = false
  le_iff_value (a b : α) : a ≤ b ↔ Scalar.value a ≤ Scalar.value b
  lt_iff_value (a b : α) : a < b ↔ Scalar.value a < Scalar.value b
  value_posInf : Scalar.value (Scalar.posInf : α) = .infinite false
  /-- Integers of up to 53 bits are expressed exactly. -/
  value_ofInt (n : ℤ) :
    n.natAbs ≤ 2 ^ 53 → Scalar.value (Scalar.ofInt n : α) = .finite n
  value_neg (a : α) : Scalar.value (-a) = (Scalar.value a).neg
  value_abs (a : α) : Scalar.value (Scalar.abs a) = (Scalar.value a).abs
  value_floor (a : α) : Scalar.value (Scalar.floor a) =
    (Scalar.value a).mapFinite fun r => r.floor
  value_ceil (a : α) : Scalar.value (Scalar.ceil a) =
    (Scalar.value a).mapFinite fun r => r.ceil
  value_round (a : α) : Scalar.value (Scalar.round a) =
    (Scalar.value a).mapFinite fun r => Exact.nearest r
  /-- Rounding preserves order. -/
  rounded_mono {r s : ℚ} :
    r ≤ s → Scalar.rounded α (.finite r) ≤ Scalar.rounded α (.finite s)
  /-- Rounding fixes the values of scalars. -/
  rounded_value (a : α) : Scalar.rounded α (Scalar.value a) = Scalar.value a
  value_add (a b : α) :
    Scalar.value (a + b) = Scalar.rounded α (Scalar.value a + Scalar.value b)
  value_sub (a b : α) :
    Scalar.value (a - b) = Scalar.rounded α (Scalar.value a - Scalar.value b)
  value_mul (a b : α) :
    Scalar.value (a * b) = Scalar.rounded α (Scalar.value a * Scalar.value b)
  /-- The part beyond the nearest integer is expressed exactly. -/
  value_sub_round (a : α) : Scalar.value (a - Scalar.round a) =
    Scalar.value a - Scalar.value (Scalar.round a)
  /-- The total order extends the strict comparison. -/
  order_of_lt {a b : α} : a < b → Scalar.order a b = .lt
  order_swap (a b : α) : (Scalar.order a b).swap = Scalar.order b a
  order_trans {a b c : α} : (Scalar.order a b).isLE = true →
    (Scalar.order b c).isLE = true → (Scalar.order a c).isLE = true

namespace Scalar

variable {α : Type} [Scalar α]

theorem value_eq_undefined_iff {a : α} : value a = .undefined ↔ isNaN a = true := by
  unfold value
  split
  · simp_all
  · split <;> simp_all

theorem value_ne_undefined {a : α} (ha : isNaN a = false) : value a ≠ .undefined := by
  rw [Ne, value_eq_undefined_iff, ha]
  exact Bool.false_ne_true

/-- Place of a scalar's value. -/
def place (a : α) : WithBot (WithTop ℚ) :=
  (value a).level

variable [LawfulScalar α]

theorem value_eq_finite_iff {a : α} {r : ℚ} : value a = .finite r ↔ toRat? a = some r := by
  unfold value
  constructor
  · intro h
    split at h
    · simp at h
    · split at h <;> simp_all
  · intro h
    simp [LawfulScalar.isNaN_of_toRat? h, h]

theorem isFinite_iff {a : α} : isFinite a = true ↔ ∃ r, value a = .finite r := by
  simp only [isFinite, Option.isSome_iff_exists, value_eq_finite_iff]

/-! ## Order -/

theorem le_iff_place (a b : α) :
    a ≤ b ↔ isNaN a = false ∧ isNaN b = false ∧ place a ≤ place b := by
  rw [LawfulScalar.le_iff_value, Exact.le_iff_level, Ne, Ne, value_eq_undefined_iff,
    value_eq_undefined_iff, Bool.not_eq_true, Bool.not_eq_true, place, place]

theorem lt_iff_place (a b : α) :
    a < b ↔ isNaN a = false ∧ isNaN b = false ∧ place a < place b := by
  rw [LawfulScalar.lt_iff_value, Exact.lt_iff_level, Ne, Ne, value_eq_undefined_iff,
    value_eq_undefined_iff, Bool.not_eq_true, Bool.not_eq_true, place, place]

variable {a b c : α}

theorem isNaN_left_of_le (h : a ≤ b) : isNaN a = false :=
  ((le_iff_place a b).mp h).1

theorem isNaN_right_of_le (h : a ≤ b) : isNaN b = false :=
  ((le_iff_place a b).mp h).2.1

theorem isNaN_right_of_lt (h : a < b) : isNaN b = false :=
  ((lt_iff_place a b).mp h).2.1

protected theorem le_refl (ha : isNaN a = false) : a ≤ a :=
  (le_iff_place a a).mpr ⟨ha, ha, le_rfl⟩

protected theorem le_trans (hab : a ≤ b) (hbc : b ≤ c) : a ≤ c := by
  rw [le_iff_place] at hab hbc ⊢
  exact ⟨hab.1, hbc.2.1, hab.2.2.trans hbc.2.2⟩

protected theorem le_of_lt (h : a < b) : a ≤ b := by
  rw [lt_iff_place] at h
  exact (le_iff_place a b).mpr ⟨h.1, h.2.1, h.2.2.le⟩

protected theorem lt_of_le_of_lt (hab : a ≤ b) (hbc : b < c) : a < c := by
  rw [le_iff_place] at hab
  rw [lt_iff_place] at hbc ⊢
  exact ⟨hab.1, hbc.2.1, hab.2.2.trans_lt hbc.2.2⟩

protected theorem lt_of_lt_of_le (hab : a < b) (hbc : b ≤ c) : a < c := by
  rw [le_iff_place] at hbc
  rw [lt_iff_place] at hab ⊢
  exact ⟨hab.1, hbc.2.1, hab.2.2.trans_le hbc.2.2⟩

protected theorem lt_irrefl (a : α) : ¬a < a := by
  intro h
  exact lt_irrefl _ ((lt_iff_place a a).mp h).2.2

protected theorem lt_trans (hab : a < b) (hbc : b < c) : a < c :=
  Scalar.lt_of_le_of_lt (Scalar.le_of_lt hab) hbc

protected theorem not_lt_of_le (h : a ≤ b) : ¬b < a := by
  intro hlt
  rw [le_iff_place] at h
  rw [lt_iff_place] at hlt
  exact absurd h.2.2 (not_le_of_gt hlt.2.2)

/-- Two numbers are comparable. -/
protected theorem le_of_not_lt (ha : isNaN a = false) (hb : isNaN b = false)
    (h : ¬a < b) : b ≤ a := by
  rw [le_iff_place]
  refine ⟨hb, ha, le_of_not_gt ?_⟩
  intro hlt
  exact h ((lt_iff_place a b).mpr ⟨ha, hb, hlt⟩)

/-- Two numbers of which neither is below the other have one value. -/
theorem value_eq_of_not_lt (ha : isNaN a = false) (hb : isNaN b = false) (hab : ¬a < b)
    (hba : ¬b < a) : value a = value b := by
  have hle := ((le_iff_place b a).mp (Scalar.le_of_not_lt ha hb hab)).2.2
  have hge := ((le_iff_place a b).mp (Scalar.le_of_not_lt hb ha hba)).2.2
  exact Exact.eq_of_level_eq (value_ne_undefined ha) (value_ne_undefined hb)
    (le_antisymm hge hle)

/-! ## Ends -/

theorem isNaN_posInf : isNaN (posInf : α) = false := by
  rw [← Bool.not_eq_true, ← value_eq_undefined_iff, LawfulScalar.value_posInf]
  simp

theorem value_negInf : value (negInf : α) = .infinite true := by
  rw [negInf, LawfulScalar.value_neg, LawfulScalar.value_posInf]
  rfl

theorem negInf_le (ha : isNaN a = false) : negInf ≤ a := by
  rw [LawfulScalar.le_iff_value, Exact.le_iff_level, value_negInf]
  exact ⟨by simp, value_ne_undefined ha, bot_le⟩

theorem le_posInf (ha : isNaN a = false) : a ≤ posInf := by
  rw [LawfulScalar.le_iff_value, Exact.le_iff_level, LawfulScalar.value_posInf]
  exact ⟨value_ne_undefined ha, by simp, le_top⟩

theorem isNaN_of_isFinite (ha : isFinite a = true) : isNaN a = false := by
  obtain ⟨r, hr⟩ := isFinite_iff.mp ha
  exact LawfulScalar.isNaN_of_toRat? (value_eq_finite_iff.mp hr)

theorem lt_posInf_of_isFinite (ha : isFinite a = true) : a < posInf := by
  obtain ⟨r, hr⟩ := isFinite_iff.mp ha
  rw [LawfulScalar.lt_iff_value, LawfulScalar.value_posInf, hr]
  rfl

theorem isFinite_posInf : isFinite (posInf : α) = false := by
  rw [← Bool.not_eq_true, isFinite_iff, LawfulScalar.value_posInf]
  simp

/-! ## Minimum and maximum -/

theorem minimum_le_left (ha : isNaN a = false) : minimum a b ≤ a := by
  unfold minimum
  rw [if_neg (by simp [ha])]
  split
  · exact Scalar.le_of_lt ‹b < a›
  · exact Scalar.le_refl ha

theorem minimum_le_right (ha : isNaN a = false) (hb : isNaN b = false) :
    minimum a b ≤ b := by
  unfold minimum
  rw [if_neg (by simp [ha])]
  split
  · exact Scalar.le_refl hb
  · exact Scalar.le_of_not_lt hb ha ‹¬b < a›

/-- What is not a number gives way to the other scalar. -/
theorem minimum_le_of_isNaN (a : α) {b : α} (hb : isNaN b = false) : minimum a b ≤ b := by
  cases ha : isNaN a with
  | false => exact minimum_le_right ha hb
  | true =>
      rw [minimum, if_pos ha]
      exact Scalar.le_refl hb

omit [LawfulScalar α] in
theorem le_minimum (hab : a ≤ b) (hac : a ≤ c) : a ≤ minimum b c := by
  unfold minimum
  split
  · exact hac
  · split
    · exact hac
    · exact hab

theorem isNaN_minimum (ha : isNaN a = false) (hb : isNaN b = false) :
    isNaN (minimum a b) = false :=
  isNaN_left_of_le (minimum_le_right ha hb)

theorem le_maximum_left (ha : isNaN a = false) : a ≤ maximum a b := by
  unfold maximum
  rw [if_neg (by simp [ha])]
  split
  · exact Scalar.le_of_lt ‹a < b›
  · exact Scalar.le_refl ha

theorem le_maximum_right (a : α) {b : α} (hb : isNaN b = false) : b ≤ maximum a b := by
  cases ha : isNaN a with
  | true =>
      rw [maximum, if_pos ha]
      exact Scalar.le_refl hb
  | false =>
      rw [maximum, if_neg (by simp [ha])]
      split
      · exact Scalar.le_refl hb
      · exact Scalar.le_of_not_lt ha hb ‹¬a < b›

/-- A scalar is below a maximum if it is below one of its parts; nothing is below what is not a
number. -/
theorem lt_maximum_iff (a b c : α) : a < maximum b c ↔ a < b ∨ a < c := by
  unfold maximum
  split
  next hb =>
    have hnot : ¬a < b := fun h => by simp [isNaN_right_of_lt h] at hb
    simp [hnot]
  next hb =>
    rw [Bool.not_eq_true] at hb
    split
    next hbc => exact ⟨Or.inr, fun h => h.elim (fun hab => Scalar.lt_trans hab hbc) id⟩
    next hbc =>
      refine ⟨Or.inl, fun h => h.elim id fun hac => ?_⟩
      exact Scalar.lt_of_lt_of_le hac
        (Scalar.le_of_not_lt hb (isNaN_right_of_lt hac) hbc)

theorem minimum_lt_iff (a b c : α) : minimum b c < a ↔ b < a ∨ c < a := by
  unfold minimum
  split
  next hb =>
    have hnot : ¬b < a := fun h => by simp [isNaN_left_of_le (Scalar.le_of_lt h)] at hb
    simp [hnot]
  next hb =>
    rw [Bool.not_eq_true] at hb
    split
    next hcb => exact ⟨Or.inr, fun h => h.elim (fun hba => Scalar.lt_trans hcb hba) id⟩
    next hcb =>
      refine ⟨Or.inl, fun h => h.elim id fun hca => ?_⟩
      exact Scalar.lt_of_le_of_lt
        (Scalar.le_of_not_lt (isNaN_left_of_le (Scalar.le_of_lt hca)) hb hcb) hca

/-! ## Signs -/

theorem value_zero : value (ofInt 0 : α) = .finite 0 := by
  simpa using LawfulScalar.value_ofInt (α := α) 0 (by decide)

theorem value_one : value (ofInt 1 : α) = .finite 1 := by
  simpa using LawfulScalar.value_ofInt (α := α) 1 (by decide)

theorem isNaN_zero : isNaN (ofInt 0 : α) = false :=
  isNaN_of_isFinite (isFinite_iff.mpr ⟨0, value_zero⟩)

theorem isNaN_one : isNaN (ofInt 1 : α) = false :=
  isNaN_of_isFinite (isFinite_iff.mpr ⟨1, value_one⟩)

theorem ofInt_zero_le_one : (ofInt 0 : α) ≤ ofInt 1 := by
  rw [LawfulScalar.le_iff_value, value_zero, value_one, Exact.finite_le_finite]
  exact zero_le_one

/-- Adding zero does not round. -/
theorem value_add_zero (a : α) : value (a + ofInt 0) = value a := by
  rw [LawfulScalar.value_add, value_zero, Exact.add_finite_zero, LawfulScalar.rounded_value]

/-- Taking zero away does not round. -/
theorem value_sub_zero (a : α) : value (a - ofInt 0) = value a := by
  rw [LawfulScalar.value_sub, value_zero, Exact.sub_finite_zero, LawfulScalar.rounded_value]

theorem rounded_zero : rounded α (.finite 0) = .finite 0 := by
  have h := LawfulScalar.rounded_value (ofInt 0 : α)
  rwa [value_zero] at h

/-- A nonnegative scalar is a nonnegative rational or positive infinity. -/
theorem value_of_nonneg (h : ofInt 0 ≤ a) :
    (∃ r : ℚ, 0 ≤ r ∧ value a = .finite r) ∨ value a = .infinite false := by
  rw [LawfulScalar.le_iff_value, value_zero] at h
  rcases hv : value a with _ | (_ | _) | r
  · rw [hv] at h
    exact h.elim
  · exact Or.inr rfl
  · rw [hv] at h
    exact absurd h Bool.noConfusion
  · rw [hv] at h
    exact Or.inl ⟨r, (Exact.finite_le_finite 0 r).mp h, rfl⟩

/-- A nonnegative scalar times a positive finite one is nonnegative. -/
theorem mul_nonneg {s : ℚ} (ha : ofInt 0 ≤ a) (hb : value b = .finite s) (hs : 0 < s) :
    ofInt 0 ≤ a * b := by
  rw [LawfulScalar.le_iff_value, value_zero, LawfulScalar.value_mul, hb]
  rcases value_of_nonneg ha with ⟨r, hr, hra⟩ | hinf
  · rw [hra, Exact.finite_mul_finite]
    have hmono := LawfulScalar.rounded_mono (α := α) (Rat.mul_nonneg hr hs.le)
    rwa [rounded_zero] at hmono
  · rw [hinf, Exact.infinite_mul_finite false hs]
    rfl

/-- Taking a nonnegative scalar away from a finite one leaves no more than
that. -/
theorem sub_le_self {r : ℚ} (ha : value a = .finite r) (hb : ofInt 0 ≤ b) : a - b ≤ a := by
  rw [LawfulScalar.le_iff_value, LawfulScalar.value_sub]
  rcases value_of_nonneg hb with ⟨s, hs, hsb⟩ | hinf
  · have hle : r - s ≤ r := by linarith
    have hmono := LawfulScalar.rounded_mono (α := α) hle
    have hfix := LawfulScalar.rounded_value a
    rw [ha] at hfix
    rw [ha, hsb, Exact.finite_sub_finite, ← hfix]
    exact hmono
  · rw [ha, hinf]
    rfl

/-- Adding a nonnegative scalar to a finite one leaves no less than that. -/
theorem le_add_self {r : ℚ} (ha : value a = .finite r) (hb : ofInt 0 ≤ b) : a ≤ a + b := by
  rw [LawfulScalar.le_iff_value, LawfulScalar.value_add]
  rcases value_of_nonneg hb with ⟨s, hs, hsb⟩ | hinf
  · have hle : r ≤ r + s := by linarith
    have hmono := LawfulScalar.rounded_mono (α := α) hle
    have hfix := LawfulScalar.rounded_value a
    rw [ha] at hfix
    rw [hfix] at hmono
    rwa [ha, hsb, Exact.finite_add_finite]
  · rw [ha, hinf]
    rfl

end Scalar

end BranchBound
