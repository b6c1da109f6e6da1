import Mathlib.Algebra.Order.Floor.Ring
import Mathlib.Data.Rat.Floor
import BranchBound.Proofs.LawfulScalar

/-!
# Integer parts

Where a lawful scalar stands between two integers.  A value splits the integers
into those up to its floor and those from its ceiling on, and no integer is on
both sides unless the value is one.  The distance to the nearest integer is what
`fractionality` computes, without rounding.
-/

namespace BranchBound

/-- A rational is at most a half away from its nearest integer. -/
theorem Exact.abs_sub_nearest_le_half (r : ℚ) : |r - Exact.nearest r| ≤ 1 / 2 := by
  unfold Exact.nearest
  split
  · have h₁ := Rat.le_ceil (x := r - 1 / 2)
    have h₂ := Rat.ceil_lt (x := r - 1 / 2)
    rw [abs_le]
    constructor <;> linarith
  · have h₁ := Rat.floor_le (r + 1 / 2)
    have h₂ := Rat.lt_floor_add_one (r + 1 / 2)
    push_cast at h₂
    rw [abs_le]
    constructor <;> linarith

/-- No integer is closer to a rational than its nearest one. -/
theorem Exact.abs_sub_nearest_le (r : ℚ) (n : ℤ) : |r - Exact.nearest r| ≤ |r - n| := by
  by_cases hn : Exact.nearest r = n
  · rw [hn]
  · have hgap : (1 : ℚ) ≤ |(Exact.nearest r : ℚ) - n| := by
      have hint : (1 : ℤ) ≤ |Exact.nearest r - n| := Int.one_le_abs (sub_ne_zero.mpr hn)
      exact_mod_cast hint
    have hhalf := Exact.abs_sub_nearest_le_half r
    have htri : |(Exact.nearest r : ℚ) - n| ≤ |r - Exact.nearest r| + |r - n| := by
      have h := abs_sub_le (Exact.nearest r : ℚ) r n
      rwa [abs_sub_comm (Exact.nearest r : ℚ) r] at h
    linarith

theorem Exact.nearest_intCast (n : ℤ) : Exact.nearest n = n := by
  have hdist := Exact.abs_sub_nearest_le n n
  rw [sub_self, abs_zero] at hdist
  exact_mod_cast (sub_eq_zero.mp (abs_nonpos_iff.mp hdist)).symm

namespace Scalar

variable {α : Type} [Scalar α]

/-- A scalar with an integer value. -/
def IsInteger (a : α) : Prop :=
  ∃ n : ℤ, value a = .finite n

variable [LawfulScalar α] {a p : α} {r : ℚ}

theorem value_floor_of_finite (h : value a = .finite r) :
    value (floor a) = .finite (r.floor : ℤ) := by
  rw [LawfulScalar.value_floor, h]
  rfl

theorem value_ceil_of_finite (h : value a = .finite r) :
    value (ceil a) = .finite (r.ceil : ℤ) := by
  rw [LawfulScalar.value_ceil, h]
  rfl

/-- Every integer is at or below the floor of a value, or at or above its
ceiling. -/
theorem le_floor_or_ceil_le (hp : IsInteger p) (ha : value a = .finite r) :
    p ≤ floor a ∨ ceil a ≤ p := by
  obtain ⟨n, hn⟩ := hp
  rw [LawfulScalar.le_iff_value p, LawfulScalar.le_iff_value (ceil a),
    value_floor_of_finite ha, value_ceil_of_finite ha, hn, Exact.finite_le_finite,
    Exact.finite_le_finite]
  rcases le_or_gt (n : ℚ) r with h | h
  · left
    exact_mod_cast Rat.le_floor_iff.mpr h
  · right
    exact_mod_cast Rat.ceil_le_iff.mpr h.le

/-- No integer is on both sides of a value that is not one. -/
theorem not_le_floor_and_ceil_le (ha : value a = .finite r) (hr : r.floor < r)
    (hfloor : p ≤ floor a) (hceil : ceil a ≤ p) : False := by
  have h := Scalar.le_trans hceil hfloor
  rw [LawfulScalar.le_iff_value, value_floor_of_finite ha, value_ceil_of_finite ha,
    Exact.finite_le_finite] at h
  have hc := Rat.le_ceil (x := r)
  linarith

/-- Fractionality is the distance to the nearest integer. -/
theorem value_fractionality (ha : value a = .finite r) :
    value (fractionality a) = .finite |r - Exact.nearest r| := by
  have hround : value (round a) = .finite (Exact.nearest r : ℤ) := by
    rw [LawfulScalar.value_round, ha]
    rfl
  rw [fractionality, LawfulScalar.value_abs, LawfulScalar.value_sub_round, ha, hround,
    Exact.finite_sub_finite, Exact.abs]
  congr 1
  split
  · rw [abs_of_neg ‹_›]
  · rw [abs_of_nonneg (not_lt.mp ‹_›)]

/-- A scalar below the fractionality of a value is below its distance to every
integer. -/
theorem lt_abs_sub_of_lt_fractionality {tol : α} {t : ℚ} (ha : value a = .finite r)
    (htol : value tol = .finite t) (h : tol < fractionality a) (n : ℤ) : t < |r - n| := by
  rw [LawfulScalar.lt_iff_value, htol, value_fractionality ha, Exact.finite_lt_finite] at h
  exact h.trans_le (Exact.abs_sub_nearest_le r n)

/-- A nonnegative scalar below some fractionality is finite. -/
theorem value_of_lt_fractionality {tol : α} (ha : value a = .finite r)
    (htol : ofInt 0 ≤ tol) (h : tol < fractionality a) :
    ∃ t : ℚ, 0 ≤ t ∧ value tol = .finite t := by
  rcases value_of_nonneg htol with ht | hinf
  · exact ht
  · rw [LawfulScalar.lt_iff_value, hinf, value_fractionality ha] at h
    exact absurd h Bool.noConfusion

/-- A value whose fractionality exceeds a nonnegative tolerance is not an
integer. -/
theorem floor_lt_of_lt_fractionality {tol : α} (ha : value a = .finite r)
    (htol : ofInt 0 ≤ tol) (h : tol < fractionality a) : r.floor < r := by
  obtain ⟨t, ht, htv⟩ := value_of_lt_fractionality ha htol h
  have hdist := lt_abs_sub_of_lt_fractionality ha htv h r.floor
  refine lt_of_le_of_ne (Rat.floor_le r) ?_
  intro heq
  rw [heq, sub_self, abs_zero] at hdist
  linarith

end Scalar

end BranchBound
