import BranchBound.Proofs.ExactLawful
import BranchBound.Proofs.Splitting

/-!
# Tolerances

A usable value may exceed a bound by a tolerance, and the bound it is tested against
is a rounded sum.  This module says where such a value can be.  Rounding may let it
exceed the bound by more than the tolerance, but never by so much that an integer
fits in between: this is what `NearestScalar` asks of a number system.

Exact arithmetic is an instance.  That binary floating point is one is shown in
`BranchBound.Proofs.Binary64.Tolerances`.
-/

namespace BranchBound

/-- Number systems that round a widened bound to the nearest scalar. -/
class NearestScalar (α : Type) [Scalar α] : Prop where
  rounded_neg (r : ℚ) :
    Scalar.rounded α (.finite (-r)) = (Scalar.rounded α (.finite r)).neg
  /-- Less than a half above an integer is not rounded beyond the half. -/
  rounded_le_half {a : α} {n : ℤ} {r : ℚ} :
    Scalar.value a = .finite n → r < n + 1 / 2 →
      Scalar.rounded α (.finite r) ≤ .finite (n + 1 / 2)
  /-- A scalar below an integer, widened by less than a half, is not rounded beyond the
  widened integer. -/
  rounded_add_le {a b tol : α} {u q : ℚ} {n : ℤ} :
    Scalar.value a = .finite u → Scalar.value b = .finite n → Scalar.value tol = .finite q →
      0 ≤ q → q < 1 / 2 → u < n → Scalar.rounded α (.finite (u + q)) ≤ .finite (n + q)

instance instNearestScalarExact : NearestScalar Exact where
  rounded_neg r := by
    rw [Exact.rounded_eq, Exact.rounded_eq]
    rfl
  rounded_le_half _ h := by
    rw [Exact.rounded_eq, Exact.finite_le_finite]
    exact h.le
  rounded_add_le _ _ _ _ _ h := by
    rw [Exact.rounded_eq, Exact.finite_le_finite]
    linarith

/-! ## Negation -/

namespace Exact

theorem neg_le_neg {a b : Exact} (h : a ≤ b) : b.neg ≤ a.neg := by
  change a.le b at h
  change b.neg.le a.neg
  rcases a with _ | (_ | _) | r <;> rcases b with _ | (_ | _) | s <;>
    simp_all [le, neg]

theorem neg_neg (a : Exact) : a.neg.neg = a := by
  cases a <;> simp [neg]

theorem neg_add_eq (a b : Exact) : a.neg + b = (a - b).neg := by
  change a.neg.add b = (a.add b.neg).neg
  rcases a with _ | (_ | _) | r <;> rcases b with _ | (_ | _) | s <;>
    simp [add, neg, add_comm]

end Exact

namespace Scalar

variable {α : Type} [Scalar α] [LawfulScalar α]

/-- A scalar that is an integer or infinite. -/
def IsWhole (a : α) : Prop :=
  IsInteger a ∨ ∃ negative, value a = .infinite negative

section

variable [NearestScalar α]

/-- What is at least a lowered bound lies, mirrored, at most at the mirrored bound,
raised. -/
theorem neg_le_neg_add {l tol a : α} (h : l - tol ≤ a) : -a ≤ -l + tol := by
  have hround (x : Exact) : rounded α x.neg = (rounded α x).neg := by
    cases x with
    | undefined => rfl
    | infinite negative => rfl
    | finite r => exact NearestScalar.rounded_neg r
  rw [LawfulScalar.le_iff_value] at h ⊢
  rw [LawfulScalar.value_neg, LawfulScalar.value_add, LawfulScalar.value_neg, Exact.neg_add_eq,
    hround, ← LawfulScalar.value_sub]
  exact Exact.neg_le_neg h

variable {u l tol a : α} {r q : ℚ} {n : ℤ}

/-! ## Integer bounds -/

/-- A value within a tolerance of an integer bound is at most a half above it. -/
theorem le_add_half (h : a ≤ u + tol) (ha : value a = .finite r) (hu : value u = .finite n)
    (htol : value tol = .finite q) (hhalf : q < 1 / 2) : r ≤ n + 1 / 2 := by
  rw [LawfulScalar.le_iff_value, LawfulScalar.value_add, hu, htol, Exact.finite_add_finite,
    ha] at h
  have hround := NearestScalar.rounded_le_half hu (show (n : ℚ) + q < n + 1 / 2 by linarith)
  exact Scalar.le_trans h hround

/-- A value within a tolerance of an integer bound is at most a half below it. -/
theorem sub_half_le (h : l - tol ≤ a) (ha : value a = .finite r) (hl : value l = .finite n)
    (htol : value tol = .finite q) (hhalf : q < 1 / 2) : n - 1 / 2 ≤ r := by
  have hneg : value (-a) = .finite (-r) := by
    rw [LawfulScalar.value_neg, ha]
    rfl
  have hneg' : value (-l) = .finite ((-n : ℤ) : ℚ) := by
    rw [LawfulScalar.value_neg, hl, Int.cast_neg]
    rfl
  have hle := le_add_half (neg_le_neg_add h) hneg hneg' htol hhalf
  push_cast at hle
  linarith

/-! ## Fractional values -/

/-- A fractional value has no integer between itself and an upper bound that it exceeds by
a tolerance. -/
theorem floor_le_of_le_add (h : a ≤ u + tol) (ha : value a = .finite r)
    (htol : value tol = .finite q) (hnonneg : 0 ≤ q) (hfrac : ∀ m : ℤ, q < |r - m|) :
    floor a ≤ u := by
  rw [LawfulScalar.le_iff_value, LawfulScalar.value_add, ha, htol] at h
  have hfloor := value_floor_of_finite ha
  rw [LawfulScalar.le_iff_value, hfloor]
  rcases hu : value u with _ | (_ | _) | w
  · rw [hu] at h
    exact h.elim
  · exact rfl
  · rw [hu] at h
    exact absurd h Bool.noConfusion
  · rw [hu, Exact.finite_add_finite] at h
    rw [Exact.finite_le_finite]
    by_contra hlt
    have hhalf : q < 1 / 2 := (hfrac _).trans_le (Exact.abs_sub_nearest_le_half r)
    have hround := NearestScalar.rounded_add_le hu hfloor htol hnonneg hhalf (not_le.mp hlt)
    have hle : r ≤ r.floor + q := Scalar.le_trans h hround
    have hdist := hfrac r.floor
    rw [abs_of_nonneg (sub_nonneg.mpr (Rat.floor_le r))] at hdist
    linarith

/-- A fractional value has no integer between itself and a lower bound that it falls short
of by a tolerance. -/
theorem le_ceil_of_sub_le (h : l - tol ≤ a) (ha : value a = .finite r)
    (htol : value tol = .finite q) (hnonneg : 0 ≤ q) (hfrac : ∀ m : ℤ, q < |r - m|) :
    l ≤ ceil a := by
  have hneg : value (-a) = .finite (-r) := by
    rw [LawfulScalar.value_neg, ha]
    rfl
  have hfrac' (m : ℤ) : q < |-r - m| := by
    have hmirror : -r - m = -(r - ((-m : ℤ) : ℚ)) := by
      push_cast
      ring
    rw [hmirror, abs_neg]
    exact hfrac (-m)
  have hfloor := floor_le_of_le_add (neg_le_neg_add h) hneg htol hnonneg hfrac'
  rw [LawfulScalar.le_iff_value, value_floor_of_finite hneg, LawfulScalar.value_neg] at hfloor
  have hceil := Exact.neg_le_neg hfloor
  rw [Exact.neg_neg] at hceil
  rw [LawfulScalar.le_iff_value, value_ceil_of_finite ha, Rat.ceil_eq_neg_floor_neg, Int.cast_neg]
  exact hceil

end

end Scalar

end BranchBound
