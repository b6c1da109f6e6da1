import Mathlib.Algebra.BigOperators.Group.Finset.Basic
import Mathlib.Algebra.BigOperators.Ring.Finset
import BranchBound.Proofs.ExactLawful
import BranchBound.Proofs.LatticePoints

/-!
# Rational points

Points and boxes of exact scalars, given by their coordinates as functions of the index.
Sums of products along such points are sums of rationals, so that what the programs
compute on lists can be argued about with finite sums.
-/

namespace BranchBound
namespace Exact

open Finset

variable {n : ℕ} {x y l u : ℕ → ℚ}

/-! ## Finite scalars -/

theorem finite_div_finite (r : ℚ) {s : ℚ} (hs : s ≠ 0) :
    finite r / finite s = finite (r / s) := by
  change (finite r).mul (finite s).inv = _
  rw [inv, if_neg hs, mul, mul_one_div]

theorem minimum_finite (r s : ℚ) :
    Scalar.minimum (finite r) (finite s) = finite (min r s) := by
  have hnumber : Scalar.isNaN (finite r) = false := rfl
  simp only [Scalar.minimum, hnumber, Bool.false_eq_true, if_false, finite_lt_finite]
  split
  · rw [min_eq_right (le_of_lt ‹_›)]
  · rw [min_eq_left (not_lt.mp ‹_›)]

theorem maximum_finite (r s : ℚ) :
    Scalar.maximum (finite r) (finite s) = finite (max r s) := by
  have hnumber : Scalar.isNaN (finite r) = false := rfl
  simp only [Scalar.maximum, hnumber, Bool.false_eq_true, if_false, finite_lt_finite]
  split
  · rw [max_eq_right (le_of_lt ‹_›)]
  · rw [max_eq_left (not_lt.mp ‹_›)]

theorem abs_finite (r : ℚ) : Scalar.abs (finite r) = finite |r| := by
  change finite (if r < 0 then -r else r) = _
  split
  · rw [abs_of_neg ‹_›]
  · rw [abs_of_nonneg (not_lt.mp ‹_›)]

theorem scale_finite (r : ℚ) :
    Scalar.maximum (Scalar.abs (finite r)) (Scalar.ofInt 1) = finite (max |r| 1) := by
  have hone : (Scalar.ofInt 1 : Exact) = finite 1 := rfl
  rw [abs_finite, hone, maximum_finite]

/-- What has to be undercut for an improvement. -/
theorem threshold_finite (b q : ℚ) :
    finite b - finite q * Scalar.maximum (Scalar.abs (finite b)) (Scalar.ofInt 1) =
      finite (b - q * max |b| 1) := by
  rw [scale_finite, finite_mul_finite, finite_sub_finite]

theorem decimal_eq (digits places : ℕ) :
    (Scalar.decimal digits places : Exact) = .finite (digits / 10 ^ places) := by
  have hpower : ((pow10 places : ℕ) : ℚ) = 10 ^ places := Nat.cast_pow 10 places
  have hquotient : mkRat digits (pow10 places) = digits / 10 ^ places := by
    rw [Rat.mkRat_eq_div, hpower, Int.cast_natCast]
  exact congrArg Exact.finite hquotient

theorem isFinite_iff_exists {a : Exact} : Scalar.isFinite a = true ↔ ∃ q, a = finite q := by
  rw [Scalar.isFinite_iff]
  apply exists_congr
  intro q
  rw [value_eq]

/-! ## Points -/

/-- The point with the first `n` values of a function for coordinates. -/
def tuple (n : ℕ) (x : ℕ → ℚ) : List Exact :=
  (List.range n).map fun i => .finite (x i)

@[simp] theorem length_tuple (n : ℕ) (x : ℕ → ℚ) : (tuple n x).length = n := by
  simp [tuple]

theorem getElem?_tuple (n : ℕ) (x : ℕ → ℚ) (i : ℕ) :
    (tuple n x)[i]? = if i < n then some (.finite (x i)) else none := by
  by_cases hi : i < n
  · simp [tuple, hi]
  · simp [tuple, hi]

theorem getElem?_tuple_of_lt {i : ℕ} (hi : i < n) (x : ℕ → ℚ) :
    (tuple n x)[i]? = some (.finite (x i)) := by
  rw [getElem?_tuple, if_pos hi]

theorem getElem?_tuple_eq_some {i : ℕ} {a : Exact} :
    (tuple n x)[i]? = some a ↔ i < n ∧ .finite (x i) = a := by
  rw [getElem?_tuple]
  by_cases hi : i < n
  · simp [hi]
  · simp [hi]

theorem tuple_congr (h : ∀ i < n, x i = y i) : tuple n x = tuple n y := by
  apply List.map_congr_left
  intro i hi
  rw [h i (List.mem_range.mp hi)]

theorem set_tuple (n : ℕ) (x : ℕ → ℚ) (i : ℕ) (a : ℚ) :
    (tuple n x).set i (.finite a) = tuple n (Function.update x i a) := by
  apply List.ext_getElem?
  intro j
  rw [List.getElem?_set, getElem?_tuple, getElem?_tuple, length_tuple]
  by_cases hj : i = j
  · subst hj
    simp
  · simp [hj, Function.update_of_ne (Ne.symm hj)]

/-- A list of finite scalars is a point with rational coordinates. -/
theorem exists_eq_tuple {p : List Exact} (h : ∀ a ∈ p, Scalar.isFinite a = true) :
    ∃ x, p = tuple p.length x := by
  refine ⟨fun i => (p[i]?.bind toRat?).getD 0, ?_⟩
  apply List.ext_getElem?
  intro i
  rw [getElem?_tuple]
  by_cases hi : i < p.length
  · rw [if_pos hi, List.getElem?_eq_getElem hi]
    obtain ⟨q, hq⟩ := isFinite_iff_exists.mp (h _ (List.getElem_mem hi))
    simp [hq, toRat?]
  · rw [if_neg hi, List.getElem?_eq_none (not_lt.mp hi)]

theorem map_finite_eq_tuple (p : List ℚ) : p.map finite = tuple p.length (p.getD · 0) := by
  apply List.ext_getElem?
  intro i
  rw [getElem?_tuple, List.getElem?_map]
  by_cases hi : i < p.length
  · simp [hi]
  · simp [hi]

theorem map_ofInt_eq_tuple (p : List ℤ) :
    p.map (Scalar.ofInt : ℤ → Exact) = tuple p.length fun i => (p.getD i 0 : ℤ) := by
  apply List.ext_getElem?
  intro i
  rw [getElem?_tuple, List.getElem?_map]
  by_cases hi : i < p.length
  · simp [hi, Scalar.ofInt, Scalar.ofRat]
  · simp [hi]

/-! ## Sums -/

theorem dotFrom_map (total : ℚ) (c x : ℕ → ℚ) (indices : List ℕ) :
    Scalar.dotFrom (.finite total) (indices.map fun i => Exact.finite (c i))
      (indices.map fun i => Exact.finite (x i)) =
      .finite (total + (indices.map fun i => c i * x i).sum) := by
  induction indices generalizing total with
  | nil => simp [Scalar.dotFrom]
  | cons i indices ih =>
      rw [List.map_cons, List.map_cons, Scalar.dotFrom, finite_mul_finite, finite_add_finite,
        ih, List.map_cons, List.sum_cons, add_assoc]

/-- The product of two points is the sum of the products of their coordinates. -/
theorem dot_tuple (n : ℕ) (c x : ℕ → ℚ) :
    Scalar.dot (tuple n c) (tuple n x) = .finite (∑ i ∈ range n, c i * x i) := by
  have hzero : (-Scalar.ofInt 0 : Exact) = .finite 0 := by decide
  have hsum : ((List.range n).map fun i => c i * x i).sum = ∑ i ∈ range n, c i * x i := by
    induction n with
    | zero => rfl
    | succ n ih => rw [List.range_succ, sum_range_succ, ← ih]; simp
  rw [Scalar.dot, hzero, tuple, tuple, dotFrom_map, hsum, zero_add]

/-- Changing one coordinate changes one summand. -/
theorem sum_mul_update {i : ℕ} (hi : i < n) (w x : ℕ → ℚ) (a : ℚ) :
    ∑ j ∈ range n, w j * Function.update x i a j =
      ∑ j ∈ range n, w j * x j + w i * (a - x i) := by
  have hdifference : ∑ j ∈ range n, (w j * Function.update x i a j - w j * x j) =
      w i * (a - x i) := by
    rw [sum_eq_single i]
    · rw [Function.update_self]
      ring
    · intro j _ hj
      rw [Function.update_of_ne hj, sub_self]
    · intro hnot
      exact absurd (mem_range.mpr hi) hnot
  rw [sum_sub_distrib] at hdifference
  linarith

/-! ## Boxes -/

/-- The box between two points. -/
def box (n : ℕ) (l u : ℕ → ℚ) : Domain Exact :=
  ⟨(List.range n).map fun i => ⟨.finite (l i), .finite (u i)⟩⟩

@[simp] theorem size_box (n : ℕ) (l u : ℕ → ℚ) : (box n l u).size = n := by
  simp [box, Domain.size]

theorem get?_box_eq_some {i : ℕ} {interval : Interval Exact} :
    (box n l u).get? i = some interval ↔ i < n ∧ ⟨.finite (l i), .finite (u i)⟩ = interval := by
  by_cases hi : i < n
  · simp [box, Domain.get?, hi]
  · simp [box, Domain.get?, hi]

theorem map_lower_box (n : ℕ) (l u : ℕ → ℚ) :
    (box n l u).intervals.map Interval.lower = tuple n l := by
  simp [box, tuple]

theorem holds_box_tuple :
    (box n l u).Holds (tuple n x) ↔ ∀ i < n, l i ≤ x i ∧ x i ≤ u i := by
  simp only [Domain.holds_iff, length_tuple, size_box, true_and]
  constructor
  · intro h i hi
    exact h i _ _ (get?_box_eq_some.mpr ⟨hi, rfl⟩) (getElem?_tuple_of_lt hi x)
  · intro h i interval a hinterval ha
    obtain ⟨hi, rfl⟩ := get?_box_eq_some.mp hinterval
    obtain ⟨-, rfl⟩ := getElem?_tuple_eq_some.mp ha
    exact h i hi

end Exact
end BranchBound
