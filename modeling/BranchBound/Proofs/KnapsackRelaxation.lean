import Mathlib.Algebra.Order.BigOperators.Ring.Finset
import Mathlib.Data.Rat.BigOperators
import Mathlib.Data.Real.Basic
import BranchBound.Proofs.Filling

/-!
# The relaxation of a knapsack

With positive integer weights and integer bounds the relaxation of a knapsack is solved
exactly.  A price proves that no point of the box which satisfies the constraint is
cheaper than the filled one; this holds for the points over any ordered field.
-/

namespace BranchBound

open Finset

/-! ## Prices -/

/-- A point is a cheapest one among those with a load on the right side of its own, if
items can be decreased only at more than the price and increased only at less. -/
theorem sum_le_sum_of_price
    {K : Type*} [Field K] [LinearOrder K] [IsStrictOrderedRing K] {n : ℕ}
    {c w l u x y : ℕ → K} {price : K}
    (hhigh : ∀ i < n, x i < u i → price * w i ≤ c i)
    (hlow : ∀ i < n, l i < x i → c i ≤ price * w i)
    (hy : ∀ i < n, l i ≤ y i ∧ y i ≤ u i)
    (hload : 0 ≤ price * (∑ i ∈ range n, w i * y i - ∑ i ∈ range n, w i * x i)) :
    ∑ i ∈ range n, c i * x i ≤ ∑ i ∈ range n, c i * y i := by
  have hterm : ∀ i ∈ range n, 0 ≤ (c i - price * w i) * (y i - x i) := by
    intro i hi
    have hin := mem_range.mp hi
    rcases lt_trichotomy (x i) (y i) with hlt | heq | hgt
    · have hprice := hhigh i hin (hlt.trans_le (hy i hin).2)
      exact mul_nonneg (by linarith) (by linarith)
    · rw [heq, sub_self, mul_zero]
    · have hprice := hlow i hin ((hy i hin).1.trans_lt hgt)
      exact mul_nonneg_of_nonpos_of_nonpos (by linarith) (by linarith)
  have hsum := sum_nonneg hterm
  have hsplit : ∑ i ∈ range n, (c i - price * w i) * (y i - x i) =
      (∑ i ∈ range n, c i * y i - ∑ i ∈ range n, c i * x i) -
        price * (∑ i ∈ range n, w i * y i - ∑ i ∈ range n, w i * x i) := by
    rw [← sum_sub_distrib, ← sum_sub_distrib, mul_sum, ← sum_sub_distrib]
    apply sum_congr rfl
    intro i _
    ring
  rw [hsplit] at hsum
  linarith

namespace IntegralKnapsack

open Exact

variable (k : IntegralKnapsack) {l u : ℕ → ℤ} {x : ℕ → ℚ}

/-! ## Feasible points -/

section Points

variable {K : Type*} [Field K] [LinearOrder K] [IsStrictOrderedRing K] {y : ℕ → K}

/-- A point between the bounds that satisfies the constraint. -/
structure IsFeasible (l u : ℕ → ℤ) (y : ℕ → K) : Prop where
  inside : ∀ i < k.n, (l i : K) ≤ y i ∧ y i ≤ u i
  load : if k.equality then ∑ i ∈ range k.n, (k.weights i : K) * y i = k.capacity
    else ∑ i ∈ range k.n, (k.weights i : K) * y i ≤ k.capacity

/-- A feasible point with a price, as filling the items leaves it. -/
structure IsPriced (l u : ℕ → ℤ) (x : ℕ → ℚ) (price : ℚ) : Prop where
  feasible : k.IsFeasible l u x
  weight_integral : ∀ i < k.n, ∃ m : ℤ, (k.weights i : ℚ) * x i = m
  one_fractional : ∀ i < k.n, ∀ j < k.n, i ≠ j → (∃ m : ℤ, x i = m) ∨ ∃ m : ℤ, x j = m
  high : ∀ i < k.n, x i < u i → price * k.weights i ≤ k.costs i
  low : ∀ i < k.n, (l i : ℚ) < x i → k.costs i ≤ price * k.weights i
  slack : k.equality = false → price ≤ 0 ∧
    price * (k.capacity - ∑ i ∈ range k.n, (k.weights i : ℚ) * x i) = 0

variable {k} {price : ℚ}

/-- Loads lie between those of the two corners. -/
theorem load_bounds (hy : ∀ i < k.n, (l i : K) ≤ y i ∧ y i ≤ u i) :
    ((∑ i ∈ range k.n, k.weights i * l i : ℤ) : K) ≤
        ∑ i ∈ range k.n, (k.weights i : K) * y i ∧
      ∑ i ∈ range k.n, (k.weights i : K) * y i ≤
        ((∑ i ∈ range k.n, k.weights i * u i : ℤ) : K) := by
  have hweight : ∀ i ∈ range k.n, (0 : K) ≤ k.weights i := by
    intro i hi
    exact_mod_cast (k.weights_pos i (mem_range.mp hi)).le
  push_cast
  constructor
  · apply sum_le_sum
    intro i hi
    exact mul_le_mul_of_nonneg_left (hy i (mem_range.mp hi)).1 (hweight i hi)
  · apply sum_le_sum
    intro i hi
    exact mul_le_mul_of_nonneg_left (hy i (mem_range.mp hi)).2 (hweight i hi)

theorem not_isFeasible
    (h : k.capacity < ∑ i ∈ range k.n, k.weights i * l i ∨
      k.equality = true ∧ ∑ i ∈ range k.n, k.weights i * u i < k.capacity) :
    ¬k.IsFeasible l u y := by
  intro hy
  obtain ⟨hlow, hhigh⟩ := load_bounds hy.inside
  have hload := hy.load
  rcases h with hlight | ⟨hequality, hheavy⟩
  · have hlt : (k.capacity : K) < ((∑ i ∈ range k.n, k.weights i * l i : ℤ) : K) := by
      exact_mod_cast hlight
    split at hload
    · linarith
    · linarith
  · have hlt : ((∑ i ∈ range k.n, k.weights i * u i : ℤ) : K) < (k.capacity : K) := by
      exact_mod_cast hheavy
    rw [if_pos hequality] at hload
    linarith

/-- No feasible point is cheaper than a priced one. -/
theorem IsPriced.cost_le (h : k.IsPriced l u x price) (hy : k.IsFeasible l u y) :
    ((∑ i ∈ range k.n, k.costs i * x i : ℚ) : K) ≤ ∑ i ∈ range k.n, (k.costs i : K) * y i := by
  have hload : 0 ≤ (price : K) * (∑ i ∈ range k.n, (k.weights i : K) * y i -
      ∑ i ∈ range k.n, (k.weights i : K) * (x i : K)) := by
    have hx : ∑ i ∈ range k.n, (k.weights i : K) * (x i : K) =
        ((∑ i ∈ range k.n, (k.weights i : ℚ) * x i : ℚ) : K) := by
      push_cast
      rfl
    have hxload := h.feasible.load
    have hyload := hy.load
    rw [hx]
    cases hequality : k.equality with
    | true =>
        rw [if_pos hequality] at hxload hyload
        rw [hyload, hxload, Rat.cast_intCast, sub_self, mul_zero]
    | false =>
        rw [if_neg (by simp [hequality])] at hyload
        obtain ⟨hprice, hslack⟩ := h.slack hequality
        have hpriceK : (price : K) ≤ 0 := by exact_mod_cast hprice
        have hslackK : (price : K) * (k.capacity -
            ((∑ i ∈ range k.n, (k.weights i : ℚ) * x i : ℚ) : K)) = 0 := by
          exact_mod_cast congrArg (Rat.cast : ℚ → K) hslack
        have hproduct := mul_nonneg_of_nonpos_of_nonpos hpriceK (sub_nonpos.mpr hyload)
        linarith
  have hsum : ∑ i ∈ range k.n, (k.costs i : K) * (x i : K) ≤
      ∑ i ∈ range k.n, (k.costs i : K) * y i := by
    apply sum_le_sum_of_price (l := fun i => (l i : K)) (u := fun i => (u i : K)) ?_ ?_
      hy.inside hload
    · intro i hi hlt
      exact_mod_cast h.high i hi (by exact_mod_cast hlt)
    · intro i hi hlt
      exact_mod_cast h.low i hi (by exact_mod_cast hlt)
  push_cast
  exact hsum

/-- A rational feasible point is feasible over any ordered field. -/
theorem IsFeasible.cast {x : ℕ → ℚ} (h : k.IsFeasible l u x) :
    k.IsFeasible l u fun i => (x i : K) := by
  have hload := h.load
  constructor
  · intro i hi
    obtain ⟨hlow, hhigh⟩ := h.inside i hi
    exact ⟨by exact_mod_cast hlow, by exact_mod_cast hhigh⟩
  · split
    next hequality =>
      rw [if_pos hequality] at hload
      exact_mod_cast congrArg (Rat.cast : ℚ → K) hload
    next hequality =>
      rw [if_neg hequality] at hload
      have hcast : ((∑ i ∈ range k.n, (k.weights i : ℚ) * x i : ℚ) : K) ≤
          ((k.capacity : ℚ) : K) := Rat.cast_le.mpr hload
      push_cast at hcast
      exact hcast

end Points

/-! ## Solutions -/

theorem exists_least : ∃ least : ℚ, least ≤ 0 ∧ ∀ i < k.n, least * k.weights i ≤ k.costs i := by
  refine ⟨-∑ i ∈ range k.n, |k.costs i|, ?_, ?_⟩
  · rw [neg_nonpos]
    exact sum_nonneg fun i _ => abs_nonneg _
  · intro i hi
    have hone : (1 : ℚ) ≤ k.weights i := by exact_mod_cast k.weights_pos i hi
    have hle : |k.costs i| ≤ ∑ j ∈ range k.n, |k.costs j| :=
      single_le_sum (fun j _ => abs_nonneg (k.costs j)) (mem_range.mpr hi)
    have habs := neg_abs_le (k.costs i)
    have hscaled := mul_le_mul_of_nonneg_left hone ((abs_nonneg _).trans hle)
    linarith

theorem load_tuple (y : ℕ → ℚ) :
    k.toKnapsack.load (tuple k.n y) = .finite (∑ i ∈ range k.n, (k.weights i : ℚ) * y i) :=
  dot_tuple _ _ _

theorem objective_tuple (y : ℕ → ℚ) :
    k.toKnapsack.objective (tuple k.n y) = .finite (∑ i ∈ range k.n, k.costs i * y i) :=
  dot_tuple _ _ _

/-- The tests of the relaxation decide like tests without slack. -/
theorem relax_grid (l u : ℕ → ℤ) :
    (k.capacity < ∑ i ∈ range k.n, k.weights i * l i →
      k.toKnapsack.relax (k.grid l u) = .ok .infeasible) ∧
    ∀ (left unused : ℕ) (x : ℕ → ℚ),
      k.capacity - ∑ i ∈ range k.n, k.weights i * l i = left →
      k.toKnapsack.fill (k.grid l u) k.toKnapsack.fillingOrder (tuple k.n fun i => l i)
        (.finite left) = .ok (tuple k.n x, .finite unused) →
      k.toKnapsack.relax (k.grid l u) =
        if k.equality = true ∧ unused ≠ 0 then .ok .infeasible
        else .ok (.optimal ⟨.finite (∑ i ∈ range k.n, k.costs i * x i), tuple k.n x⟩) := by
  have hslack : (Scalar.decimal 1 9 : Exact) = .finite (1 / 10 ^ 9) := by decide +kernel
  have hneg : (-Exact.finite (1 / 10 ^ 9) : Exact) = .finite (-(1 / 10 ^ 9)) := rfl
  have hsortable : k.toKnapsack.isSortable = true := by
    simp [Knapsack.isSortable, toKnapsack]
  have hlower : (k.grid l u).intervals.map Interval.lower = tuple k.n fun i => l i :=
    map_lower_box _ _ _
  have hcapacity : k.toKnapsack.capacity = .finite k.capacity := rfl
  have hequality : k.toKnapsack.equality = k.equality := rfl
  have hleft : (k.capacity : ℚ) - ∑ i ∈ range k.n, (k.weights i : ℚ) * (l i : ℚ) =
      ((k.capacity - ∑ i ∈ range k.n, k.weights i * l i : ℤ) : ℚ) := by
    push_cast
    rfl
  unfold Knapsack.relax
  simp only [hslack, hneg, hsortable, hlower, hcapacity, hequality, k.load_tuple,
    finite_sub_finite, hleft, finite_lt_finite, Bool.not_true, Bool.false_eq_true, if_false]
  constructor
  · intro hlight
    have hcast : ((k.capacity - ∑ i ∈ range k.n, k.weights i * l i : ℤ) : ℚ) ≤ (-1 : ℤ) := by
      apply Int.cast_le.mpr
      linarith
    rw [if_pos (hcast.trans_lt (by norm_num))]
  · intro left unused x hnat hfill
    have hcast : ((k.capacity - ∑ i ∈ range k.n, k.weights i * l i : ℤ) : ℚ) = left := by
      rw [hnat]
      rfl
    have hunused : (1 / 10 ^ 9 : ℚ) < unused ↔ unused ≠ 0 := by
      constructor
      · rintro hlt rfl
        norm_num at hlt
      · intro hne
        have hone : (1 : ℚ) ≤ unused := by exact_mod_cast Nat.one_le_iff_ne_zero.mpr hne
        exact lt_of_lt_of_le (by norm_num) hone
    have hnonneg : (0 : ℚ) ≤ left := Nat.cast_nonneg left
    rw [hcast, if_neg (not_lt.mpr (le_trans (by norm_num) hnonneg)), hfill]
    simp only [finite_lt_finite, hunused, k.objective_tuple, Bool.and_eq_true, decide_eq_true_eq]

/-- Filling all items spends the capacity, up to what is unused. -/
theorem Filling.load_eq
    {k : IntegralKnapsack} {order : List ℕ} {left unused : ℕ} {filled : ℕ → ℚ} {least price : ℚ}
    (h : k.Filling l u order (fun i => l i) left least filled unused price)
    (hleft : k.capacity - ∑ i ∈ range k.n, k.weights i * l i = left) :
    ∑ i ∈ range k.n, (k.weights i : ℚ) * filled i + unused = k.capacity := by
  have hcast : ((k.capacity - ∑ i ∈ range k.n, k.weights i * l i : ℤ) : ℚ) = left := by
    rw [hleft]
    rfl
  push_cast at hcast
  rw [h.load]
  linarith

/-- What filling all items leaves satisfies the constraint at a price, unless an equation
misses what is unused. -/
theorem Filling.isPriced
    {k : IntegralKnapsack} {order : List ℕ} {left unused : ℕ} {filled : ℕ → ℚ} {least price : ℚ}
    (h : k.Filling l u order (fun i => l i) left least filled unused price)
    (hmem : ∀ i, i ∈ order ↔ i < k.n)
    (hleft : k.capacity - ∑ i ∈ range k.n, k.weights i * l i = left)
    (hunused : k.equality = true → unused = 0) : k.IsPriced l u filled price := by
  have hload := h.load_eq hleft
  refine ⟨⟨?_, ?_⟩, ?_, ?_, ?_, ?_, ?_⟩
  · intro i hi
    have hinside := h.inside i ((hmem i).mpr hi)
    exact_mod_cast hinside
  · split
    next hequality =>
      rw [hunused hequality, Nat.cast_zero, add_zero] at hload
      exact hload
    next =>
      have hnonneg : (0 : ℚ) ≤ unused := Nat.cast_nonneg unused
      linarith
  · intro i hi
    exact h.weight_integral i ((hmem i).mpr hi)
  · intro i hi j hj
    exact h.one_fractional i ((hmem i).mpr hi) j ((hmem j).mpr hj)
  · intro i hi
    exact h.high i ((hmem i).mpr hi)
  · intro i hi
    exact h.low i ((hmem i).mpr hi)
  · intro hpacking
    refine ⟨h.nonpos hpacking, ?_⟩
    rcases h.slack hpacking with rfl | hprice
    · rw [Nat.cast_zero, add_zero] at hload
      rw [hload, sub_self, mul_zero]
    · rw [hprice, zero_mul]

/-- The relaxation of a knapsack is solved exactly.  It is infeasible only if one of
the corners shows that; otherwise the answer is a priced point with its cost. -/
theorem relax_eq (hlu : ∀ i < k.n, l i ≤ u i) :
    (k.toKnapsack.relax (k.grid l u) = .ok .infeasible ∧
      (k.capacity < ∑ i ∈ range k.n, k.weights i * l i ∨
        k.equality = true ∧ ∑ i ∈ range k.n, k.weights i * u i < k.capacity)) ∨
    ∃ x price, k.IsPriced l u x price ∧ k.toKnapsack.relax (k.grid l u) =
      .ok (.optimal ⟨.finite (∑ i ∈ range k.n, k.costs i * x i), tuple k.n x⟩) := by
  obtain ⟨hinfeasible, hrelax⟩ := k.relax_grid l u
  rcases lt_or_ge k.capacity (∑ i ∈ range k.n, k.weights i * l i) with hlight | hheavy
  · exact Or.inl ⟨hinfeasible hlight, Or.inl hlight⟩
  obtain ⟨left, hleft⟩ := Int.eq_ofNat_of_zero_le (sub_nonneg.mpr hheavy)
  obtain ⟨hnodup, hmem, hsorted⟩ := k.fillingOrder_sorted
  obtain ⟨least, hnonpos, hleast⟩ := k.exists_least
  obtain ⟨x, unused, price, h⟩ := k.exists_filling hnodup (fun i hi => (hmem i).mp hi) hsorted
    (fun i hi => hlu i ((hmem i).mp hi)) (fun i _ => rfl) left
    (fun i hi => hleast i ((hmem i).mp hi)) (fun _ => hnonpos)
  have hanswer := hrelax left unused x hleft h.result
  by_cases hunused : k.equality = true ∧ unused ≠ 0
  · -- every item is full, and the load is still too small
    left
    rw [if_pos hunused] at hanswer
    refine ⟨hanswer, Or.inr ⟨hunused.1, ?_⟩⟩
    have hfull : ∑ i ∈ range k.n, (k.weights i : ℚ) * x i =
        ((∑ i ∈ range k.n, k.weights i * u i : ℤ) : ℚ) := by
      push_cast
      apply sum_congr rfl
      intro i hi
      rw [h.full hunused.1 hunused.2 i ((hmem i).mpr (mem_range.mp hi))]
    have hload := h.load_eq hleft
    have hpos : (0 : ℚ) < unused := by exact_mod_cast Nat.pos_of_ne_zero hunused.2
    have hlt : ((∑ i ∈ range k.n, k.weights i * u i : ℤ) : ℚ) < (k.capacity : ℚ) := by
      rw [← hfull]
      linarith
    exact_mod_cast hlt
  · right
    rw [if_neg hunused] at hanswer
    refine ⟨x, price, h.isPriced hmem hleft ?_, hanswer⟩
    intro hequality
    by_contra hne
    exact hunused ⟨hequality, hne⟩

/-- **Knapsacks are relaxed exactly.**  Over a box with integer bounds the relaxation is
infeasible if and only if no real point of the box satisfies the constraint.  Otherwise the
answer is a point of the box that satisfies it, with its cost, and no real one is cheaper; at
most one of its coordinates is not an integer. -/
theorem oracle_solves_exactly
    (hlu : ∀ i < k.n, l i ≤ u i) (s : Unit) (budget : Option Duration) :
    ((k.toKnapsack.oracle.solve s (k.grid l u) budget).1 = .ok .infeasible ↔
      ∀ y : ℕ → ℝ, ¬k.IsFeasible l u y) ∧
    ((∃ y : ℕ → ℝ, k.IsFeasible l u y) → ∃ x : ℕ → ℚ,
      (k.toKnapsack.oracle.solve s (k.grid l u) budget).1 =
        .ok (.optimal ⟨.finite (∑ i ∈ range k.n, k.costs i * x i), tuple k.n x⟩) ∧
      k.IsFeasible l u x ∧
      (∀ y : ℕ → ℝ, k.IsFeasible l u y →
        ((∑ i ∈ range k.n, k.costs i * x i : ℚ) : ℝ) ≤
          ∑ i ∈ range k.n, (k.costs i : ℝ) * y i) ∧
      ∀ i < k.n, ∀ j < k.n, i ≠ j → (∃ m : ℤ, x i = m) ∨ ∃ m : ℤ, x j = m) := by
  have hsolve : (k.toKnapsack.oracle.solve s (k.grid l u) budget).1 =
      k.toKnapsack.relax (k.grid l u) := rfl
  rw [hsolve]
  rcases k.relax_eq hlu with ⟨hrelax, hcorner⟩ | ⟨x, price, hpriced, hrelax⟩
  · have hnone : ∀ y : ℕ → ℝ, ¬k.IsFeasible l u y := fun y => not_isFeasible hcorner
    refine ⟨⟨fun _ => hnone, fun _ => hrelax⟩, ?_⟩
    rintro ⟨y, hy⟩
    exact absurd hy (hnone y)
  · constructor
    · rw [hrelax]
      constructor
      · intro hinfeasible
        cases hinfeasible
      · intro hnone
        exact absurd hpriced.feasible.cast (hnone _)
    · intro _
      exact ⟨x, hrelax, hpriced.feasible, fun y hy => hpriced.cost_le hy,
        hpriced.one_fractional⟩

/-- Three items of which the first two cost the same for their weight. -/
def tied : IntegralKnapsack where
  n := 3
  costs i := [-3, -3, 2].getD i 0
  weights i := [2, 2, 1].getD i 1
  capacity := 3
  equality := false
  weights_pos := by decide

/-- Of the tied items the first is filled and the second one takes half a unit. -/
theorem oracle_tied_solves_exactly :
    (∀ i < tied.n, (0 : ℤ) ≤ 1) ∧
    ∃ x : ℕ → ℚ,
      (tied.toKnapsack.oracle.solve () (tied.grid (fun _ => 0) fun _ => 1) none).1 =
        .ok (.optimal ⟨.finite (-9 / 2), tuple 3 x⟩) ∧
      tuple 3 x = [.finite 1, .finite (1 / 2), .finite 0] ∧
      tied.IsFeasible (fun _ => 0) (fun _ => 1) x ∧
      ∀ y : ℕ → ℝ, tied.IsFeasible (fun _ => 0) (fun _ => 1) y →
        (-9 / 2 : ℝ) ≤ ∑ i ∈ range 3, (tied.costs i : ℝ) * y i := by
  have hlu : ∀ i < tied.n, (0 : ℤ) ≤ 1 := fun _ _ => zero_le_one
  have hanswer : (tied.toKnapsack.oracle.solve () (tied.grid (fun _ => 0) fun _ => 1) none).1 =
      .ok (.optimal ⟨.finite (-9 / 2), [.finite 1, .finite (1 / 2), .finite 0]⟩) := by
    have horder : tied.toKnapsack.fillingOrder = [0, 1, 2] :=
      List.mergeSort_of_pairwise (by decide +kernel)
    change tied.toKnapsack.relax _ = _
    rw [Knapsack.relax, horder]
    decide +kernel
  have horigin : tied.IsFeasible (fun _ => 0) (fun _ => 1) fun _ => (0 : ℝ) :=
    ⟨fun _ _ => by norm_num, by norm_num [tied]⟩
  obtain ⟨x, hsolve, hfeasible, hleast, -⟩ :=
    (tied.oracle_solves_exactly (l := fun _ => 0) (u := fun _ => 1) hlu () none).2 ⟨_, horigin⟩
  have hsame := hsolve.symm.trans hanswer
  simp only [Except.ok.injEq, RelaxationOutcome.optimal.injEq, Relaxation.mk.injEq,
    Exact.finite.injEq] at hsame
  obtain ⟨hcost, hpoint⟩ := hsame
  refine ⟨hlu, x, ?_, hpoint, hfeasible, ?_⟩
  · rw [hanswer, ← hpoint]
    rfl
  · intro y hy
    have hle := hleast y hy
    rw [hcost] at hle
    push_cast at hle
    exact hle

end IntegralKnapsack

end BranchBound
