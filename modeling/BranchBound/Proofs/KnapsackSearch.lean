import BranchBound.Proofs.Grids
import BranchBound.Proofs.KnapsackRelaxation

/-!
# Searching a knapsack

In exact arithmetic a search with the relaxation of a knapsack is complete, whatever the
order of exploration and the branching rule.

The relaxation is solved exactly over every grid, and the weight of a fractional item is
an integer.  So a coordinate that is nearer to an integer than one part of its weight is an
integer.
-/

namespace BranchBound

open Finset Exact

/-! ## Tolerances -/

namespace Exact

theorem exists_finite_of_lt
    {a : Exact} {r : ℚ} (ha : Scalar.ofInt 0 ≤ a) (h : a < .finite r) :
    ∃ q : ℚ, 0 ≤ q ∧ a = .finite q := by
  rcases Scalar.value_of_nonneg ha with ⟨q, hq, hvalue⟩ | hinfinite
  · exact ⟨q, hq, by rwa [value_eq] at hvalue⟩
  · rw [value_eq] at hinfinite
    rw [hinfinite] at h
    exact absurd h Bool.noConfusion

/-- A nonnegative scalar with a positive multiple below one is finite. -/
theorem exists_finite_of_mul_lt
    {a : Exact} {r : ℚ} (ha : Scalar.ofInt 0 ≤ a) (hr : 0 < r)
    (h : a * .finite r < Scalar.ofInt 1) : ∃ q : ℚ, 0 ≤ q ∧ a = .finite q := by
  rcases Scalar.value_of_nonneg ha with ⟨q, hq, hvalue⟩ | hinfinite
  · exact ⟨q, hq, by rwa [value_eq] at hvalue⟩
  · rw [value_eq] at hinfinite
    rw [hinfinite, infinite_mul_finite false hr] at h
    exact absurd h Bool.noConfusion

end Exact

namespace IntegralKnapsack

variable (k : IntegralKnapsack) {l u : ℕ → ℤ} {x : ℕ → ℚ} {tol : ℚ}

/-- A value with an integer weight that is near an integer is that integer. -/
theorem eq_nearest
    {i : ℕ} (hi : i < k.n) (hweight : ∃ m : ℤ, (k.weights i : ℚ) * x i = m)
    (htol : tol < 1 / k.weights i) (hnear : |x i - nearest (x i)| ≤ tol) :
    x i = nearest (x i) := by
  obtain ⟨m, hm⟩ := hweight
  have hpos := k.weight_pos hi
  have hdistance : |(m : ℚ) - k.weights i * nearest (x i)| < 1 := by
    rw [← hm, ← mul_sub, abs_mul, abs_of_pos hpos]
    rw [lt_div_iff₀ hpos] at htol
    have hscaled := mul_le_mul_of_nonneg_left hnear hpos.le
    linarith
  have hzero : m - k.weights i * nearest (x i) = 0 := by
    rw [← Int.abs_lt_one_iff]
    exact_mod_cast hdistance
  have hcast : (k.weights i : ℚ) * x i = k.weights i * nearest (x i) := by
    rw [hm]
    exact_mod_cast sub_eq_zero.mp hzero
  exact mul_left_cancel₀ hpos.ne' hcast

/-! ## Feasible integer points -/

/-- The integer points between the bounds that satisfy the constraint. -/
def latticePoints (l u : ℕ → ℤ) : Set (List Exact) :=
  {p | ∃ y : ℕ → ℤ, p = lattice k.n y ∧ k.IsFeasible l u fun i => (y i : ℚ)}

/-- On integer points the constraint needs no slack. -/
theorem isFeasible_lattice (y : ℕ → ℤ) (hnonneg : 0 ≤ tol) (hlt : tol < 1) :
    k.toKnapsack.isFeasible (lattice k.n y) (.finite tol) = true ↔
      if k.equality then ∑ i ∈ range k.n, (k.weights i : ℚ) * y i = k.capacity
      else ∑ i ∈ range k.n, (k.weights i : ℚ) * y i ≤ k.capacity := by
  have hload : ∑ i ∈ range k.n, (k.weights i : ℚ) * y i =
      ((∑ i ∈ range k.n, k.weights i * y i : ℤ) : ℚ) := by
    push_cast
    rfl
  have hequality : k.toKnapsack.equality = k.equality := rfl
  have hcapacity : k.toKnapsack.capacity = .finite k.capacity := rfl
  unfold Knapsack.isFeasible
  rw [lattice, k.load_tuple, hload, hequality, hcapacity, finite_sub_finite, abs_finite,
    finite_add_finite]
  generalize (∑ i ∈ range k.n, k.weights i * y i : ℤ) = load
  cases k.equality with
  | true =>
      simp only [if_true, decide_eq_true_eq, finite_le_finite]
      constructor
      · intro hle
        have hone : |load - k.capacity| < 1 := by exact_mod_cast hle.trans_lt hlt
        exact_mod_cast sub_eq_zero.mp (Int.abs_lt_one_iff.mp hone)
      · intro heq
        rw [heq, sub_self, abs_zero]
        exact hnonneg
  | false =>
      simp only [Bool.false_eq_true, if_false, decide_eq_true_eq, finite_le_finite]
      constructor
      · intro hle
        have hone : (load : ℚ) < (k.capacity + 1 : ℤ) := by
          push_cast
          linarith
        exact_mod_cast Int.lt_add_one_iff.mp (Int.cast_lt.mp hone)
      · intro hle
        linarith

/-- Over a grid the relaxation settles the feasible integer points. -/
theorem exists_isExact
    {vars : List (Variable Exact)} (hlength : vars.length = k.n)
    (hkind : ∀ v ∈ vars, v.kind.isIntegral = true) (htol : ∀ i < k.n, tol < 1 / k.weights i)
    {d : Domain Exact} (hd : d.IsSubgrid (k.grid l u)) :
    ∃ answer, k.toKnapsack.relax d = .ok answer ∧
      answer.IsExact (.ofVariables vars) (.finite tol) (k.latticePoints l u)
        k.toKnapsack.objective d := by
  obtain ⟨l', u', hbox, hlu⟩ := hd.exists_eq_box
  have hsize : d.size = k.n := hd.size_eq.trans (size_box _ _ _)
  rw [hsize] at hbox hlu
  subst hbox
  have hfeasible : ∀ y : ℕ → ℤ, k.IsFeasible l u (fun i => (y i : ℚ)) →
      (k.grid l' u').Holds (lattice k.n y) → k.IsFeasible l' u' fun i => (y i : ℚ) := by
    intro y hy hholds
    exact ⟨holds_box_tuple.mp hholds, hy.load⟩
  rcases k.relax_eq hlu with ⟨hrelax, hcorner⟩ | ⟨x, price, hpriced, hrelax⟩
  · refine ⟨_, hrelax, ?_⟩
    rintro p ⟨y, rfl, hy⟩ hholds
    exact not_isFeasible hcorner (hfeasible y hy hholds)
  · have hholds : (k.grid l' u').Holds (tuple k.n x) :=
      holds_box_tuple.mpr hpriced.feasible.inside
    refine ⟨_, hrelax, rfl, hholds, ?_, ?_⟩
    · rintro p ⟨y, rfl, hy⟩ hinside
      have hcost := hpriced.cost_le (hfeasible y hy hinside)
      simp only [Rat.cast_id] at hcost
      rw [lattice, k.objective_tuple, finite_le_finite]
      exact hcost
    · intro hintegral
      have hnear : ∀ i < k.n, x i = nearest (x i) := by
        intro i hi
        rw [← hlength] at hintegral
        exact k.eq_nearest hi (hpriced.weight_integral i hi) (htol i hi)
          (Problem.near_of_isIntegral hkind hintegral (hlength ▸ hi))
      have hpoint : tuple k.n x = lattice k.n fun i => nearest (x i) := tuple_congr hnear
      refine ⟨⟨fun i => nearest (x i), hpoint, ?_, ?_⟩, k.objective_tuple x⟩
      · have hroot := hd.holds hholds
        rw [hpoint] at hroot
        exact holds_box_tuple.mp hroot
      · have hload := hpriced.feasible.load
        have hsum : ∑ i ∈ range k.n, (k.weights i : ℚ) * x i =
            ∑ i ∈ range k.n, (k.weights i : ℚ) * (nearest (x i) : ℤ) := by
          apply sum_congr rfl
          intro i hi
          rw [← hnear i (mem_range.mp hi)]
        rwa [hsum] at hload

/-! ## Complete searches -/

variable {k} {vars : List (Variable Exact)} {settings : Settings Exact}

/-- A search with the relaxation of a knapsack is complete. -/
theorem isComplete
    (hlength : vars.length = k.n) (hkind : ∀ v ∈ vars, v.kind.isIntegral = true)
    (hroot : (Problem.ofVariables vars).rootDomain = k.grid l u)
    (hn : 0 < k.n) (hlu : ∀ i < k.n, l i ≤ u i)
    (hsize : (Problem.ofVariables vars).gridSize < 2 ^ 62)
    (htime : settings.timeLimit = none) (hnodes : settings.maxNodes = Settings.unlimitedNodes)
    (hfeasibility : settings.feasibilityTol = .finite tol) (hnonneg : 0 ≤ tol)
    (htol : ∀ i < k.n, tol < 1 / k.weights i)
    (himprovement : Scalar.ofInt 0 ≤ settings.improvementTol) :
    (Tree.create settings).IsComplete vars k.toKnapsack.oracle (k.latticePoints l u)
      k.toKnapsack.objective := by
  have hinterval : ∀ v ∈ vars, ∃ i < k.n,
      v.rootInterval = ⟨.finite (l i), .finite (u i)⟩ := by
    intro v hv
    obtain ⟨i, hi⟩ := List.mem_iff_getElem?.mp hv
    have hget : (Problem.ofVariables vars).rootDomain.get? i = some v.rootInterval := by
      simp [Domain.get?, Problem.rootDomain, Problem.ofVariables, hi]
    rw [hroot] at hget
    obtain ⟨hin, hbounds⟩ := get?_box_eq_some.mp hget
    exact ⟨i, hin, hbounds.symm⟩
  have hlimit : Settings.unlimitedNodes = 2 ^ 64 - 1 := by decide +kernel
  have hdepth : Node.maxDepth = 2 ^ 64 - 1 := by decide +kernel
  constructor
  case valid =>
    have hne : vars ≠ [] := by
      rintro rfl
      rw [← hlength] at hn
      cases hn
    unfold Problem.fault?
    rw [if_neg (by simpa [Problem.ofVariables] using hne), List.findSome?_eq_none_iff]
    rintro ⟨v, j⟩ hentry
    obtain ⟨i, hi, hbounds⟩ := hinterval v (List.fst_mem_of_mem_zipIdx hentry)
    have hle : ¬((u i : ℚ) < l i) := not_lt.mpr (by exact_mod_cast hlu i hi)
    have hnumber : (Interval.mk (Exact.finite (l i)) (.finite (u i))).hasNaN = false := rfl
    simp [Problem.variableFault?, hbounds, hnumber, Interval.isEmpty, hle]
  case isIntegral =>
    intro v hv
    obtain ⟨i, -, hbounds⟩ := hinterval v hv
    rw [hbounds]
    exact ⟨hkind v hv, ⟨l i, value_eq _⟩, u i, value_eq _⟩
  case target =>
    constructor
    · rintro p ⟨y, rfl, hy⟩
      refine ⟨?_, isIntegerPoint_lattice _ _ _⟩
      rw [hroot]
      exact holds_box_tuple.mpr hy.inside
    · rintro p ⟨y, rfl, -⟩
      rw [lattice, k.objective_tuple]
      rfl
  case feasibilityTol_nonneg =>
    change Scalar.ofInt 0 ≤ settings.feasibilityTol
    rw [hfeasibility]
    exact (finite_le_finite 0 tol).mpr hnonneg
  case improvementTol_nonneg => exact himprovement
  case timeLimit_eq => exact htime
  case gridSize_le =>
    change 2 * (Problem.ofVariables vars).gridSize ≤ settings.maxNodes
    omega
  case gridSize_le_depth => omega
  case answers =>
    intro s d budget hd
    rw [hroot] at hd
    obtain ⟨answer, hanswer, hexact⟩ := k.exists_isExact hlength hkind htol hd
    refine ⟨answer, (), ?_, ?_⟩
    · exact congrArg (·, ()) hanswer
    · change answer.IsExact _ settings.feasibilityTol _ _ _
      rw [hfeasibility]
      exact hexact

/-- Integer costs that differ at all differ by more than a tolerance which amounts to less
than one. -/
theorem lt_threshold
    {a b : ℤ} {q : ℚ} (h : (a : ℚ) < b) (hq : q * max |(b : ℚ)| 1 < 1) :
    Exact.finite a < .finite b - .finite q *
      Scalar.maximum (Scalar.abs (.finite b)) (Scalar.ofInt 1) := by
  have hone : (a : ℚ) + 1 ≤ b := by exact_mod_cast h
  rw [threshold_finite, finite_lt_finite]
  linarith

end IntegralKnapsack

end BranchBound
