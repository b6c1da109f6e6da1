import BranchBound.Proofs.KnapsackSearch

/-!
# Searching and enumerating a knapsack

A search with the relaxation of a knapsack finds what an enumeration of its integer points
finds.  The data are lists of integers, as the enumeration takes them.  Costs of integer
points are integers, and so none of them is missed by a tolerance that amounts to less
than one.
-/

namespace BranchBound

open Finset Exact

/-! ## Knapsacks given by lists -/

/-- Integer variables between given bounds. -/
def Variable.integers (lower upper : List ℤ) : List (Variable Exact) :=
  List.zipWith
    (fun l u => { kind := .integer, bounds := ⟨Scalar.ofInt l, Scalar.ofInt u⟩ }) lower upper

/-- A point between given bounds. -/
def IsBetween (lower upper y : List ℤ) : Prop :=
  List.Forall₂ (· ≤ ·) lower y ∧ List.Forall₂ (· ≤ ·) y upper

theorem forall₂_le_iff {a b : List ℤ} :
    List.Forall₂ (· ≤ ·) a b ↔
      a.length = b.length ∧ ∀ i < a.length, a.getD i 0 ≤ b.getD i 0 := by
  rw [List.forall₂_iff_get]
  refine and_congr_right fun hlength => ?_
  constructor
  · intro h i hi
    simpa [List.getD_eq_getElem?_getD, hi, hlength ▸ hi] using h i hi (hlength ▸ hi)
  · intro h i hi hi'
    simpa [List.getD_eq_getElem?_getD, hi, hi'] using h i hi

namespace Knapsack

/-- A knapsack with integer data. -/
def ofIntegers (costs weights : List ℤ) (capacity : ℤ) (equality : Bool) : Knapsack Exact where
  costs := costs.map Scalar.ofInt
  weights := weights.map Scalar.ofInt
  capacity := Scalar.ofInt capacity
  equality := equality

/-- Data of a knapsack with at least one item: positive weights, and bounds that do not
cross, of a box that is not too large. -/
structure IsInstance (costs weights lower upper : List ℤ) : Prop where
  nonempty : costs ≠ []
  length_weights : weights.length = costs.length
  length_lower : lower.length = costs.length
  length_upper : upper.length = costs.length
  weights_pos : ∀ w ∈ weights, 0 < w
  bounds : List.Forall₂ (· ≤ ·) lower upper
  gridSize_lt : (Problem.ofVariables (Variable.integers lower upper)).gridSize < 2 ^ 62

/-- Settings without limits whose tolerances are too small for the data to notice. -/
structure Resolves (costs weights lower upper : List ℤ) (settings : Settings Exact) : Prop where
  timeLimit_eq : settings.timeLimit = none
  maxNodes_eq : settings.maxNodes = Settings.unlimitedNodes
  feasibilityTol_nonneg : Scalar.ofInt 0 ≤ settings.feasibilityTol
  feasibilityTol_lt : ∀ w ∈ weights,
    settings.feasibilityTol < Scalar.ofInt 1 / Scalar.ofInt w
  improvementTol_nonneg : Scalar.ofInt 0 ≤ settings.improvementTol
  improvementTol_lt : ∀ y, IsBetween lower upper y → settings.improvementTol *
    Scalar.maximum (Scalar.ofInt 1)
      (Scalar.abs (Scalar.dot (costs.map Scalar.ofInt) (y.map Scalar.ofInt))) < Scalar.ofInt 1

namespace IsInstance

variable {costs weights lower upper : List ℤ} (h : IsInstance costs weights lower upper)
  {settings : Settings Exact}

include h

theorem getD_weights_mem {i : ℕ} (hi : i < costs.length) : weights.getD i 0 ∈ weights := by
  have hlt : i < weights.length := h.length_weights ▸ hi
  rw [List.getD_eq_getElem?_getD, List.getElem?_eq_getElem hlt]
  exact List.getElem_mem hlt

/-- The knapsack as functions of the index. -/
def integral (capacity : ℤ) (equality : Bool) : IntegralKnapsack where
  n := costs.length
  costs i := (costs.getD i 0 : ℤ)
  weights i := weights.getD i 0
  capacity := capacity
  equality := equality
  weights_pos _ hi := h.weights_pos _ (h.getD_weights_mem hi)

theorem toKnapsack_integral (capacity : ℤ) (equality : Bool) :
    (h.integral capacity equality).toKnapsack = ofIntegers costs weights capacity equality := by
  have hcosts := map_ofInt_eq_tuple costs
  have hweights := map_ofInt_eq_tuple weights
  rw [h.length_weights] at hweights
  rw [ofIntegers, hcosts, hweights]
  rfl

theorem length_integers : (Variable.integers lower upper).length = costs.length := by
  rw [Variable.integers, List.length_zipWith, h.length_lower, h.length_upper, min_self]

theorem rootDomain_eq (capacity : ℤ) (equality : Bool) :
    (Problem.ofVariables (Variable.integers lower upper)).rootDomain =
      (h.integral capacity equality).grid (lower.getD · 0) (upper.getD · 0) := by
  apply congrArg Domain.mk
  apply List.ext_getElem?
  intro i
  by_cases hi : i < costs.length
  · have hlower : i < lower.length := h.length_lower ▸ hi
    have hupper : i < upper.length := h.length_upper ▸ hi
    simp [Problem.ofVariables, Variable.integers, hlower, hupper, integral, hi,
      Variable.rootInterval, Scalar.ofInt, Scalar.ofRat]
  · have hlower : ¬i < lower.length := h.length_lower ▸ hi
    simp [Problem.ofVariables, Variable.integers, hlower, integral, hi]

/-- Points between the bounds, as functions of the index. -/
theorem isBetween_iff {y : ℕ → ℤ} :
    IsBetween lower upper ((List.range costs.length).map y) ↔
      ∀ i < costs.length, lower.getD i 0 ≤ y i ∧ y i ≤ upper.getD i 0 := by
  have hget : ∀ i < costs.length, ((List.range costs.length).map y).getD i 0 = y i := by
    intro i hi
    simp [List.getD_eq_getElem?_getD, hi]
  simp only [IsBetween, forall₂_le_iff, List.length_map, List.length_range, h.length_lower,
    h.length_upper, true_and, ← forall_and]
  apply forall₂_congr
  intro i hi
  rw [hget i hi]

theorem lower_le_upper : ∀ i < costs.length, lower.getD i 0 ≤ upper.getD i 0 := by
  have hbounds := (forall₂_le_iff.mp h.bounds).2
  rwa [h.length_lower] at hbounds

/-- Costs of integer points are integers. -/
theorem exists_objective (capacity : ℤ) (equality : Bool) (y : ℕ → ℤ) :
    ∃ m : ℤ, (h.integral capacity equality).toKnapsack.objective (lattice costs.length y) =
      .finite m := by
  refine ⟨∑ i ∈ range costs.length, costs.getD i 0 * y i, ?_⟩
  have hsum := (h.integral capacity equality).objective_tuple fun i => (y i : ℚ)
  push_cast
  exact hsum

theorem exists_feasibilityTol (hsettings : Resolves costs weights lower upper settings) :
    ∃ tol : ℚ, settings.feasibilityTol = .finite tol ∧ 0 ≤ tol ∧
      ∀ i < costs.length, tol < 1 / (weights.getD i 0 : ℤ) := by
  have hlt : ∀ i < costs.length,
      settings.feasibilityTol < .finite (1 / (weights.getD i 0 : ℤ)) := by
    intro i hi
    have hmem := h.getD_weights_mem hi
    have hne : ((weights.getD i 0 : ℤ) : ℚ) ≠ 0 := by
      exact_mod_cast (h.weights_pos _ hmem).ne'
    have hquotient : (Scalar.ofInt 1 / Scalar.ofInt (weights.getD i 0) : Exact) =
        .finite (1 / (weights.getD i 0 : ℤ)) := finite_div_finite 1 hne
    rw [← hquotient]
    exact hsettings.feasibilityTol_lt _ hmem
  obtain ⟨tol, hnonneg, htol⟩ := exists_finite_of_lt hsettings.feasibilityTol_nonneg
    (hlt 0 (List.length_pos_iff.mpr h.nonempty))
  refine ⟨tol, htol, hnonneg, ?_⟩
  intro i hi
  have hi' := hlt i hi
  rwa [htol, finite_lt_finite] at hi'

theorem exists_improvementTol (hsettings : Resolves costs weights lower upper settings) :
    ∃ q : ℚ, settings.improvementTol = .finite q ∧
      ∀ (y : ℕ → ℤ) (m : ℤ),
        (∀ i < costs.length, lower.getD i 0 ≤ y i ∧ y i ≤ upper.getD i 0) →
        Scalar.dot (costs.map Scalar.ofInt) (lattice costs.length y) = .finite m →
        q * max |(m : ℚ)| 1 < 1 := by
  have hlt : ∀ (y : ℕ → ℤ) (m : ℤ),
      (∀ i < costs.length, lower.getD i 0 ≤ y i ∧ y i ≤ upper.getD i 0) →
      Scalar.dot (costs.map Scalar.ofInt) (lattice costs.length y) = .finite m →
      settings.improvementTol * .finite (max |(m : ℚ)| 1) < Scalar.ofInt 1 := by
    intro y m hy hm
    have hbelow := hsettings.improvementTol_lt _ (h.isBetween_iff.mpr hy)
    rw [← lattice_eq_map, hm, abs_finite] at hbelow
    have hmaximum : Scalar.maximum (Scalar.ofInt 1) (Exact.finite |(m : ℚ)|) =
        .finite (max |(m : ℚ)| 1) := by
      rw [max_comm]
      exact maximum_finite _ _
    rwa [hmaximum] at hbelow
  obtain ⟨m, hm⟩ := h.exists_objective 0 true fun i => lower.getD i 0
  rw [h.toKnapsack_integral] at hm
  obtain ⟨q, -, hq⟩ := exists_finite_of_mul_lt hsettings.improvementTol_nonneg
    (lt_max_of_lt_right one_pos)
    (hlt (fun i => lower.getD i 0) m (fun i hi => ⟨le_rfl, h.lower_le_upper i hi⟩) hm)
  refine ⟨q, hq, ?_⟩
  intro y m hy hm
  have hbelow := hlt y m hy hm
  rw [hq, finite_mul_finite] at hbelow
  exact (finite_lt_finite _ _).mp hbelow

/-- Costs of integer points that differ at all differ by more than the tolerance. -/
theorem lt_threshold
    (hsettings : Resolves costs weights lower upper settings) (capacity : ℤ) (equality : Bool)
    {y y' : ℕ → ℤ} (hy : ∀ i < costs.length, lower.getD i 0 ≤ y i ∧ y i ≤ upper.getD i 0)
    (hlt : (ofIntegers costs weights capacity equality).objective (lattice costs.length y') <
      (ofIntegers costs weights capacity equality).objective (lattice costs.length y)) :
    (ofIntegers costs weights capacity equality).objective (lattice costs.length y') <
      (ofIntegers costs weights capacity equality).objective (lattice costs.length y) -
        settings.improvementTol * Scalar.maximum (Scalar.abs
          ((ofIntegers costs weights capacity equality).objective (lattice costs.length y)))
          (Scalar.ofInt 1) := by
  obtain ⟨q, hq, himprovement⟩ := h.exists_improvementTol hsettings
  obtain ⟨m, hm⟩ := h.exists_objective capacity equality y
  obtain ⟨m', hm'⟩ := h.exists_objective capacity equality y'
  rw [h.toKnapsack_integral] at hm hm'
  rw [hm, hm'] at hlt ⊢
  rw [hq]
  exact IntegralKnapsack.lt_threshold ((finite_lt_finite _ _).mp hlt) (himprovement y m hy hm)

/-- The search of a knapsack is complete. -/
theorem isComplete
    (hsettings : Resolves costs weights lower upper settings) (capacity : ℤ) (equality : Bool) :
    (Tree.create settings).IsComplete (Variable.integers lower upper)
      (ofIntegers costs weights capacity equality).oracle
      ((h.integral capacity equality).latticePoints (lower.getD · 0) (upper.getD · 0))
      (ofIntegers costs weights capacity equality).objective := by
  obtain ⟨tol, htol, hnonneg, hlt⟩ := h.exists_feasibilityTol hsettings
  rw [← h.toKnapsack_integral]
  apply IntegralKnapsack.isComplete h.length_integers
  case hkind =>
    intro v hv
    rw [Variable.integers, ← List.map_uncurry_zip_eq_zipWith, List.mem_map] at hv
    obtain ⟨entry, -, rfl⟩ := hv
    rfl
  case hroot => exact h.rootDomain_eq capacity equality
  case hn => exact List.length_pos_iff.mpr h.nonempty
  case hlu => exact h.lower_le_upper
  case hsize => exact h.gridSize_lt
  case htime => exact hsettings.timeLimit_eq
  case hnodes => exact hsettings.maxNodes_eq
  case hfeasibility => exact htol
  case hnonneg => exact hnonneg
  case htol => exact hlt
  case himprovement => exact hsettings.improvementTol_nonneg

/-! ## Enumeration between the bounds -/

/-- The integer points between the bounds, as they are enumerated. -/
theorem mem_points_iff {p : List Exact} :
    p ∈ Enumeration.points ((spans lower upper).map Enumeration.Span.values).reverse [] ↔
      ∃ y : ℕ → ℤ, p = lattice costs.length y ∧
        ∀ i < costs.length, lower.getD i 0 ≤ y i ∧ y i ≤ upper.getD i 0 := by
  apply Enumeration.mem_points_spans
  · rw [spans, List.length_zipWith, h.length_lower, h.length_upper, min_self]
  · intro i hi
    have hlower : i < lower.length := h.length_lower ▸ hi
    have hupper : i < upper.length := h.length_upper ▸ hi
    have hle := h.lower_le_upper i hi
    refine ⟨⟨lower.getD i 0, (upper.getD i 0 - lower.getD i 0).toNat + 1⟩, ?_, rfl, ?_⟩
    · simp [spans, hlower, hupper]
    · simp only
      omega

/-- The feasible integer points are the enumerated ones that pass the test, with the slack
of the enumeration or with none. -/
theorem mem_latticePoints_iff
    (capacity : ℤ) (equality : Bool) {tol : ℚ} (hnonneg : 0 ≤ tol) (hlt : tol < 1)
    {p : List Exact} :
    p ∈ (h.integral capacity equality).latticePoints (lower.getD · 0) (upper.getD · 0) ↔
      p ∈ Enumeration.points ((spans lower upper).map Enumeration.Span.values).reverse [] ∧
        (ofIntegers costs weights capacity equality).isFeasible p (.finite tol) = true := by
  rw [h.mem_points_iff, ← h.toKnapsack_integral]
  constructor
  · rintro ⟨y, rfl, hinside, hload⟩
    refine ⟨⟨y, rfl, ?_⟩, ((h.integral capacity equality).isFeasible_lattice y hnonneg hlt).mpr
      hload⟩
    intro i hi
    exact_mod_cast hinside i hi
  · rintro ⟨⟨y, rfl, hbetween⟩, hfeasible⟩
    refine ⟨y, rfl, ?_, ((h.integral capacity equality).isFeasible_lattice y hnonneg hlt).mp
      hfeasible⟩
    intro i hi
    exact_mod_cast hbetween i hi

theorem best_eq (capacity : ℤ) (equality : Bool) :
    ∃ enumerated, (ofIntegers costs weights capacity equality).best lower upper =
        .ok enumerated ∧
      Enumeration.IsBest
        ((ofIntegers costs weights capacity equality).isFeasible · enumerationTol)
        (ofIntegers costs weights capacity equality).objective
        (Enumeration.points ((spans lower upper).map Enumeration.Span.values).reverse [])
        enumerated := by
  have hcosts : (ofIntegers costs weights capacity equality).costs.length = costs.length :=
    List.length_map _
  refine ⟨_, ?_, Enumeration.isBest_foldPoints _ _⟩
  simp only [best, hcosts, h.length_lower, h.length_upper, lt_irrefl, or_self, if_false]
  rw [List.take_of_length_le h.length_lower.le, List.drop_of_length_le h.length_lower.le,
    List.map_nil]

end IsInstance

variable {costs weights lower upper : List ℤ} {settings : Settings Exact}

/-- **Searching a knapsack is enumerating it.**  In exact arithmetic, with settings whose
tolerances are too small for the data to notice, the search with the relaxation of a
knapsack ends with a result: infeasible if and only if the enumeration between the bounds
finds nothing, and otherwise optimal with the cost that the enumeration finds and an
integer point between the bounds that satisfies the constraint at that cost. -/
theorem solve_eq_best
    (h : IsInstance costs weights lower upper)
    (hsettings : Resolves costs weights lower upper settings)
    (capacity : ℤ) (equality : Bool) (clock : Clock) :
    ∃ result enumerated,
      (solve (.ofVariables (Variable.integers lower upper))
        (ofIntegers costs weights capacity equality).oracle settings clock ()).1 =
          .ok result ∧
      (ofIntegers costs weights capacity equality).best lower upper = .ok enumerated ∧
      (result.status = .infeasible ↔ enumerated = none) ∧
      ∀ least x, enumerated = some (least, x) →
        result.status = .optimal ∧ result.bestObjective = some least ∧
        ∃ y : List ℤ, result.bestAssignment = some (y.map Scalar.ofInt) ∧
          IsBetween lower upper y ∧
          (ofIntegers costs weights capacity equality).isFeasible (y.map Scalar.ofInt)
            (Scalar.ofInt 0) = true ∧
          (ofIntegers costs weights capacity equality).objective (y.map Scalar.ofInt) =
            least := by
  have hslack : (enumerationTol : Exact) = .finite (1 / 10 ^ 9) := by decide +kernel
  obtain ⟨enumerated, hbest, hisBest⟩ := h.best_eq capacity equality
  have hpoints : ∀ p, p ∈ (h.integral capacity equality).latticePoints (lower.getD · 0)
      (upper.getD · 0) ↔
      p ∈ Enumeration.points ((spans lower upper).map Enumeration.Span.values).reverse [] ∧
        (ofIntegers costs weights capacity equality).isFeasible p enumerationTol = true := by
    intro p
    rw [hslack]
    exact h.mem_latticePoints_iff capacity equality (by norm_num) (by norm_num)
  have hcomplete := h.isComplete hsettings capacity equality
  obtain ⟨result, hrun, hstatus, hoptimal⟩ := hcomplete.run_eq_best hisBest hpoints
    (by
      rintro p ⟨y, rfl, -⟩
      exact ⟨y, congrArg (lattice · y) h.length_integers.symm⟩)
    (by
      intro x hx p hp hlt
      obtain ⟨y, rfl, hy⟩ := h.mem_points_iff.mp ((hpoints x).mp hx).1
      obtain ⟨y', rfl, -⟩ := h.mem_points_iff.mp ((hpoints p).mp hp).1
      exact h.lt_threshold hsettings capacity equality hy hlt)
    clock ()
  refine ⟨result, enumerated, hrun, hbest, hstatus, ?_⟩
  intro least x hleast
  obtain ⟨hproven, hobjective, p, hp, hassignment, hcost⟩ := hoptimal least x hleast
  obtain ⟨y, rfl, hy⟩ := h.mem_points_iff.mp ((hpoints p).mp hp).1
  rw [h.mem_latticePoints_iff capacity equality le_rfl one_pos] at hp
  rw [lattice_eq_map] at hassignment hcost hp
  exact ⟨hproven, hobjective, _, hassignment, h.isBetween_iff.mpr hy, hp.2, hcost⟩

/-! ## A sample -/

theorem isInstance_sample : IsInstance [-5, -4] [3, 2] [0, 0] [1, 1] where
  nonempty := by decide
  length_weights := rfl
  length_lower := rfl
  length_upper := rfl
  weights_pos := by decide
  bounds := by decide
  gridSize_lt := by decide +kernel

theorem resolves_sample
    (rule : BranchingRule) (selection : NodeSelection) {tol : Exact}
    (htol : tol = Scalar.ofInt 0 ∨ tol = Scalar.decimal 1 6) :
    Resolves [-5, -4] [3, 2] [0, 0] [1, 1] { Settings.standard.withTolerance tol with
      branchingRule := rule, nodeSelection := selection } where
  timeLimit_eq := rfl
  maxNodes_eq := rfl
  feasibilityTol_nonneg := by
    change Scalar.ofInt 0 ≤ tol
    rcases htol with rfl | rfl <;> decide +kernel
  feasibilityTol_lt := by
    change ∀ w ∈ [3, 2], tol < Scalar.ofInt 1 / Scalar.ofInt w
    rcases htol with rfl | rfl <;> decide +kernel
  improvementTol_nonneg := by
    change Scalar.ofInt 0 ≤ tol
    rcases htol with rfl | rfl <;> decide +kernel
  improvementTol_lt := by
    rintro y ⟨hlow, hhigh⟩
    change tol * _ < _
    obtain ⟨a, b, rfl⟩ := List.length_eq_two.mp hlow.length_eq.symm
    rw [List.forall₂_cons, List.forall₂_cons] at hlow hhigh
    obtain ⟨ha, hb, -⟩ := hlow
    obtain ⟨ha', hb', -⟩ := hhigh
    rcases htol with rfl | rfl <;> interval_cases a <;> interval_cases b <;> decide +kernel

/-- The first item alone is the best load of the sample, though the second one costs less
for its weight. -/
theorem solve_sample_eq_best :
    IsInstance [-5, -4] [3, 2] [0, 0] [1, 1] ∧
    Resolves [-5, -4] [3, 2] [0, 0] [1, 1] Settings.standard ∧
    ∃ result,
      (solve (.ofVariables (Variable.integers [0, 0] [1, 1]))
        (ofIntegers [-5, -4] [3, 2] 4 false).oracle Settings.standard .frozen ()).1 =
          .ok result ∧
      result.status = .optimal ∧ result.bestObjective = some (Scalar.ofInt (-5)) := by
  have hsettings : Resolves [-5, -4] [3, 2] [0, 0] [1, 1] Settings.standard :=
    resolves_sample .mostFractional .bestBound (Or.inr rfl)
  have hbest : (ofIntegers [-5, -4] [3, 2] 4 false).best [0, 0] [1, 1] =
      .ok (some (Scalar.ofInt (-5), [Scalar.ofInt 1, Scalar.ofInt 0])) := by
    decide +kernel
  obtain ⟨result, enumerated, hrun, hok, -, hoptimal⟩ :=
    solve_eq_best isInstance_sample hsettings 4 false .frozen
  obtain rfl := Except.ok.inj (hbest.symm.trans hok)
  obtain ⟨hstatus, hobjective, -⟩ := hoptimal _ _ rfl
  exact ⟨isInstance_sample, hsettings, result, hrun, hstatus, hobjective⟩

end Knapsack

end BranchBound
