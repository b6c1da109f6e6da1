import BranchBound.CommandLine.Arguments
import BranchBound.Proofs.ConsistentResults
import BranchBound.Proofs.LinearSearch

/-!
# Verified results

When a verification contradicts a search.  Three tolerances meet here.  The search ignores
improvements that are small relative to its incumbent; the enumeration takes the same
tolerance for the rows; and the comparison of the two has a tolerance of its own, relative to
the enumerated optimum.  In exact arithmetic a result at a limit is never contradicted.  A
proved one is contradicted if and only if some integer point, feasible up to the tolerance of
the search, undercuts it by more than the comparison allows, and then the result may be right
all the same.
-/

namespace BranchBound

open Exact

/-! ## Undercutting -/

/-- A cost is below a value by more than a tolerance, relative to the cost. -/
def Undercuts (tol cost value : Exact) : Prop :=
  tol * Scalar.maximum (Scalar.abs cost) (Scalar.ofInt 1) < value - cost

theorem undercuts_finite {tol cost value : ℚ} :
    Undercuts (.finite tol) (.finite cost) (.finite value) ↔
      cost + tol * max |cost| 1 < value := by
  rw [Undercuts, scale_finite, finite_mul_finite, finite_sub_finite, finite_lt_finite,
    lt_sub_iff_add_lt']

/-- What a cost undercuts, every lower cost undercuts as well. -/
theorem Undercuts.of_le {tol cost cost' value : ℚ} (hnonneg : 0 ≤ tol) (hone : tol ≤ 1)
    (hle : cost' ≤ cost) (h : Undercuts (.finite tol) (.finite cost) (.finite value)) :
    Undercuts (.finite tol) (.finite cost') (.finite value) := by
  rw [undercuts_finite] at h ⊢
  have hscale : max |cost'| 1 ≤ max |cost| 1 + (cost - cost') := by
    have habs : |cost'| ≤ |cost| + (cost - cost') := by
      have htriangle := abs_sub_abs_le_abs_sub cost' cost
      rw [abs_sub_comm, abs_of_nonneg (sub_nonneg.mpr hle)] at htriangle
      linarith
    apply max_le
    · linarith [le_max_left |cost| 1]
    · linarith [le_max_right |cost| 1]
  have hproduct : tol * max |cost'| 1 ≤ tol * max |cost| 1 + (cost - cost') := by
    calc
      tol * max |cost'| 1 ≤ tol * (max |cost| 1 + (cost - cost')) :=
        mul_le_mul_of_nonneg_left hscale hnonneg
      _ = tol * max |cost| 1 + tol * (cost - cost') := by ring
      _ ≤ tol * max |cost| 1 + (cost - cost') := by
        have hfactor := mul_le_of_le_one_left (sub_nonneg.mpr hle) hone
        linarith
  linarith

theorem Undercuts.lt {tol cost value : ℚ} (hnonneg : 0 ≤ tol)
    (h : Undercuts (.finite tol) (.finite cost) (.finite value)) : cost < value := by
  rw [undercuts_finite] at h
  have hslack : 0 ≤ tol * max |cost| 1 := mul_nonneg hnonneg (by positivity)
  linarith

theorem Result.verificationTol_eq : (verificationTol : Exact) = .finite (1 / 10 ^ 6) := by
  rw [verificationTol, decimal_eq, Nat.cast_one]

namespace Result

variable {r : Result Exact} {best objective : ℚ}

theorem agreesWith_optimal
    (hstatus : r.status = .optimal) (hobjective : r.bestObjective = some (.finite objective))
    (hle : best ≤ objective) :
    r.agreesWith (some (.finite best)) verificationTol = true ↔
      ¬Undercuts verificationTol (.finite best) (.finite objective) := by
  rw [verificationTol_eq, undercuts_finite, not_lt]
  simp only [agreesWith, hstatus, hobjective, Option.any_some, decide_eq_true_eq]
  rw [scale_finite, finite_mul_finite, finite_sub_finite, abs_finite, finite_le_finite,
    abs_of_nonneg (sub_nonneg.mpr hle), sub_le_iff_le_add']

theorem agreesWith_limit
    (hstatus : r.status.isLimit = true)
    (h : ∀ z, r.bestObjective = some z → ∃ objective : ℚ, z = .finite objective ∧
      best ≤ objective) :
    r.agreesWith (some (.finite best)) verificationTol = true := by
  have hall : r.bestObjective.all (fun objective => decide (Exact.finite best -
      verificationTol * Scalar.maximum (Scalar.abs (.finite best)) (Scalar.ofInt 1) ≤
        objective)) = true := by
    rw [Option.all_eq_true]
    intro z hz
    obtain ⟨objective, rfl, hle⟩ := h z hz
    rw [verificationTol_eq, threshold_finite, decide_eq_true_eq, finite_le_finite]
    have hslack : 0 ≤ 1 / 10 ^ 6 * max |best| 1 := by positivity
    linarith
  cases hs : r.status with
  | optimal => simp [hs, Status.isLimit] at hstatus
  | infeasible => simp [hs, Status.isLimit] at hstatus
  | timeLimit => simpa only [agreesWith, hs] using hall
  | nodeLimit => simpa only [agreesWith, hs] using hall

end Result

/-! ## Points up to a tolerance -/

theorem Constraint.admits_of_le
    {c : Constraint Exact} (hrhs : Scalar.isFinite c.rhs = true) {v s t : ℚ} (hst : s ≤ t)
    (h : c.admits (.finite v) (.finite s) = true) : c.admits (.finite v) (.finite t) = true := by
  obtain ⟨q, hq⟩ := isFinite_iff_exists.mp hrhs
  rw [admits, hq] at h ⊢
  cases hsense : c.sense with
  | le =>
      simp only [hsense, finite_add_finite, finite_le_finite, decide_eq_true_eq] at h ⊢
      linarith
  | ge =>
      simp only [hsense, finite_sub_finite, finite_le_finite, decide_eq_true_eq] at h ⊢
      linarith
  | eq =>
      simp only [hsense, finite_sub_finite, abs_finite, finite_le_finite, decide_eq_true_eq] at h ⊢
      linarith

namespace LinearModel

variable {m : LinearModel Exact} {solver : LinearProgram → LinearVerdict} {clock : Clock}
  {settings : Settings Exact} {tol s t : ℚ} {p : List Exact}
  {best : Option (Exact × List Exact)} {result : Result Exact}

/-- The integer points of the box that satisfy the rows up to a tolerance. -/
def latticePointsUpTo (m : LinearModel Exact) (tol : Exact) : Set (List Exact) :=
  {p | (∃ y : ℕ → ℤ, p = lattice m.numVars y) ∧ m.rootDomain.Holds p ∧
    m.satisfiesRows p tol = true}

theorem latticePointsUpTo_zero (m : LinearModel Exact) :
    m.latticePointsUpTo (Scalar.ofInt 0) = m.latticePoints :=
  rfl

namespace IsChecked

variable (h : m.IsChecked)

include h

theorem latticePointsUpTo_subset (hst : s ≤ t) :
    m.latticePointsUpTo (.finite s) ⊆ m.latticePointsUpTo (.finite t) := by
  rintro p ⟨⟨y, rfl⟩, hholds, hrows⟩
  refine ⟨⟨y, rfl⟩, hholds, ?_⟩
  rw [satisfiesRows, List.all_eq_true] at hrows ⊢
  intro c hc
  have hrow := hrows c hc
  simp only [List.getElem?_toArray, satisfies, lattice] at hrow ⊢
  rw [Constraint.activity?_tuple (h.terms c hc)] at hrow ⊢
  exact Constraint.admits_of_le (h.rhs_finite c hc) hst hrow

theorem latticePoints_subset (htol : 0 ≤ tol) :
    m.latticePoints ⊆ m.latticePointsUpTo (.finite tol) :=
  h.latticePointsUpTo_subset htol

theorem exists_cost (hp : p ∈ m.latticePointsUpTo (.finite tol)) :
    ∃ q : ℚ, m.objectiveValue p = .finite q := by
  obtain ⟨⟨y, rfl⟩, -⟩ := hp
  exact ⟨_, h.objectiveValue_tuple (size_rootDomain m) _⟩

end IsChecked

/-! ## Searches and enumerations of one model -/

/-- Solutions met in a search of a model that pass for integral are integral. -/
def MeetsIntegers (m : LinearModel Exact) (solver : LinearProgram → LinearVerdict)
    (clock : Clock) (settings : Settings Exact) : Prop :=
  ∀ d r, Tree.Answered m.problem (m.oracle solver) clock (.create settings) 0 d (.optimal r) →
    m.problem.isIntegral r.values settings.feasibilityTol = true →
    m.problem.isIntegral r.values (Scalar.ofInt 0) = true

/-- A search of a pure integer model over a grid that ended with a result, next to an
enumeration of the model with the same tolerance. -/
structure Trial (m : LinearModel Exact) (solver : LinearProgram → LinearVerdict)
    (clock : Clock) (settings : Settings Exact) (tol : ℚ) (best : Option (Exact × List Exact))
    (result : Result Exact) [Printable Exact] : Prop where
  checked : m.IsChecked
  integer : m.isPureInteger = true
  grid : m.rootDomain.IsSubgrid m.rootDomain
  settled : m.SettledBy solver
  tol_nonneg : 0 ≤ tol
  feasibilityTol_eq : settings.feasibilityTol = .finite tol
  improvementTol_eq : settings.improvementTol = .finite tol
  best_eq : Enumeration.best m (.finite tol) = .ok best
  run_eq : (m.solveWith solver clock settings).1 = .ok result
  meets : m.MeetsIntegers solver clock settings

namespace Trial

variable [Printable Exact] (h : m.Trial solver clock settings tol best result)

include h

theorem exists_run : ∃ tree s', (Tree.create settings).run m.problem (m.oracle solver) clock 0 =
    (.ok result, tree, s') :=
  ⟨_, _, Prod.ext h.run_eq rfl⟩

theorem isConsistent : result.IsConsistent := by
  obtain ⟨tree, s', hrun⟩ := h.exists_run
  obtain ⟨k, hends⟩ := Tree.exists_endsAt hrun
  exact hends.isConsistent

theorem answered_isExact {d : Domain Exact} {answer : RelaxationOutcome Exact}
    (hanswered : Tree.Answered m.problem (m.oracle solver) clock (.create settings) 0 d answer) :
    answer.IsExact m.problem (Scalar.ofInt 0) m.latticePoints m.objectiveValue d := by
  have horacle := h.checked.isExact_oracle h.integer h.settled
  exact hanswered.isExact horacle (hanswered.isSubgrid h.grid horacle)

/-- A reported objective is the cost of the reported point, which satisfies the rows
exactly. -/
theorem exists_point {z : Exact} (hz : result.bestObjective = some z) :
    ∃ x ∈ m.latticePoints, result.bestAssignment = some x ∧ m.objectiveValue x = z := by
  obtain ⟨tree, s', hrun⟩ := h.exists_run
  obtain ⟨d, r, haccepted⟩ := Tree.run_isAccepted hrun hz
  obtain ⟨-, -, -, hpoint⟩ := h.answered_isExact haccepted.answered
  obtain ⟨hmem, hcost⟩ := hpoint (h.meets d r haccepted.answered haccepted.integral)
  refine ⟨r.values, hmem, ?_, hcost.trans haccepted.objective_eq.symm⟩
  obtain ⟨⟨y, hy⟩, -⟩ := hmem
  rw [haccepted.assignment_eq, hy]
  exact congrArg some (roundIntegers_lattice m.problem y)

theorem isFeasible_assignment :
    result.bestAssignment.all (m.isFeasible · Result.verificationTol) = true := by
  rw [Option.all_eq_true]
  intro x hx
  have hsome : result.bestObjective.isSome = true := by
    rw [← h.isConsistent.assignment_iff, hx]
    rfl
  obtain ⟨z, hz⟩ := Option.isSome_iff_exists.mp hsome
  obtain ⟨x', hx', hassignment, -⟩ := h.exists_point hz
  obtain rfl := Option.some.inj (hx.symm.trans hassignment)
  have htol : (0 : ℚ) ≤ 1 / 10 ^ 6 := by norm_num
  obtain ⟨⟨y, rfl⟩, hholds, hrows⟩ := h.checked.latticePoints_subset htol hx'
  rw [Result.verificationTol_eq]
  exact isFeasible_lattice h.grid htol hholds hrows

/-- No point improves on a proved result by more than the tolerance, relative to the
result. -/
theorem not_improved (hproven : result.status.isProven = true) (hp : p ∈ m.latticePoints) :
    result.status = .optimal ∧ ∃ z, result.bestObjective = some z ∧
      ¬m.objectiveValue p < z - .finite tol *
        Scalar.maximum (Scalar.abs z) (Scalar.ofInt 1) := by
  obtain ⟨tree, s', hrun⟩ := h.exists_run
  have hnonneg : Scalar.ofInt 0 ≤ (Tree.create settings).settings.improvementTol := by
    change Scalar.ofInt 0 ≤ settings.improvementTol
    rw [h.improvementTol_eq]
    exact (finite_le_finite 0 tol).mpr h.tol_nonneg
  obtain ⟨hstatus, z, hz, hworse⟩ := Tree.run_not_improved h.checked.isTarget hnonneg
    (fun d answer hanswered => (h.answered_isExact hanswered).isSound) hrun hproven hp
  change ¬_ < z - settings.improvementTol * _ at hworse
  rw [h.improvementTol_eq] at hworse
  exact ⟨hstatus, z, hz, hworse⟩

/-- The enumeration finds the best of the points that satisfy the rows up to the
tolerance. -/
theorem exists_isBest : ∃ visited,
    Enumeration.IsBest (m.satisfiesRows · (.finite tol)) m.objectiveValue visited best ∧
      ∀ p, p ∈ m.latticePointsUpTo (.finite tol) ↔
        p ∈ visited ∧ m.satisfiesRows p (.finite tol) = true := by
  obtain ⟨l, u, hbox, hlu⟩ := h.grid.exists_eq_box
  rw [size_rootDomain] at hbox hlu
  obtain ⟨-, visited, hvisited, hisBest⟩ :=
    Enumeration.exists_isBest_of_nonneg h.integer hbox hlu h.tol_nonneg h.best_eq
  refine ⟨visited, hisBest, ?_⟩
  intro p
  rw [hvisited, latticePointsUpTo, Set.mem_ofPred_eq, ← and_assoc]
  apply and_congr_left
  intro _
  rw [hbox]
  constructor
  · rintro ⟨⟨y, rfl⟩, hholds⟩
    exact ⟨y, rfl, fun i hi => by exact_mod_cast holds_box_tuple.mp hholds i hi⟩
  · rintro ⟨y, rfl, hy⟩
    exact ⟨⟨y, rfl⟩, holds_box_tuple.mpr fun i hi => by exact_mod_cast hy i hi⟩

theorem enumerated :
    (best = none ∧ m.latticePointsUpTo (.finite tol) = ∅) ∨
      ∃ (q : ℚ) (x : List Exact), best = some (.finite q, x) ∧
        x ∈ m.latticePointsUpTo (.finite tol) ∧ m.objectiveValue x = .finite q ∧
        ∀ y ∈ m.latticePointsUpTo (.finite tol), .finite q ≤ m.objectiveValue y := by
  obtain ⟨visited, hbest, hvisited⟩ := h.exists_isBest
  rcases best with _ | ⟨least, x⟩
  · left
    refine ⟨rfl, Set.eq_empty_iff_forall_notMem.mpr ?_⟩
    intro p hp
    obtain ⟨hmem, hrows⟩ := (hvisited p).mp hp
    exact Bool.false_ne_true ((hbest p hmem).symm.trans hrows)
  · right
    obtain ⟨hmem, hrows, rfl, hmin⟩ := hbest
    have hx := (hvisited x).mpr ⟨hmem, hrows⟩
    obtain ⟨q, hq⟩ := h.checked.exists_cost hx
    refine ⟨q, x, by rw [hq], hx, hq, ?_⟩
    intro y hy
    obtain ⟨hvisit, hfeasible⟩ := (hvisited y).mp hy
    have hnot := hmin y hvisit hfeasible
    obtain ⟨r, hr⟩ := h.checked.exists_cost hy
    rw [hq, hr, finite_lt_finite, not_lt] at hnot
    rw [hr, finite_le_finite]
    exact hnot

/-- What bounds the enumerated points from below bounds the reported objective. -/
theorem le_objective
    {q : ℚ} (hleast : ∀ y ∈ m.latticePointsUpTo (.finite tol), .finite q ≤ m.objectiveValue y)
    {z : Exact} (hz : result.bestObjective = some z) :
    ∃ objective : ℚ, z = .finite objective ∧ q ≤ objective := by
  obtain ⟨x, hx, -, rfl⟩ := h.exists_point hz
  have hmem := h.checked.latticePoints_subset h.tol_nonneg hx
  obtain ⟨objective, hobjective⟩ := h.checked.exists_cost hmem
  have hle := hleast x hmem
  rw [hobjective, finite_le_finite] at hle
  exact ⟨objective, hobjective, hle⟩

/-! ## Agreement -/

/-- A result at a limit reports nothing better than the enumerated optimum. -/
theorem agreesWith_of_isLimit (hlimit : result.status.isLimit = true) :
    result.agreesWith (best.map Prod.fst) Result.verificationTol = true := by
  rcases h.enumerated with ⟨rfl, hempty⟩ | ⟨q, x, rfl, -, -, hleast⟩
  · have hnone : result.bestObjective = none := by
      rw [Option.eq_none_iff_forall_ne_some]
      intro z hz
      obtain ⟨p, hp, -⟩ := h.exists_point hz
      have hmem := h.checked.latticePoints_subset h.tol_nonneg hp
      rw [hempty] at hmem
      exact hmem
    cases hstatus : result.status with
    | optimal => simp [hstatus, Status.isLimit] at hlimit
    | infeasible => simp [hstatus, Status.isLimit] at hlimit
    | timeLimit => simp [Result.agreesWith, hstatus, hnone]
    | nodeLimit => simp [Result.agreesWith, hstatus, hnone]
  · exact Result.agreesWith_limit hlimit fun z hz => h.le_objective hleast hz

theorem agreesWith_iff_of_optimal
    (hstatus : result.status = .optimal) {z : Exact} (hz : result.bestObjective = some z) :
    result.agreesWith (best.map Prod.fst) Result.verificationTol = true ↔
      ∀ x ∈ m.latticePointsUpTo (.finite tol),
        ¬Undercuts Result.verificationTol (m.objectiveValue x) z := by
  rcases h.enumerated with ⟨-, hempty⟩ | ⟨q, x, rfl, hx, hcost, hleast⟩
  · obtain ⟨p, hp, -⟩ := h.exists_point hz
    have hmem := h.checked.latticePoints_subset h.tol_nonneg hp
    rw [hempty] at hmem
    exact hmem.elim
  · obtain ⟨objective, rfl, hle⟩ := h.le_objective hleast hz
    rw [Option.map_some, Result.agreesWith_optimal hstatus hz hle]
    constructor
    · intro hnot y hy hunder
      obtain ⟨r, hr⟩ := h.checked.exists_cost hy
      have hbelow := hleast y hy
      rw [hr, finite_le_finite] at hbelow
      rw [Result.verificationTol_eq] at hnot hunder
      rw [hr] at hunder
      exact hnot (hunder.of_le (by norm_num) (by norm_num) hbelow)
    · intro hall
      rw [← hcost]
      exact hall x hx

theorem agreesWith_iff_of_infeasible (hstatus : result.status = .infeasible) :
    result.agreesWith (best.map Prod.fst) Result.verificationTol = true ↔
      m.latticePointsUpTo (.finite tol) = ∅ := by
  rcases h.enumerated with ⟨rfl, hempty⟩ | ⟨q, x, rfl, hx, -⟩
  · simp [Result.agreesWith, hstatus, hempty]
  · have hnonempty : m.latticePointsUpTo (.finite tol) ≠ ∅ := Set.nonempty_iff_ne_empty.mp ⟨x, hx⟩
    simp [Result.agreesWith, hstatus, hnonempty]

/-- A result is confirmed unless it is proved and undercut by a point that satisfies the rows
up to the tolerance. -/
theorem isConfirmed_iff :
    result.isConfirmed m (best.map Prod.fst) = true ↔
      (result.status.isProven = true → ∀ x ∈ m.latticePointsUpTo (.finite tol),
        ∃ z, result.bestObjective = some z ∧
          ¬Undercuts Result.verificationTol (m.objectiveValue x) z) := by
  rw [Result.isConfirmed, h.isFeasible_assignment, Bool.true_and]
  cases hstatus : result.status with
  | optimal =>
      have hz := (h.isConsistent.optimal hstatus).1
      rw [h.agreesWith_iff_of_optimal hstatus hz, hz]
      simp [Status.isProven]
  | infeasible =>
      have hnone := (h.isConsistent.infeasible hstatus).1
      rw [h.agreesWith_iff_of_infeasible hstatus, hnone]
      simp [Status.isProven, Set.eq_empty_iff_forall_notMem]
  | timeLimit => simp [h.agreesWith_of_isLimit, hstatus, Status.isLimit, Status.isProven]
  | nodeLimit => simp [h.agreesWith_of_isLimit, hstatus, Status.isLimit, Status.isProven]

end Trial

/-! ## Separated costs -/

/-- Differences of costs that a verification sees are improvements to a search. -/
def SeparatesCosts (m : LinearModel Exact) (tol : Exact) : Prop :=
  ∀ x ∈ m.latticePoints, ∀ p ∈ m.latticePoints,
    Undercuts Result.verificationTol (m.objectiveValue p) (m.objectiveValue x) →
    m.objectiveValue p < m.objectiveValue x - tol *
      Scalar.maximum (Scalar.abs (m.objectiveValue x)) (Scalar.ofInt 1)

/-- Integer costs are separated if they are small relative to the tolerance. -/
theorem separatesCosts_of_integers
    (hcosts : ∀ p ∈ m.latticePoints, ∃ n : ℤ, m.objectiveValue p = .finite n ∧
      tol * max |(n : ℚ)| 1 < 1) : m.SeparatesCosts (.finite tol) := by
  intro x hx p hp hunder
  obtain ⟨n, hn, hsmall⟩ := hcosts x hx
  obtain ⟨k, hk, -⟩ := hcosts p hp
  rw [hn, hk, Result.verificationTol_eq] at hunder
  have hlt : k < n := by exact_mod_cast hunder.lt (by norm_num)
  have hstep : (k : ℚ) + 1 ≤ n := by exact_mod_cast hlt
  rw [hn, hk, threshold_finite, finite_lt_finite]
  linarith

theorem IsChecked.separatesCosts_zero (h : m.IsChecked) :
    m.SeparatesCosts (Scalar.ofInt 0) := by
  intro x hx p hp hunder
  obtain ⟨q, hq⟩ := h.exists_cost (h.latticePoints_subset le_rfl hx)
  obtain ⟨r, hr⟩ := h.exists_cost (h.latticePoints_subset le_rfl hp)
  have hzero : (Scalar.ofInt 0 : Exact) = .finite 0 := rfl
  rw [hq, hr, Result.verificationTol_eq] at hunder
  rw [hq, hr, hzero, threshold_finite, finite_lt_finite, zero_mul, sub_zero]
  exact hunder.lt (by norm_num)

/-- If the tolerance lets no further point satisfy the rows and costs are separated, the
result is confirmed. -/
theorem Trial.isConfirmed_of_separatesCosts [Printable Exact]
    (h : m.Trial solver clock settings tol best result)
    (hrows : m.latticePointsUpTo (.finite tol) = m.latticePoints)
    (hcosts : m.SeparatesCosts (.finite tol)) :
    result.isConfirmed m (best.map Prod.fst) = true := by
  rw [h.isConfirmed_iff, hrows]
  intro hproven p hp
  obtain ⟨-, z, hz, hworse⟩ := h.not_improved hproven hp
  obtain ⟨x, hx, -, rfl⟩ := h.exists_point hz
  exact ⟨_, hz, fun hunder => hworse (hcosts x hx p hp hunder)⟩

/-! ## Records -/

end LinearModel

theorem CommandLine.SearchArguments.settings_tolerances
    (a : SearchArguments Exact) (verbose : Bool) :
    (a.settings verbose).feasibilityTol = a.tol ∧
      (a.settings verbose).improvementTol = a.tol := by
  unfold settings
  cases a.timeLimit <;> exact ⟨rfl, rfl⟩

theorem Record.verified_ofVerified [Printable Exact]
    {m : LinearModel Exact} {settings : Settings Exact} {best : Option (Exact × List Exact)}
    (h : Enumeration.best m settings.feasibilityTol = .ok best) (result : Result Exact) :
    (ofVerified m result settings true).1.verified =
      some (result.isConfirmed m (best.map Prod.fst)) := by
  simp [ofVerified, h]

namespace LinearModel

variable {m : LinearModel Exact} {solver : LinearProgram → LinearVerdict} {clock : Clock}
  {best : Option (Exact × List Exact)} {result : Result Exact}

/-- **False alarms.**  Take a pure integer model with integer bounds that was built from a
file, in exact arithmetic, and a linear solver that settles its programs.  Let a search with
any limits, strategy and tolerance end with a result, all solutions it meets that pass for
integral being so, and let the enumeration not refuse.  Then the verification contradicts the
result if and only if its status is a proof and some integer point that satisfies the rows up
to the tolerance undercuts it.  This does not happen at a limit, nor without a tolerance, nor
if the tolerance lets no further point satisfy the rows and costs are separated. -/
theorem ofVerified_contradicts_iff [Printable Exact]
    {file : ModelFile Exact} (hfile : ofFile file = .ok m)
    (hinteger : m.isPureInteger = true) (hbounds : ∀ v ∈ m.vars, v.bounds.IsIntegral)
    (hsolver : m.SettledBy solver) {a : CommandLine.SearchArguments Exact} {tol : ℚ}
    (ha : a.tol = .finite tol) (htol : 0 ≤ tol) (verbose : Bool)
    (hbest : Enumeration.best m a.tol = .ok best)
    (hrun : (m.solveWith solver clock (a.settings verbose)).1 = .ok result)
    (hmeets : m.MeetsIntegers solver clock (a.settings verbose)) :
    ((Record.ofVerified m result (a.settings verbose) true).1.verified = some false ↔
      result.status.isProven = true ∧ ∃ x ∈ m.latticePointsUpTo a.tol,
        ∀ z, result.bestObjective = some z →
          Undercuts Result.verificationTol (m.objectiveValue x) z) ∧
    (result.status.isLimit = true ∨ a.tol = Scalar.ofInt 0 ∨
      m.latticePointsUpTo a.tol = m.latticePoints ∧ m.SeparatesCosts a.tol →
      (Record.ofVerified m result (a.settings verbose) true).1.verified = some true) := by
  have hchecked := isChecked_of_ofFile hfile
  obtain ⟨hfeasibility, himprovement⟩ := a.settings_tolerances verbose
  have hgrid := hchecked.isSubgrid_rootDomain hbounds
  have h : m.Trial solver clock (a.settings verbose) tol best result :=
    ⟨hchecked, hinteger, hgrid, hsolver, htol, hfeasibility.trans ha, himprovement.trans ha,
      ha ▸ hbest, hrun, hmeets⟩
  rw [Record.verified_ofVerified (hfeasibility ▸ hbest), ha]
  constructor
  · rw [Option.some.injEq, ← Bool.not_eq_true, h.isConfirmed_iff]
    push Not
    rfl
  · rintro (hlimit | hzero | ⟨hrows, hcosts⟩)
    · rw [Option.some.injEq, h.isConfirmed_iff]
      intro hproven
      rw [Status.isLimit_eq, hproven] at hlimit
      cases hlimit
    · obtain rfl : tol = 0 := Exact.finite.inj hzero
      rw [h.isConfirmed_of_separatesCosts m.latticePointsUpTo_zero hchecked.separatesCosts_zero]
    · rw [h.isConfirmed_of_separatesCosts hrows hcosts]

/-! ## Rivals -/

end LinearModel

/-- The usual way to search, with some tolerance. -/
def CommandLine.SearchArguments.usual (tol : Exact) : SearchArguments Exact where
  nodeSelection := .bestBound
  branching := .mostFractional
  timeLimit := none
  maxNodes := none
  tol
  output := none

namespace LinearModel

/-- One of two choices has to be made, and the second one is dearer by a millionth. -/
def rivalsFile : ModelFile Exact where
  objective := [Scalar.ofInt 1999999, Scalar.ofInt 2000001]
  vars := [{ kind := .binary }, { kind := .binary }]
  constraints := [⟨[(0, Scalar.ofInt 2), (1, Scalar.ofInt 1)], .ge, Scalar.ofInt 1⟩]

/-- The model of the rivals. -/
def rivals : LinearModel Exact where
  name := ""
  objective := [Scalar.ofInt 1999999, Scalar.ofInt 2000001]
  vars := [{ kind := .binary, bounds := .unit }, { kind := .binary, bounds := .unit }]
  constraints := [⟨[(0, Scalar.ofInt 2), (1, Scalar.ofInt 1)], .ge, Scalar.ofInt 1⟩]

/-- The box of the rivals between some ends. -/
def rivalsBox (a b c d : ℤ) : Domain Exact :=
  ⟨[Enumeration.interval (a, b), Enumeration.interval (c, d)]⟩

theorem ofFile_rivals : ofFile rivalsFile = .ok rivals := by
  decide +kernel

theorem isIntegral_bounds_rivals : ∀ v ∈ rivals.vars, v.bounds.IsIntegral := by
  intro v hv
  simp only [rivals, List.mem_cons, List.not_mem_nil, or_false, or_self] at hv
  subst hv
  exact ⟨⟨0, rfl⟩, 1, rfl⟩

theorem rootDomain_rivals :
    rivals.rootDomain = box 2 (fun _ => (0 : ℤ)) fun _ => (1 : ℤ) := by
  decide +kernel

theorem isSubgrid_rivals {box : Domain Exact} (h : box.IsSubgrid rivals.rootDomain) :
    ∃ a ∈ Finset.Icc (0 : ℤ) 1, ∃ b ∈ Finset.Icc a 1, ∃ c ∈ Finset.Icc (0 : ℤ) 1,
      ∃ d ∈ Finset.Icc c 1, box = rivalsBox a b c d := by
  obtain ⟨l, u, hbox, hlu⟩ := h.exists_eq_box
  have hsize : box.size = 2 := h.size_eq
  rw [hsize] at hbox hlu
  have hinside : ∀ i < 2, 0 ≤ l i ∧ u i ≤ 1 := by
    intro i hi
    have hget : box.get? i = some ⟨.finite (l i), .finite (u i)⟩ := by
      rw [hbox]
      exact get?_box_eq_some.mpr ⟨hi, rfl⟩
    have hroot : rivals.rootDomain.get? i = some ⟨.finite (0 : ℤ), .finite (1 : ℤ)⟩ := by
      rw [rootDomain_rivals]
      exact get?_box_eq_some.mpr ⟨hi, rfl⟩
    obtain ⟨hlower, hupper⟩ := h.inside i _ _ hget hroot
    simp only [finite_le_finite, Int.cast_le] at hlower hupper
    exact ⟨hlower, hupper⟩
  have h0 := hinside 0 two_pos
  have h1 := hinside 1 one_lt_two
  have hl0 := hlu 0 two_pos
  have hl1 := hlu 1 one_lt_two
  refine ⟨l 0, ?_, u 0, ?_, l 1, ?_, u 1, ?_, hbox⟩ <;> rw [Finset.mem_Icc] <;> omega

section

variable {K : Type*} [Field K] [LinearOrder K] [IsStrictOrderedRing K] {y : ℕ → K} {a b c d : ℤ}

theorem isFeasible_program_rivals (hab : a ≤ b) (hcd : c ≤ d) :
    (rivals.program (rivalsBox a b c d)).IsFeasible y ↔
      (((a : K) ≤ y 0 ∧ y 0 ≤ b) ∧ (c : K) ≤ y 1 ∧ y 1 ≤ d) ∧ 1 ≤ 2 * y 0 + y 1 := by
  have hbox : rivalsBox a b c d =
      box 2 (fun i => if i = 0 then a else c) fun i => if i = 0 then b else d := rfl
  have hends : ∀ i < 2, (if i = 0 then (a : ℚ) else c) ≤ if i = 0 then (b : ℚ) else d := by
    intro i _
    split
    · exact_mod_cast hab
    · exact_mod_cast hcd
  have hone : Scalar.exact (Scalar.ofInt 1 : Exact) = 1 := rfl
  have htwo : Scalar.exact (Scalar.ofInt 2 : Exact) = 2 := rfl
  rw [hbox, isFeasible_program_box hends, Nat.forall_lt_succ_right, Nat.forall_lt_succ_right]
  simp [rivals, Constraint.toRow, LinearRow.value, Range.Admits, hone, htwo]

omit [LinearOrder K] [IsStrictOrderedRing K] in
theorem cost_program_rivals :
    (rivals.program (rivalsBox a b c d)).cost y = 1999999 * y 0 + 2000001 * y 1 := by
  have hfirst : Scalar.exact (Scalar.ofInt 1999999 : Exact) = 1999999 := rfl
  have hsecond : Scalar.exact (Scalar.ofInt 2000001 : Exact) = 2000001 := rfl
  have hsize : (rivalsBox a b c d).size = 2 := rfl
  simp [rivals, program, LinearProgram.cost, hsize, Finset.sum_range_succ, hfirst, hsecond]

end

/-- An answer about a box of the rivals that carries its own proof: the point is feasible, and
it is at the lower end of the box or as far up as the row asks for, where the first choice is
used up before the second one.  If there is no answer, the upper end is too low. -/
def certifiesRivals (a b c d : ℤ) : LinearVerdict → Bool
  | .optimal value [x, y] =>
      decide (value = 1999999 * x + 2000001 * y ∧ (a ≤ x ∧ x ≤ b) ∧ (c ≤ y ∧ y ≤ d) ∧
        1 ≤ 2 * x + y ∧ (y = c ∧ (x = a ∨ 2 * x + y = 1) ∨ x = b ∧ 2 * x + y = 1))
  | .infeasible => decide (2 * b + d < 1)
  | _ => false

theorem isExact_of_certifiesRivals
    {a b c d : ℤ} (hab : a ≤ b) (hcd : c ≤ d) {verdict : LinearVerdict}
    (h : certifiesRivals a b c d verdict = true) :
    verdict.IsExact (rivals.program (rivalsBox a b c d)) := by
  unfold certifiesRivals at h
  split at h
  next value x y =>
    rw [decide_eq_true_eq] at h
    obtain ⟨rfl, hx, hy, hrow, htight⟩ := h
    refine ⟨rfl, ?_, ?_, ?_⟩
    · rw [isFeasible_program_rivals hab hcd]
      exact ⟨⟨hx, hy⟩, hrow⟩
    · rw [cost_program_rivals]
      rfl
    · intro z hz
      rw [isFeasible_program_rivals hab hcd] at hz
      obtain ⟨⟨⟨hlow, hhigh⟩, hlow', -⟩, hsum⟩ := hz
      rw [cost_program_rivals]
      -- The multipliers that `linarith` finds are a solution of the dual program: of the lower
      -- bounds, of the row and the lower bound of the second choice, and of the row and the
      -- upper bound of the first.
      rcases htight with ⟨rfl, rfl | htight⟩ | ⟨rfl, htight⟩
      · push_cast
        linarith
      · have hcast : 2 * (x : ℝ) + c = 1 := by exact_mod_cast htight
        push_cast
        linarith
      · have hcast : 2 * (b : ℝ) + y = 1 := by exact_mod_cast htight
        push_cast
        linarith
  next =>
    rw [decide_eq_true_eq] at h
    intro z hz
    rw [isFeasible_program_rivals hab hcd] at hz
    obtain ⟨⟨⟨-, hhigh⟩, -, hhigh'⟩, hsum⟩ := hz
    have hcast : 2 * (b : ℝ) + d < 1 := by exact_mod_cast h
    linarith
  next => cases h

/-- The simplex method certifies its answers about every box of the rivals. -/
theorem certifiesRivals_solve : ∀ a ∈ Finset.Icc (0 : ℤ) 1, ∀ b ∈ Finset.Icc a 1,
    ∀ c ∈ Finset.Icc (0 : ℤ) 1, ∀ d ∈ Finset.Icc c 1,
    certifiesRivals a b c d (LinearProgram.solve (rivals.program (rivalsBox a b c d))) = true := by
  decide +kernel

theorem settledBy_rivals : rivals.SettledBy LinearProgram.solve := by
  intro box h
  obtain ⟨a, ha, b, hb, c, hc, d, hd, rfl⟩ := isSubgrid_rivals h
  exact isExact_of_certifiesRivals (Finset.mem_Icc.mp hb).1 (Finset.mem_Icc.mp hd).1
    (certifiesRivals_solve a ha b hb c hc d hd)

theorem isIntegral_relax_rivals : ∀ tol ∈ [Scalar.decimal 1 6, Scalar.decimal 1 7],
    ∀ a ∈ Finset.Icc (0 : ℤ) 1, ∀ b ∈ Finset.Icc a 1,
    ∀ c ∈ Finset.Icc (0 : ℤ) 1, ∀ d ∈ Finset.Icc c 1,
    (rivals.relax LinearProgram.solve (rivalsBox a b c d)).toOption.all (fun
      | .optimal r => !rivals.problem.isIntegral r.values tol ||
          rivals.problem.isIntegral r.values (Scalar.ofInt 0)
      | _ => true) = true := by
  decide +kernel

theorem meetsIntegers_rivals
    {tol : Exact} (htol : tol ∈ [Scalar.decimal 1 6, Scalar.decimal 1 7]) :
    rivals.MeetsIntegers LinearProgram.solve .frozen
      ((CommandLine.SearchArguments.usual tol).settings false) := by
  have hchecked := isChecked_of_ofFile ofFile_rivals
  have hgrid := hchecked.isSubgrid_rootDomain isIntegral_bounds_rivals
  have horacle := hchecked.isExact_oracle (by decide) settledBy_rivals
  intro box r hanswered hintegral
  obtain ⟨a, ha, b, hb, c, hc, d, hd, rfl⟩ :=
    isSubgrid_rivals (hanswered.isSubgrid hgrid horacle)
  obtain ⟨k, node, rest, s', -, -, -, -, hanswer⟩ := hanswered
  have hrelax : rivals.relax LinearProgram.solve (rivalsBox a b c d) = .ok (.optimal r) :=
    (Prod.mk.inj hanswer).1
  have htest := isIntegral_relax_rivals tol htol a ha b hb c hc d hd
  rw [hrelax] at htest
  change rivals.problem.isIntegral r.values tol = true at hintegral
  simpa [Except.toOption, hintegral] using htest

theorem exists_of_mem_latticePointsUpTo_rivals
    {tol : Exact} {p : List Exact} (hp : p ∈ rivals.latticePointsUpTo tol) :
    ∃ x ∈ Finset.Icc (0 : ℤ) 1, ∃ y ∈ Finset.Icc (0 : ℤ) 1,
      p = [Scalar.ofInt x, Scalar.ofInt y] := by
  obtain ⟨⟨y, rfl⟩, hholds, -⟩ := hp
  rw [rootDomain_rivals] at hholds
  have hinside := holds_box_tuple.mp hholds
  refine ⟨y 0, ?_, y 1, ?_, rfl⟩
  · rw [Finset.mem_Icc]
    exact_mod_cast hinside 0 two_pos
  · rw [Finset.mem_Icc]
    exact_mod_cast hinside 1 one_lt_two

/-- A ten millionth makes no further choice satisfy the row, and the costs are small relative
to it. -/
theorem points_rivals : ∀ x ∈ Finset.Icc (0 : ℤ) 1, ∀ y ∈ Finset.Icc (0 : ℤ) 1,
    let p : List Exact := [Scalar.ofInt x, Scalar.ofInt y]
    let cost := 1999999 * x + 2000001 * y
    (rivals.satisfiesRows p (Scalar.decimal 1 7) = true →
      rivals.satisfiesRows p (Scalar.ofInt 0) = true) ∧
    rivals.objectiveValue p = .finite cost ∧ 1 / 10 ^ 7 * max |(cost : ℚ)| 1 < 1 := by
  decide +kernel

theorem latticePointsUpTo_rivals :
    rivals.latticePointsUpTo (Scalar.decimal 1 7) = rivals.latticePoints := by
  apply Set.Subset.antisymm
  · intro p hp
    obtain ⟨x, hx, y, hy, rfl⟩ := exists_of_mem_latticePointsUpTo_rivals hp
    exact ⟨hp.1, hp.2.1, (points_rivals x hx y hy).1 hp.2.2⟩
  · rw [decimal_eq]
    exact (isChecked_of_ofFile ofFile_rivals).latticePoints_subset (by norm_num)

theorem separatesCosts_rivals : rivals.SeparatesCosts (Scalar.decimal 1 7) := by
  rw [decimal_eq, Nat.cast_one]
  apply separatesCosts_of_integers
  intro p hp
  obtain ⟨x, hx, y, hy, rfl⟩ := exists_of_mem_latticePointsUpTo_rivals hp
  exact ⟨_, (points_rivals x hx y hy).2⟩

/-- With a smaller tolerance the rivals are told apart, and the verification agrees. -/
theorem ofVerified_rivals_confirmed :
    let settings := (CommandLine.SearchArguments.usual (Scalar.decimal 1 7)).settings false
    ofFile rivalsFile = .ok rivals ∧ rivals.SettledBy LinearProgram.solve ∧
    rivals.MeetsIntegers LinearProgram.solve .frozen settings ∧
    rivals.latticePointsUpTo (Scalar.decimal 1 7) = rivals.latticePoints ∧
    rivals.SeparatesCosts (Scalar.decimal 1 7) ∧
    ∃ result, (rivals.solveWith LinearProgram.solve .frozen settings).1 = .ok result ∧
      result.status = .optimal ∧ result.bestObjective = some (Scalar.ofInt 1999999) ∧
      (Record.ofVerified rivals result settings true).1.verified = some true := by
  intro settings
  have hevaluates : (solve rivals.problem (rivals.oracle LinearProgram.solve) settings .frozen
      0).1.toOption.any (fun result => decide (result.status = .optimal ∧
        result.bestObjective = some (Scalar.ofInt 1999999))) = true := by
    decide +kernel
  obtain ⟨result, tree, s', hrun, htest⟩ := Tree.exists_result_of_any hevaluates
  obtain ⟨hstatus, hobjective⟩ := of_decide_eq_true htest
  have hsolve : (rivals.solveWith LinearProgram.solve .frozen settings).1 = .ok result :=
    congrArg Prod.fst hrun
  have hbest : Enumeration.best rivals (Scalar.decimal 1 7) =
      .ok (some (Scalar.ofInt 1999999, [Scalar.ofInt 1, Scalar.ofInt 0])) := by
    decide +kernel
  have hmeets : rivals.MeetsIntegers LinearProgram.solve .frozen settings :=
    meetsIntegers_rivals (by simp)
  have htol : (CommandLine.SearchArguments.usual (Scalar.decimal 1 7)).tol =
      .finite ((1 : ℕ) / 10 ^ 7) :=
    decimal_eq 1 7
  obtain ⟨-, hconfirmed⟩ := ofVerified_contradicts_iff ofFile_rivals (by decide)
    isIntegral_bounds_rivals settledBy_rivals htol (by norm_num) false hbest hsolve hmeets
  exact ⟨ofFile_rivals, settledBy_rivals, hmeets, latticePointsUpTo_rivals,
    separatesCosts_rivals, result, hsolve, hstatus, hobjective,
    hconfirmed (Or.inr (Or.inr ⟨latticePointsUpTo_rivals, separatesCosts_rivals⟩))⟩

/-- A search with the usual tolerance stays with the dearer of the rivals, which it has met
first, and the verification contradicts it. -/
theorem ofVerified_rivals_contradicted :
    let settings := (CommandLine.SearchArguments.usual (Scalar.decimal 1 6)).settings false
    ofFile rivalsFile = .ok rivals ∧ rivals.isPureInteger = true ∧
    (∀ v ∈ rivals.vars, v.bounds.IsIntegral) ∧ rivals.SettledBy LinearProgram.solve ∧
    Scalar.ofInt 0 ≤ settings.feasibilityTol ∧ settings.feasibilityTol < .finite (1 / 2) ∧
    Enumeration.best rivals settings.feasibilityTol =
      .ok (some (Scalar.ofInt 1999999, [Scalar.ofInt 1, Scalar.ofInt 0])) ∧
    rivals.MeetsIntegers LinearProgram.solve .frozen settings ∧
    ∃ result, (rivals.solveWith LinearProgram.solve .frozen settings).1 = .ok result ∧
      result.status = .optimal ∧ result.bestObjective = some (Scalar.ofInt 2000001) ∧
      (Record.ofVerified rivals result settings true).1.verified = some false := by
  intro settings
  have hevaluates : (solve rivals.problem (rivals.oracle LinearProgram.solve) settings .frozen
      0).1.toOption.any (fun result => decide (result.status = .optimal ∧
        result.bestObjective = some (Scalar.ofInt 2000001) ∧
        (Record.ofVerified rivals result settings true).1.verified = some false)) = true := by
    decide +kernel
  obtain ⟨result, tree, s', hrun, htest⟩ := Tree.exists_result_of_any hevaluates
  refine ⟨ofFile_rivals, by decide, isIntegral_bounds_rivals, settledBy_rivals,
    by decide +kernel, by decide +kernel, by decide +kernel, meetsIntegers_rivals (by simp),
    result, congrArg Prod.fst hrun, ?_⟩
  exact of_decide_eq_true htest

end LinearModel

end BranchBound
