import BranchBound.Benchmark.Record
import BranchBound.Proofs.LinearPrograms
import BranchBound.Proofs.ModelEnumeration

/-!
# Searching linear models

In exact arithmetic a search of a pure integer model with an exact linear solver finds what
an enumeration of its grid finds, whatever the order of exploration and the branching rule.

The linear solver stays a parameter.  What is asked of it is that it settles the programs of
the model over the grids inside the model's box, and the search meets no other ones.
-/

namespace BranchBound

open Exact

/-- Integer bounds leave integer root bounds, for binary variables as well. -/
theorem Variable.isIntegral_rootInterval
    {v : Variable Exact} (h : v.bounds.IsIntegral) : v.rootInterval.IsIntegral := by
  obtain ⟨⟨a, ha⟩, b, hb⟩ := h
  rw [value_eq] at ha hb
  unfold rootInterval
  split
  · have hlower : Scalar.maximum v.bounds.lower (Scalar.ofInt 0) =
        .finite ((max a 0 : ℤ) : ℚ) := by
      rw [ha, Int.cast_max]
      exact maximum_finite _ _
    have hupper : Scalar.minimum v.bounds.upper (Scalar.ofInt 1) =
        .finite ((min b 1 : ℤ) : ℚ) := by
      rw [hb, Int.cast_min, Int.cast_one]
      exact minimum_finite _ _
    rw [hlower, hupper]
    exact ⟨⟨_, value_eq _⟩, _, value_eq _⟩
  · rw [← value_eq v.bounds.lower] at ha
    rw [← value_eq v.bounds.upper] at hb
    exact ⟨⟨a, ha⟩, b, hb⟩

theorem Exact.contains_box_tuple
    {n : ℕ} {l u x : ℕ → ℚ} (h : ∀ i < n, l i ≤ x i ∧ x i ≤ u i) {tol : ℚ} (htol : 0 ≤ tol) :
    (box n l u).contains (tuple n x) (.finite tol) = true := by
  have hsize : ((tuple n x).length == (box n l u).size) = true := by simp
  rw [Domain.contains, hsize, Bool.true_and, box, tuple, List.zipWith_map, List.zipWith_self,
    List.all_map, List.all_eq_true]
  intro i hi
  obtain ⟨hlow, hhigh⟩ := h i (List.mem_range.mp hi)
  have hcontains : l i - tol ≤ x i ∧ x i ≤ u i + tol := ⟨by linarith, by linarith⟩
  simpa [Interval.contains] using hcontains

namespace LinearModel

variable {m : LinearModel Exact} {solver : LinearProgram → LinearVerdict}
  {settings : Settings Exact}

@[simp] theorem size_rootDomain (m : LinearModel Exact) : m.rootDomain.size = m.numVars :=
  List.length_map _

/-! ## Answers over a grid -/

/-- The integer points of the box that satisfy the rows. -/
def latticePoints (m : LinearModel Exact) : Set (List Exact) :=
  {p | (∃ y : ℕ → ℤ, p = lattice m.numVars y) ∧ m.rootDomain.Holds p ∧
    m.satisfiesRows p (Scalar.ofInt 0) = true}

/-- The programs of a model over the grids inside its box are settled by a solver. -/
def SettledBy (m : LinearModel Exact) (solver : LinearProgram → LinearVerdict) : Prop :=
  ∀ d : Domain Exact, d.IsSubgrid m.rootDomain → (solver (m.program d)).IsExact (m.program d)

namespace IsChecked

variable (h : m.IsChecked) {d : Domain Exact}

include h

theorem isSubgrid_rootDomain (hbounds : ∀ v ∈ m.vars, v.bounds.IsIntegral) :
    m.rootDomain.IsSubgrid m.rootDomain :=
  Problem.isSubgrid_rootDomain h.valid
    fun v hv => Variable.isIntegral_rootInterval (hbounds v hv)

theorem covers (hd : d.size = m.numVars) : m.covers d = true := by
  rw [LinearModel.covers, hd, h.length_objective, Bool.and_eq_true]
  refine ⟨decide_eq_true le_rfl, ?_⟩
  rw [List.all_eq_true]
  intro c hc
  rw [List.all_eq_true]
  intro term hterm
  exact decide_eq_true (h.terms c hc term hterm).1

/-- The program over a grid is about the points of the grid that satisfy the rows. -/
theorem isFeasible_program_iff (hd : d.IsSubgrid m.rootDomain) (x : ℕ → ℚ) :
    (m.program d).IsFeasible x ↔ d.Holds (tuple m.numVars x) ∧
      m.satisfiesRows (tuple m.numVars x) (Scalar.ofInt 0) = true := by
  obtain ⟨l, u, hbox, hlu⟩ := hd.exists_eq_box
  rw [hd.size_eq, size_rootDomain] at hbox hlu
  have hluQ : ∀ i < m.numVars, (l i : ℚ) ≤ u i := by
    intro i hi
    exact_mod_cast hlu i hi
  rw [hbox, isFeasible_program_box hluQ, holds_box_tuple, h.satisfiesRows_tuple]
  simp only [Rat.cast_id]

theorem isExact_infeasible
    (hd : d.IsSubgrid m.rootDomain)
    (hexact : LinearVerdict.infeasible.IsExact (m.program d)) :
    RelaxationOutcome.infeasible.IsExact m.problem (Scalar.ofInt 0) m.latticePoints
      m.objectiveValue d := by
  rintro p ⟨⟨y, rfl⟩, -, hrows⟩ hholds
  apply hexact fun i => ((y i : ℚ) : ℝ)
  rw [LinearProgram.isFeasible_cast, h.isFeasible_program_iff hd]
  exact ⟨hholds, hrows⟩

theorem isExact_optimal
    (hinteger : m.isPureInteger = true) (hd : d.IsSubgrid m.rootDomain)
    {value : ℚ} {point : List ℚ}
    (hexact : (LinearVerdict.optimal value point).IsExact (m.program d)) :
    (RelaxationOutcome.optimal ⟨Scalar.ofRat value, point.map Scalar.ofRat⟩).IsExact
      m.problem (Scalar.ofInt 0) m.latticePoints m.objectiveValue d := by
  obtain ⟨hlength, hpoint, hvalue, hleast⟩ := hexact
  have hsize : d.size = m.numVars := by rw [hd.size_eq, size_rootDomain]
  have hvalues : point.map (Scalar.ofRat : ℚ → Exact) = tuple m.numVars (point.getD · 0) := by
    have hnumber : point.length = m.numVars := by
      rw [hlength, ← hsize]
      exact List.length_map _
    rw [← hnumber]
    exact map_finite_eq_tuple point
  rw [hvalues]
  obtain ⟨hholds, hrows⟩ := (h.isFeasible_program_iff hd _).mp hpoint
  refine ⟨rfl, hholds, ?_, ?_⟩
  · rintro p ⟨⟨y, rfl⟩, -, hyrows⟩ hinside
    have hy := (h.isFeasible_program_iff hd fun i => y i).mpr ⟨hinside, hyrows⟩
    have hle := hleast _ (LinearProgram.isFeasible_cast.mpr hy)
    rw [LinearProgram.cost_cast, Rat.cast_le] at hle
    rw [lattice, h.objectiveValue_tuple hsize]
    exact (finite_le_finite _ _).mpr hle
  · intro hintegral
    have hnear : ∀ i < m.numVars, point.getD i 0 = Exact.nearest (point.getD i 0) := by
      intro i hi
      have hzero := Problem.near_of_isIntegral (List.all_eq_true.mp hinteger) hintegral hi
      exact sub_eq_zero.mp (abs_nonpos_iff.mp hzero)
    refine ⟨⟨⟨_, tuple_congr hnear⟩, hd.holds hholds, hrows⟩, ?_⟩
    rw [h.objectiveValue_tuple hsize, ← hvalue]
    rfl

/-- Over a grid the relaxation of a model settles the feasible integer points. -/
theorem exists_isExact
    (hinteger : m.isPureInteger = true) (hsolver : m.SettledBy solver)
    (hd : d.IsSubgrid m.rootDomain) :
    ∃ answer, m.relax solver d = .ok answer ∧
      answer.IsExact m.problem (Scalar.ofInt 0) m.latticePoints m.objectiveValue d := by
  have hexact := hsolver d hd
  rw [relax, h.covers (by rw [hd.size_eq, size_rootDomain]), if_pos rfl]
  cases hverdict : solver (m.program d) with
  | optimal value point =>
      rw [hverdict] at hexact
      exact ⟨_, rfl, h.isExact_optimal hinteger hd hexact⟩
  | infeasible =>
      rw [hverdict] at hexact
      exact ⟨_, rfl, h.isExact_infeasible hd hexact⟩
  | unbounded =>
      rw [hverdict] at hexact
      exact hexact.elim
  | stalled =>
      rw [hverdict] at hexact
      exact hexact.elim

theorem isExact_oracle
    (hinteger : m.isPureInteger = true) (hsolver : m.SettledBy solver) :
    (m.oracle solver).IsExact m.problem (Scalar.ofInt 0) m.latticePoints m.objectiveValue := by
  intro s d budget hd
  obtain ⟨answer, hanswer, hexact⟩ := h.exists_isExact hinteger hsolver hd
  exact ⟨answer, s + 1, congrArg (·, s + 1) hanswer, hexact⟩

theorem isTarget : m.problem.IsTarget m.latticePoints m.objectiveValue := by
  constructor
  · rintro p ⟨⟨y, rfl⟩, hholds, -⟩
    exact ⟨hholds, isIntegerPoint_lattice _ _ _⟩
  · rintro p ⟨⟨y, rfl⟩, -⟩
    rw [lattice, h.objectiveValue_tuple (size_rootDomain m)]
    rfl

/-- A search of a small pure integer model with an exact solver is complete. -/
theorem isComplete
    (hinteger : m.isPureInteger = true) (hbounds : ∀ v ∈ m.vars, v.bounds.IsIntegral)
    (hsolver : m.SettledBy solver) (hsize : m.problem.gridSize ≤ Enumeration.maxPoints)
    (htime : settings.timeLimit = none) (hnodes : settings.maxNodes = Settings.unlimitedNodes)
    (hfeasibility : settings.feasibilityTol = Scalar.ofInt 0)
    (himprovement : settings.improvementTol = Scalar.ofInt 0) :
    (Tree.create settings).IsComplete m.vars (m.oracle solver) m.latticePoints
      m.objectiveValue := by
  have hpoints : Enumeration.maxPoints = 2 ^ 22 := by decide +kernel
  have hlimit : Settings.unlimitedNodes = 2 ^ 64 - 1 := by decide +kernel
  have hdepth : Node.maxDepth = 2 ^ 64 - 1 := by decide +kernel
  have hzero : (Scalar.ofInt 0 : Exact) ≤ Scalar.ofInt 0 := by decide
  change (Problem.ofVariables m.vars).gridSize ≤ _ at hsize
  constructor
  case valid => exact h.valid
  case isIntegral =>
    intro v hv
    exact ⟨List.all_eq_true.mp hinteger v hv, Variable.isIntegral_rootInterval (hbounds v hv)⟩
  case target => exact h.isTarget
  case feasibilityTol_nonneg => exact hfeasibility ▸ hzero
  case improvementTol_nonneg => exact himprovement ▸ hzero
  case timeLimit_eq => exact htime
  case gridSize_le =>
    change 2 * (Problem.ofVariables m.vars).gridSize ≤ settings.maxNodes
    omega
  case gridSize_le_depth => omega
  case answers =>
    change (m.oracle solver).IsExact m.problem settings.feasibilityTol _ _
    rw [hfeasibility]
    exact h.isExact_oracle hinteger hsolver

end IsChecked

/-! ## Searching and enumerating -/

/-- An integer point of the box that satisfies the rows up to a tolerance is feasible. -/
theorem isFeasible_lattice
    (hgrid : m.rootDomain.IsSubgrid m.rootDomain) {y : ℕ → ℤ} {tol : ℚ} (htol : 0 ≤ tol)
    (hholds : m.rootDomain.Holds (lattice m.numVars y))
    (hrows : m.satisfiesRows (lattice m.numVars y) (.finite tol) = true) :
    m.isFeasible (lattice m.numVars y) (.finite tol) = true := by
  obtain ⟨l, u, hbox, -⟩ := hgrid.exists_eq_box
  rw [size_rootDomain] at hbox
  have hcontains : m.rootDomain.contains (lattice m.numVars y) (.finite tol) = true := by
    rw [hbox] at hholds ⊢
    exact contains_box_tuple (holds_box_tuple.mp hholds) htol
  have hlength : (lattice m.numVars y).length = m.numVars := length_tuple _ _
  rw [isFeasible, hlength, hcontains, hrows, beq_self_eq_true]
  rfl

theorem isFeasible_of_mem_latticePoints
    (hgrid : m.rootDomain.IsSubgrid m.rootDomain) {p : List Exact}
    (hp : p ∈ m.latticePoints) : m.isFeasible p (Scalar.ofInt 0) = true := by
  obtain ⟨⟨y, rfl⟩, hholds, hrows⟩ := hp
  exact isFeasible_lattice hgrid le_rfl hholds hrows

/-- **Searching a linear model is enumerating it.**  Take a pure integer model with integer
bounds that was built from a file, in exact arithmetic, and a linear solver that settles its
programs over the grids inside its box.  If the enumeration of the model does not refuse, a
search without limits and tolerances ends with a result: infeasible if the enumeration finds
nothing, and otherwise optimal with the objective that it finds and a feasible point of that
objective. -/
theorem solveWith_eq_best [Printable Exact]
    {file : ModelFile Exact} (hfile : ofFile file = .ok m)
    (hinteger : m.isPureInteger = true) (hbounds : ∀ v ∈ m.vars, v.bounds.IsIntegral)
    (hsolver : m.SettledBy solver) {best : Option (Exact × List Exact)}
    (hbest : Enumeration.best m (Scalar.ofInt 0) = .ok best)
    (htime : settings.timeLimit = none) (hnodes : settings.maxNodes = Settings.unlimitedNodes)
    (hfeasibility : settings.feasibilityTol = Scalar.ofInt 0)
    (himprovement : settings.improvementTol = Scalar.ofInt 0) (clock : Clock) :
    ∃ result, (m.solveWith solver clock settings).1 = .ok result ∧
      (best = none → result.status = .infeasible) ∧
      ∀ least x, best = some (least, x) →
        result.status = .optimal ∧ result.bestObjective = some least ∧
        ∃ y, result.bestAssignment = some y ∧
          m.isFeasible y (Scalar.ofInt 0) = true ∧ m.objectiveValue y = least := by
  have hchecked := isChecked_of_ofFile hfile
  have hgrid : m.rootDomain.IsSubgrid m.rootDomain :=
    Problem.isSubgrid_rootDomain hchecked.valid
      fun v hv => Variable.isIntegral_rootInterval (hbounds v hv)
  obtain ⟨l, u, hbox, hlu⟩ := hgrid.exists_eq_box
  rw [size_rootDomain] at hbox hlu
  obtain ⟨hsize, visited, hvisited, hisBest⟩ :=
    Enumeration.exists_isBest hinteger hbox hlu hbest
  have hcomplete := hchecked.isComplete hinteger hbounds hsolver hsize htime hnodes
    hfeasibility himprovement
  have hpoints : ∀ p, p ∈ m.latticePoints ↔
      p ∈ visited ∧ m.satisfiesRows p (Scalar.ofInt 0) = true := by
    intro p
    rw [hvisited, latticePoints, Set.mem_ofPred_eq, ← and_assoc]
    apply and_congr_left
    intro _
    constructor
    · rintro ⟨⟨y, rfl⟩, hholds⟩
      rw [hbox] at hholds
      exact ⟨y, rfl, fun i hi => by exact_mod_cast holds_box_tuple.mp hholds i hi⟩
    · rintro ⟨y, rfl, hy⟩
      rw [hbox]
      exact ⟨⟨y, rfl⟩, holds_box_tuple.mpr fun i hi => by exact_mod_cast hy i hi⟩
  obtain ⟨result, hrun, hstatus, hoptimal⟩ := hcomplete.run_eq_best hisBest hpoints
    (fun p hp => hp.1)
    (by
      rintro x ⟨⟨y, rfl⟩, -⟩ p - hlt
      apply Incumbent.lt_threshold_of_lt ?_ (himprovement ▸ Scalar.value_zero) hlt
      rw [lattice, hchecked.objectiveValue_tuple (size_rootDomain m)]
      rfl)
    clock 0
  refine ⟨result, hrun, hstatus.mpr, ?_⟩
  intro least x hleast
  obtain ⟨hproven, hobjective, y, hy, hassignment, hcost⟩ := hoptimal least x hleast
  exact ⟨hproven, hobjective, y, hassignment, isFeasible_of_mem_latticePoints hgrid hy, hcost⟩

/-! ## A sample -/

/-- Exact scalars written as quotients. -/
instance instPrintableExact : Printable Exact :=
  let text : Exact → String
    | .undefined => "NaN"
    | .infinite negative => if negative then "-inf" else "inf"
    | .finite value => toString value
  ⟨text, text, fun _ => text, fun _ => text⟩

/-- The greatest integer up to two whose double is at most three. -/
def sampleFile : ModelFile Exact where
  objective := [Scalar.ofInt (-1)]
  vars := [{ kind := .integer, lower := some (Scalar.ofInt 0), upper := some (Scalar.ofInt 2) }]
  constraints := [⟨[(0, Scalar.ofInt 1), (0, Scalar.ofInt 1)], .le, Scalar.ofInt 3⟩]

/-- The model of the sample file, the repeated column added up. -/
def sample : LinearModel Exact where
  name := ""
  objective := [Scalar.ofInt (-1)]
  vars := [{ kind := .integer, bounds := ⟨Scalar.ofInt 0, Scalar.ofInt 2⟩ }]
  constraints := [⟨[(0, Scalar.ofInt 2)], .le, Scalar.ofInt 3⟩]

section

variable {K : Type*} [Field K] [LinearOrder K] [IsStrictOrderedRing K] {y : ℕ → K} {a b : ℤ}

theorem isFeasible_program_sample (hab : a ≤ b) :
    (sample.program ⟨[Enumeration.interval (a, b)]⟩).IsFeasible y ↔
      ((a : K) ≤ y 0 ∧ y 0 ≤ b) ∧ 2 * y 0 ≤ 3 := by
  have hbox : (⟨[Enumeration.interval (a, b)]⟩ : Domain Exact) =
      box 1 (fun _ => a) fun _ => b := rfl
  have habQ : ∀ i < 1, (a : ℚ) ≤ b := by
    intro _ _
    exact_mod_cast hab
  have htwo : Scalar.exact (Scalar.ofInt 2 : Exact) = 2 := rfl
  have hthree : Scalar.exact (Scalar.ofInt 3 : Exact) = 3 := rfl
  rw [hbox, isFeasible_program_box habQ]
  simp [sample, Constraint.toRow, LinearRow.value, Range.Admits, htwo, hthree]

omit [LinearOrder K] [IsStrictOrderedRing K] in
theorem cost_program_sample (d : Domain Exact) (hd : d.size = 1) :
    (sample.program d).cost y = -y 0 := by
  have hone : Scalar.exact (Scalar.ofInt (-1) : Exact) = -1 := rfl
  simp [sample, program, LinearProgram.cost, hd, hone]

end

/-- A point that reaches an upper bound is optimal. -/
theorem isExact_sample
    {a b : ℤ} {x : ℚ} (hlow : a ≤ x) (hhigh : x ≤ b) (hrow : 2 * x ≤ 3)
    (htight : x = b ∨ 2 * x = 3) :
    (LinearVerdict.optimal (-x) [x]).IsExact
      (sample.program ⟨[Enumeration.interval (a, b)]⟩) := by
  have hab : a ≤ b := by exact_mod_cast hlow.trans hhigh
  refine ⟨rfl, ?_, ?_, ?_⟩
  · rw [isFeasible_program_sample hab]
    exact ⟨⟨hlow, hhigh⟩, hrow⟩
  · rw [cost_program_sample _ rfl]
    rfl
  · intro y hy
    rw [isFeasible_program_sample hab] at hy
    obtain ⟨⟨-, hupper⟩, hdouble⟩ := hy
    rw [cost_program_sample _ rfl, Rat.cast_neg]
    rcases htight with rfl | hthree
    · rw [Rat.cast_intCast]
      linarith
    · have hcast : 2 * (x : ℝ) = 3 := by exact_mod_cast hthree
      linarith

theorem solve_sample : ∀ a ∈ Finset.Icc (0 : ℤ) 1, ∀ b ∈ Finset.Icc a 2,
    LinearProgram.solve (sample.program ⟨[Enumeration.interval (a, b)]⟩) =
      .optimal (-min (b : ℚ) (3 / 2)) [min (b : ℚ) (3 / 2)] := by
  decide +kernel

/-- The simplex method settles the programs of the sample. -/
theorem settledBy_sample : sample.SettledBy LinearProgram.solve := by
  intro d hd
  obtain ⟨l, u, hbox, hlu⟩ := hd.exists_eq_box
  rw [hd.size_eq] at hbox hlu
  have hget : d.get? 0 = some ⟨.finite (l 0), .finite (u 0)⟩ := by
    rw [hbox]
    rfl
  have hroot : sample.rootDomain.get? 0 = some ⟨.finite (0 : ℤ), .finite (2 : ℤ)⟩ := rfl
  obtain ⟨hlower, hupper⟩ := hd.inside 0 _ _ hget hroot
  simp only [finite_le_finite, Int.cast_le] at hlower hupper
  have hle := hlu 0 one_pos
  obtain rfl : d = ⟨[Enumeration.interval (l 0, u 0)]⟩ := hbox
  generalize l 0 = a at hlower hle ⊢
  generalize u 0 = b at hupper hle ⊢
  by_cases ha : a ≤ 1
  · rw [solve_sample a (Finset.mem_Icc.mpr ⟨hlower, ha⟩) b (Finset.mem_Icc.mpr ⟨hle, hupper⟩)]
    apply isExact_sample
    case hlow =>
      have hone : (a : ℚ) ≤ 1 := by exact_mod_cast ha
      exact le_min (by exact_mod_cast hle) (by linarith)
    case hhigh => exact min_le_left _ _
    case hrow =>
      have hhalf := min_le_right (b : ℚ) (3 / 2)
      linarith
    case htight =>
      apply (min_choice (b : ℚ) (3 / 2)).imp_right
      intro hmin
      rw [hmin]
      norm_num
  · obtain ⟨rfl, rfl⟩ : a = 2 ∧ b = 2 := by omega
    have hsolve : LinearProgram.solve (sample.program ⟨[Enumeration.interval (2, 2)]⟩) =
        .infeasible := by
      decide +kernel
    rw [hsolve]
    intro y hy
    rw [isFeasible_program_sample le_rfl] at hy
    obtain ⟨⟨hlow, -⟩, hdouble⟩ := hy
    push_cast at hlow
    linarith

/-- The relaxation of the sample ends at three halves, and the search at one. -/
theorem solveWith_sample_eq_best :
    ofFile sampleFile = .ok sample ∧ sample.SettledBy LinearProgram.solve ∧
    ∃ result,
      (sample.solveWith LinearProgram.solve .frozen
        (Settings.standard.withTolerance (Scalar.ofInt 0))).1 = .ok result ∧
      result.status = .optimal ∧ result.bestObjective = some (Scalar.ofInt (-1)) := by
  have hfile : ofFile sampleFile = .ok sample := by decide +kernel
  have hinteger : sample.isPureInteger = true := rfl
  have hbounds : ∀ v ∈ sample.vars, v.bounds.IsIntegral := by
    intro v hv
    obtain rfl := List.mem_singleton.mp hv
    exact ⟨⟨0, rfl⟩, 2, rfl⟩
  have hbest : Enumeration.best sample (Scalar.ofInt 0) =
      .ok (some (Scalar.ofInt (-1), [Scalar.ofInt 1])) := by
    decide +kernel
  have htime : (Settings.standard.withTolerance (Scalar.ofInt 0 : Exact)).timeLimit = none := rfl
  obtain ⟨result, hrun, -, hoptimal⟩ := solveWith_eq_best hfile hinteger hbounds
    settledBy_sample hbest htime rfl rfl rfl .frozen
  obtain ⟨hstatus, hobjective, -⟩ := hoptimal _ _ rfl
  exact ⟨hfile, settledBy_sample, result, hrun, hstatus, hobjective⟩

end LinearModel

end BranchBound
