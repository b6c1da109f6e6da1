import BranchBound.Proofs.KnapsackEnumeration

/-!
# Independence of the strategy

Two searches of one problem may take different nodes in a different order, with different
oracles and incumbents, and no step of one corresponds to a step of the other.  If both
prove their statuses about the same points, they agree all the same: each reports the cost
of a point, and the other one accounts for that point.
-/

namespace BranchBound

variable {α : Type} [Scalar α] [LawfulScalar α]

/-! ## No tolerance -/

/-- Without a tolerance only integers count as integral. -/
theorem Scalar.fractionality_le_iff
    {a tol : α} (ha : isFinite a = true) (htol : value tol = .finite 0) :
    fractionality a ≤ tol ↔ IsInteger a := by
  obtain ⟨x, hx⟩ := isFinite_iff.mp ha
  rw [LawfulScalar.le_iff_value, value_fractionality hx, htol, Exact.finite_le_finite,
    abs_nonpos_iff, sub_eq_zero]
  constructor
  · intro heq
    exact ⟨Exact.nearest x, by rw [hx, ← heq]⟩
  · rintro ⟨n, hn⟩
    obtain rfl : x = n := Exact.finite.inj (hx.symm.trans hn)
    rw [Exact.nearest_intCast]

theorem Problem.isIntegral_iff_isIntegerPoint
    {vars : List (Variable α)} {values : List α} {tol : α}
    (hfinite : ∀ a ∈ values, Scalar.isFinite a = true) (htol : Scalar.value tol = .finite 0) :
    (Problem.ofVariables vars).isIntegral values tol = true ↔
      (Problem.ofVariables vars).IsIntegerPoint values := by
  constructor
  · intro h var v a hv ha hkind
    have hentry := List.all_eq_true.mp h (v, a)
      (List.mem_of_getElem? (List.getElem?_zip_eq_some.mpr ⟨hv, ha⟩))
    rw [← Scalar.fractionality_le_iff (hfinite a (List.mem_of_getElem? ha)) htol]
    simpa [hkind] using hentry
  · intro h
    apply List.all_eq_true.mpr
    rintro ⟨v, a⟩ hmem
    obtain ⟨var, hvar⟩ := List.mem_iff_getElem?.mp hmem
    obtain ⟨hv, ha⟩ := List.getElem?_zip_eq_some.mp hvar
    cases hkind : v.kind.isIntegral with
    | false => simp
    | true =>
        have hle := (Scalar.fractionality_le_iff (hfinite a (List.mem_of_getElem? ha)) htol).mpr
          (h var v a hv ha hkind)
        simp [hle]

/-! ## Proofs of a status -/

namespace Tree

variable {σ τ : Type} {vars : List (Variable α)} {oracle : Oracle σ α} {oracle' : Oracle τ α}
  {clock clock' : Clock} {t t' : Tree α} {s : σ} {s' : τ} {S : Set (List α)} {c : List α → α}
  {result result' : Result α}

/-- A run that proves its status about some points with costs: its answers are sound, and
those that are integer points are points of the set at their cost. -/
structure Proves (vars : List (Variable α)) (oracle : Oracle σ α) (clock : Clock) (t : Tree α)
    (s : σ) (S : Set (List α)) (c : List α → α) (result : Result α) : Prop where
  sound : ∀ d answer, Answered (.ofVariables vars) oracle clock t s d answer →
    answer.IsSound S c d
  attained : ∀ d r, Answered (.ofVariables vars) oracle clock t s d (.optimal r) →
    (Problem.ofVariables vars).IsIntegerPoint r.values →
    r.values ∈ S ∧ Scalar.value (c r.values) = Scalar.value r.objective
  feasibilityTol_eq : Scalar.value t.settings.feasibilityTol = .finite 0
  improvementTol_nonneg : Scalar.ofInt 0 ≤ t.settings.improvementTol
  run_eq : (t.run (.ofVariables vars) oracle clock s).1 = .ok result
  isProven : result.status.isProven = true

namespace Proves

omit [LawfulScalar α] in
theorem exists_run (h : Proves vars oracle clock t s S c result) :
    ∃ tree state, t.run (.ofVariables vars) oracle clock s = (.ok result, tree, state) :=
  ⟨_, _, Prod.ext h.run_eq rfl⟩

/-- An optimal result reports the cost of a point. -/
theorem exists_point
    (h : Proves vars oracle clock t s S c result) (hstatus : result.status = .optimal) :
    ∃ z, result.bestObjective = some z ∧ Scalar.isFinite z = true ∧
      ∃ p ∈ S, Scalar.value (c p) = Scalar.value z := by
  obtain ⟨tree, state, hrun⟩ := h.exists_run
  obtain ⟨z, hz⟩ := run_optimal_objective hrun hstatus
  obtain ⟨d, r, haccepted⟩ := run_isAccepted hrun hz
  obtain ⟨-, hobjective, -⟩ := Relaxation.fault?_eq_none haccepted.usable
  have hfinite : ∀ a ∈ r.values, Scalar.isFinite a = true := fun a ha =>
    Relaxation.isFinite_of_mem haccepted.usable ha
  have hinteger := (Problem.isIntegral_iff_isIntegerPoint hfinite h.feasibilityTol_eq).mp
    haccepted.integral
  obtain ⟨hmem, hcost⟩ := h.attained d r haccepted.answered hinteger
  rw [← haccepted.objective_eq] at hobjective hcost
  exact ⟨z, hz, hobjective, r.values, hmem, hcost⟩

/-- What one run reports, the other one does not miss. -/
theorem not_improved
    (htarget : (Problem.ofVariables vars).IsTarget S c)
    (h : Proves vars oracle clock t s S c result)
    (h' : Proves vars oracle' clock' t' s' S c result') (hstatus : result.status = .optimal) :
    ∃ z, result.bestObjective = some z ∧ Scalar.isFinite z = true ∧
      result'.status = .optimal ∧ ∃ z', result'.bestObjective = some z' ∧
        ¬z < z' - t'.settings.improvementTol *
          Scalar.maximum (Scalar.abs z') (Scalar.ofInt 1) := by
  obtain ⟨z, hz, hfinite, p, hp, hcost⟩ := h.exists_point hstatus
  obtain ⟨tree, state, hrun⟩ := h'.exists_run
  obtain ⟨hstatus', z', hz', hworse⟩ :=
    run_not_improved htarget h'.improvementTol_nonneg h'.sound hrun h'.isProven hp
  refine ⟨z, hz, hfinite, hstatus', z', hz', ?_⟩
  rwa [LawfulScalar.lt_iff_value, hcost, ← LawfulScalar.lt_iff_value] at hworse

/-- **The answer does not depend on the strategy.**  Let two runs with the same tolerance for
improvements prove their statuses about the same points, whatever their orders of
exploration, branching rules, limits and oracles.  Then the statuses are equal, and if they
are optimal, neither objective improves on the other one; without a tolerance the
objectives have the same value. -/
theorem strategy_independent
    (htarget : (Problem.ofVariables vars).IsTarget S c)
    (h : Proves vars oracle clock t s S c result)
    (h' : Proves vars oracle' clock' t' s' S c result')
    (htol : t.settings.improvementTol = t'.settings.improvementTol) :
    result.status = result'.status ∧
    (result.status = .optimal → ∃ z z',
      result.bestObjective = some z ∧ result'.bestObjective = some z' ∧
      ¬z < z' - t.settings.improvementTol *
        Scalar.maximum (Scalar.abs z') (Scalar.ofInt 1) ∧
      ¬z' < z - t.settings.improvementTol *
        Scalar.maximum (Scalar.abs z) (Scalar.ofInt 1) ∧
      (Scalar.value t.settings.improvementTol = .finite 0 →
        Scalar.value z = Scalar.value z')) := by
  constructor
  · by_cases hstatus : result.status = .optimal
    · obtain ⟨-, -, -, hstatus', -⟩ := not_improved htarget h h' hstatus
      rw [hstatus, hstatus']
    · have hnot : result'.status ≠ .optimal := by
        intro hstatus'
        obtain ⟨-, -, -, hoptimal, -⟩ := not_improved htarget h' h hstatus'
        exact hstatus hoptimal
      rw [Status.eq_infeasible_of_isProven h.isProven hstatus,
        Status.eq_infeasible_of_isProven h'.isProven hnot]
  · intro hstatus
    obtain ⟨z, hz, hfinite, hstatus', z', hz', hworse⟩ := not_improved htarget h h' hstatus
    obtain ⟨w', hw', hfinite', -, w, hw, hworse'⟩ := not_improved htarget h' h hstatus'
    obtain rfl := Option.some.inj (hz'.symm.trans hw')
    obtain rfl := Option.some.inj (hz.symm.trans hw)
    rw [← htol] at hworse
    refine ⟨z, z', hz, hz', hworse, hworse', ?_⟩
    intro hzero
    apply Scalar.value_eq_of_not_lt (Scalar.isNaN_of_isFinite hfinite)
      (Scalar.isNaN_of_isFinite hfinite')
    · exact fun hlt => hworse (Incumbent.lt_threshold_of_lt hfinite' hzero hlt)
    · exact fun hlt => hworse' (Incumbent.lt_threshold_of_lt hfinite hzero hlt)

end Proves

/-- A complete search without a tolerance for integers proves its status. -/
theorem IsComplete.exists_proves
    (h : IsComplete vars oracle t S c) (htol : Scalar.value t.settings.feasibilityTol = .finite 0)
    (clock : Clock) (s : σ) : ∃ result, Proves vars oracle clock t s S c result := by
  obtain ⟨result, tree, state, hrun, hproven⟩ := h.run_isProven clock s
  refine ⟨result, ?_, ?_, htol, h.improvementTol_nonneg, congrArg Prod.fst hrun, hproven⟩
  · intro d answer hanswered
    exact (h.answered_isExact hanswered).isSound
  · intro d r hanswered hinteger
    obtain ⟨hobjective, hholds, -, hpoint⟩ := h.answered_isExact hanswered
    have husable := Relaxation.fault?_eq_none_of_holds (h.answered_isSubgrid hanswered)
      h.feasibilityTol_nonneg hobjective hholds
    have hfinite : ∀ a ∈ r.values, Scalar.isFinite a = true := fun a ha =>
      Relaxation.isFinite_of_mem husable ha
    obtain ⟨hmem, hcost⟩ :=
      hpoint ((Problem.isIntegral_iff_isIntegerPoint hfinite htol).mpr hinteger)
    exact ⟨hmem, congrArg Scalar.value hcost⟩

/-- Best bound first and depth first find the same optimum of the sample knapsack. -/
theorem strategies_sample_agree :
    let settings (rule : BranchingRule) (selection : NodeSelection) : Settings Exact :=
      { Settings.standard.withTolerance (Scalar.ofInt 0) with
        branchingRule := rule, nodeSelection := selection }
    let run (settings : Settings Exact) :=
      (solve (.ofVariables (Variable.integers [0, 0] [1, 1]))
        (Knapsack.ofIntegers [-5, -4] [3, 2] 4 false).oracle settings .frozen ()).1
    ∃ result result', run (settings .mostFractional .bestBound) = .ok result ∧
      run (settings .firstFractional .depthFirst) = .ok result' ∧
      result.status = .optimal ∧ result'.status = .optimal ∧
      result.bestObjective = result'.bestObjective := by
  intro settings run
  have hcomplete : ∀ rule selection, (create (settings rule selection)).IsComplete
      (Variable.integers [0, 0] [1, 1]) (Knapsack.ofIntegers [-5, -4] [3, 2] 4 false).oracle
      _ _ := fun rule selection =>
    Knapsack.isInstance_sample.isComplete
      (Knapsack.resolves_sample rule selection (Or.inl rfl)) 4 false
  have hzero : ∀ rule selection,
      Scalar.value (create (settings rule selection)).settings.feasibilityTol = .finite 0 :=
    fun _ _ => rfl
  have htarget := (hcomplete .mostFractional .bestBound).target
  obtain ⟨result, h⟩ := (hcomplete .mostFractional .bestBound).exists_proves
    (hzero _ _) .frozen ()
  obtain ⟨result', h'⟩ := (hcomplete .firstFractional .depthFirst).exists_proves
    (hzero _ _) .frozen ()
  have hpoint := (Knapsack.isInstance_sample.mem_latticePoints_iff 4 false le_rfl one_pos).mpr
    (show [Scalar.ofInt 0, Scalar.ofInt 0] ∈ _ ∧ _ from ⟨by decide +kernel, by decide +kernel⟩)
  obtain ⟨tree, state, hrun⟩ := h.exists_run
  obtain ⟨hoptimal, -⟩ := run_not_improved htarget h.improvementTol_nonneg h.sound hrun
    h.isProven hpoint
  obtain ⟨hstatus, hagree⟩ := h.strategy_independent htarget h' rfl
  obtain ⟨z, z', hz, hz', -, -, hvalue⟩ := hagree hoptimal
  have hequal : z = z' := by simpa only [Exact.value_eq] using hvalue rfl
  refine ⟨result, result', h.run_eq, h'.run_eq, hoptimal, hstatus ▸ hoptimal, ?_⟩
  rw [hz, hz', hequal]

end Tree

end BranchBound
