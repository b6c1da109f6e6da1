import BranchBound.Binary64
import BranchBound.Proofs.AcceptedProblems
import BranchBound.Proofs.Binary64.Lawful
import BranchBound.Proofs.Draws
import BranchBound.Proofs.NaturalSums

/-!
# Generated models

A packing model admits the origin and a covering model the corner of all upper bounds, without
tolerance and whatever chance brings.  A row's value at the upper corner is a natural number or
too large, and in the latter case the row has no right-hand side and the model is not accepted.
The right-hand side is a share of that number, and its floor and its ceiling are between zero
and the number, too.
-/

namespace BranchBound

variable {σ α : Type} [Scalar α]

/-! ## Points with equal coordinates -/

namespace Constraint

variable {coordinate : ℕ → Option α} {terms : List (ℕ × α)} {x : α}

theorem activityFrom?_of_forall_eq
    (h : ∀ term ∈ terms, coordinate term.1 = some x) (total : α) :
    activityFrom? coordinate terms total =
      some ((terms.map fun term => term.2 * x).foldl (· + ·) total) := by
  induction terms generalizing total with
  | nil => rfl
  | cons term terms ih =>
      rw [List.forall_mem_cons] at h
      simp only [activityFrom?, h.1]
      exact ih h.2 _

/-- Left-hand side at a point that has one coordinate in all columns that occur. -/
theorem activity?_of_forall_eq
    {c : Constraint α} (h : ∀ term ∈ c.terms, coordinate term.1 = some x) :
    c.activity? coordinate = some (Scalar.sum (c.terms.map fun term => term.2 * x)) :=
  activityFrom?_of_forall_eq h _

end Constraint

theorem Domain.contains_replicate_iff {d : Domain α} {x tol : α} :
    d.contains (List.replicate d.size x) tol = true ↔
      ∀ i ∈ d.intervals, i.contains x tol = true := by
  rw [contains, List.length_replicate, beq_self_eq_true, Bool.true_and, size, ← List.map_const,
    List.zipWith_map_right, List.zipWith_self, List.all_map, List.all_eq_true]
  rfl

/-- A point with equal coordinates is feasible if its coordinate fits all variables and all rows. -/
theorem LinearModel.isFeasible_replicate
    {m : LinearModel α} {x tol : α} (hvars : ∀ v ∈ m.vars, v.rootInterval.contains x tol = true)
    (hrows : ∀ c ∈ m.constraints, (∀ term ∈ c.terms, term.1 < m.numVars) ∧
      c.admits (Scalar.sum (c.terms.map fun term => term.2 * x)) tol = true) :
    m.isFeasible (List.replicate m.numVars x) tol = true := by
  have hbox : m.rootDomain.contains (List.replicate m.numVars x) tol = true := by
    have hsize : m.numVars = m.rootDomain.size := (List.length_map _).symm
    rw [hsize, Domain.contains_replicate_iff]
    exact List.forall_mem_map.mpr hvars
  rw [isFeasible, List.length_replicate, beq_self_eq_true, hbox, Bool.true_and, Bool.true_and,
    satisfiesRows, List.all_eq_true]
  intro c hc
  obtain ⟨hcolumns, hadmits⟩ := hrows c hc
  have hactivity : (c.activity? fun j => (List.replicate m.numVars x).toArray[j]?) =
      some (Scalar.sum (c.terms.map fun term => term.2 * x)) := by
    apply Constraint.activity?_of_forall_eq
    intro term hterm
    rw [List.getElem?_toArray, List.getElem?_replicate_of_lt (hcolumns term hterm)]
  rw [satisfies, hactivity]
  exact hadmits

namespace Generator

variable {config : GeneratorConfig α}

/-- Every coordinate of the point that a model of the family admits. -/
def corner (config : GeneratorConfig α) : α :=
  match config.kind with
  | .packing => Scalar.ofInt 0
  | .covering => upperBound config

/-- A model of the shape that is asked for. -/
structure IsShaped (config : GeneratorConfig α) (m : LinearModel α) : Prop where
  numVars_eq : m.numVars = config.numVars
  numConstraints_eq : m.numConstraints = config.numConstraints
  length_objective : m.objective.length = config.numVars
  costs : ∀ cost ∈ m.objective, config.kind.IsCost cost
  kinds : ∀ v ∈ m.vars, v.kind = if config.maxValue ≤ 1 then .binary else .integer
  bounds : ∀ v ∈ m.vars, v.bounds = ⟨Scalar.ofInt 0, upperBound config⟩
  rows : ∀ c ∈ m.constraints, c.terms ≠ [] ∧ Constraint.IsDrawn config.numVars c.terms ∧
    c = constraintOf config c.terms

/-- The bounds of a variable are those that the search starts from, for binary variables as
well. -/
theorem IsShaped.rootInterval_eq
    {m : LinearModel α} (h : IsShaped config m) {v : Variable α} (hv : v ∈ m.vars) :
    v.rootInterval = ⟨Scalar.ofInt 0, upperBound config⟩ := by
  have hkind := h.kinds v hv
  split at hkind
  next hbinary =>
    have hupper : upperBound config = Scalar.ofInt 1 := by
      rw [upperBound, max_eq_right hbinary]
    rw [Variable.rootInterval_of_binary hkind, h.bounds v hv, hupper]
    simp [Scalar.maximum, Scalar.minimum]
  next => rw [Variable.rootInterval_of_ne_binary (by simp [hkind]), h.bounds v hv]

variable [LawfulScalar α]

theorem isNatural_upperBound (config : GeneratorConfig α) :
    Scalar.IsNatural (upperBound config) :=
  Scalar.isNatural_ofInt (zero_le_one.trans (le_max_right _ _))

theorem holds_corner (config : GeneratorConfig α) :
    (⟨Scalar.ofInt 0, upperBound config⟩ : Interval α).Holds (corner config) := by
  have hle := (isNatural_upperBound config).zero_le
  unfold corner
  cases config.kind with
  | packing => exact ⟨Scalar.le_refl Scalar.isNaN_zero, hle⟩
  | covering => exact ⟨hle, Scalar.le_refl (Scalar.isNaN_right_of_le hle)⟩

section Drawn

variable {n : ℕ} {terms : List (ℕ × α)} (h : Constraint.IsDrawn n terms)

include h

theorem isNatural_greatest (config : GeneratorConfig α) :
    Scalar.IsNatural (Scalar.sum (terms.map fun term => term.2 * upperBound config)) := by
  apply Scalar.isNatural_sum
  rw [List.forall_mem_map]
  intro term hterm
  obtain ⟨k, hk, -, hvalue⟩ := h.rolls term hterm
  exact (isNatural_upperBound config).scale hvalue hk

theorem value_activity_zero :
    Scalar.value (Scalar.sum (terms.map fun term => term.2 * Scalar.ofInt 0)) = .finite 0 := by
  apply Scalar.value_sum_zeros
  rw [List.forall_mem_map]
  intro term hterm
  obtain ⟨k, -, -, hvalue⟩ := h.rolls term hterm
  rw [LawfulScalar.value_mul, hvalue, Scalar.value_zero, Exact.finite_mul_finite, mul_zero,
    Scalar.rounded_zero]

/-- A row with a finite right-hand side admits the corner. -/
theorem admits_corner (hfinite : Scalar.isFinite (constraintOf config terms).rhs = true) :
    (constraintOf config terms).admits
      (Scalar.sum (terms.map fun term => term.2 * corner config)) (Scalar.ofInt 0) = true := by
  have hgreatest := isNatural_greatest h config
  cases hkind : config.kind with
  | packing =>
      simp only [constraintOf, corner, hkind] at hfinite ⊢
      obtain ⟨n, z, -, hz, -, htarget⟩ :=
        Scalar.value_share hgreatest (Scalar.isFinite_of_isFinite_floor hfinite)
      rw [Constraint.admits, decide_eq_true_eq, LawfulScalar.le_iff_value, value_activity_zero h,
        Scalar.value_add_zero, Scalar.value_floor_of_finite htarget, Exact.finite_le_finite]
      exact_mod_cast Rat.le_floor_iff.mpr hz
  | covering =>
      simp only [constraintOf, corner, hkind] at hfinite ⊢
      obtain ⟨n, z, hn, -, hzn, htarget⟩ :=
        Scalar.value_share hgreatest (Scalar.isFinite_of_isFinite_ceil hfinite)
      rw [Constraint.admits, decide_eq_true_eq, LawfulScalar.le_iff_value, hn,
        Scalar.value_sub_zero, Scalar.value_ceil_of_finite htarget, Exact.finite_le_finite]
      exact_mod_cast Rat.ceil_le_iff.mpr hzn

end Drawn

/-! ## Models -/

section Built

variable {dice : Dice σ α} {seed : ℕ} {s : σ} {m : LinearModel α}

omit [LawfulScalar α] in
/-- A model that is generated is accepted as its draws have it. -/
theorem exists_draws (h : generateWith dice config seed s = .ok m) :
    ∃ constraints s', drawRows dice config config.numConstraints s' = some constraints ∧
      LinearModel.ofFile
        { name := modelName config seed
          objective := (drawCosts dice config.kind config.numVars s).1
          vars := (List.range config.numVars).map (entry config)
          constraints } = .ok m := by
  unfold generateWith at h
  split at h
  next => cases h
  next =>
    dsimp only at h
    split at h
    next => cases h
    next constraints hrows =>
      refine ⟨constraints, _, hrows, ?_⟩
      unfold Except.mapError at h
      split at h
      next => cases h
      next hfile => rw [hfile, Except.ok.inj h]

variable (hdice : dice.IsBounded) (h : generateWith dice config seed s = .ok m)

include hdice h

theorem isShaped_generateWith : IsShaped config m := by
  obtain ⟨constraints, s', hrows, hfile⟩ := exists_draws h
  obtain ⟨hlength, hdrawn⟩ := drawRows_isDrawn hdice hrows
  obtain ⟨hcount, hcosts⟩ := drawCosts_isCost hdice config.kind config.numVars s
  obtain ⟨-, hvalid, hm⟩ := LinearModel.ofFile_eq_ok_iff.mp hfile
  have hnumVars : m.numVars = config.numVars := by
    rw [hm, LinearModel.numVars, List.length_map, List.length_map, List.length_range]
  have hpos : 0 < config.numVars := by
    rw [← hnumVars]
    exact List.length_pos_iff.mpr (Problem.fault?_eq_none_iff.mp hvalid).1
  constructor
  case numVars_eq => exact hnumVars
  case numConstraints_eq => rw [hm, LinearModel.numConstraints, List.length_map, hlength]
  case length_objective => rw [hm, hcount]
  case costs =>
    rw [hm]
    exact hcosts
  case kinds =>
    rw [hm, List.forall_mem_map, List.forall_mem_map]
    exact fun _ _ => rfl
  case bounds =>
    rw [hm, List.forall_mem_map, List.forall_mem_map]
    exact fun _ _ => rfl
  case rows =>
    rw [hm, List.forall_mem_map]
    intro c hc
    obtain ⟨hrow, heq⟩ := hdrawn c hc
    have hnormal : c.normalise = c :=
      congrArg (fun terms => { c with terms }) hrow.sorted.normalTerms_eq
    rw [hnormal]
    exact ⟨hrow.ne_nil hpos, hrow, heq⟩

/-- **Generated models.**  Whatever chance brings and whatever is asked for, a model that is
generated has the shape that was asked for.  A model to pack admits the origin, and a model to
cover the corner of all upper bounds, without tolerance. -/
theorem generateWith_isFeasible :
    IsShaped config m ∧
      m.isFeasible (List.replicate config.numVars (corner config)) (Scalar.ofInt 0) = true := by
  have hshaped := isShaped_generateWith hdice h
  obtain ⟨constraints, s', -, hfile⟩ := exists_draws h
  have hrhs := (LinearModel.isFormed_toFile hfile).isFinite_rhs
  refine ⟨hshaped, ?_⟩
  rw [← hshaped.numVars_eq]
  apply LinearModel.isFeasible_replicate
  · intro v hv
    rw [hshaped.rootInterval_eq hv, Interval.contains_zero_iff]
    exact holds_corner config
  · intro c hc
    obtain ⟨-, hrow, heq⟩ := hshaped.rows c hc
    rw [hshaped.numVars_eq]
    refine ⟨hrow.columns, ?_⟩
    have hfinite := hrhs c hc
    rw [heq] at hfinite
    have hadmits := admits_corner hrow hfinite
    rwa [← heq] at hadmits

end Built

/-- Two integer variables up to seven, in rows that ask for half as much again as they can have. -/
def excessive : GeneratorConfig Float where
  kind := .covering
  numVars := 2
  numConstraints := 2
  density := Scalar.decimal 2 1
  maxValue := 7
  tightness := Scalar.decimal 15 1

/-- No term is drawn for either row, so each gets one, and asks for all it can have. -/
theorem generate_excessive_isFeasible : ∃ m, generate excessive 2 = .ok m ∧
    m.constraints = [⟨[(1, Scalar.ofInt 3)], .ge, Scalar.ofInt 21⟩,
      ⟨[(0, Scalar.ofInt 3)], .ge, Scalar.ofInt 21⟩] ∧
    IsShaped excessive m ∧
    m.isFeasible [Scalar.ofInt 7, Scalar.ofInt 7] (Scalar.ofInt 0) = true := by
  let m : LinearModel Float :=
    { name := "covering-2x2-2"
      objective := [Scalar.ofInt 2, Scalar.ofInt 19]
      vars := [
        { kind := .integer, bounds := ⟨Scalar.ofInt 0, Scalar.ofInt 7⟩, name := some "x0" },
        { kind := .integer, bounds := ⟨Scalar.ofInt 0, Scalar.ofInt 7⟩, name := some "x1" }]
      constraints := [⟨[(1, Scalar.ofInt 3)], .ge, Scalar.ofInt 21⟩,
        ⟨[(0, Scalar.ofInt 3)], .ge, Scalar.ofInt 21⟩] }
  have hm : generate excessive 2 = .ok m := by decide +kernel
  obtain ⟨hshaped, hfeasible⟩ := generateWith_isFeasible WordStream.isBounded_dice hm
  exact ⟨m, hm, rfl, hshaped, hfeasible⟩

end Generator

end BranchBound
