import Mathlib.Algebra.BigOperators.Field
import Mathlib.Data.Rat.BigOperators
import Mathlib.Data.Real.Basic
import BranchBound.Relaxation.Linear
import BranchBound.Proofs.ModelFiles
import BranchBound.Proofs.RationalPoints

/-!
# Linear programs and their models

What an exact answer to a linear program is, and what the programs of a model in exact
arithmetic say.  A program is about real points.  At a rational point its rows and its cost
are what the model computes, so an exact answer about real points tells the truth about the
points of the model.
-/

namespace BranchBound

open Finset

/-! ## Points of a program -/

section Points

variable {K : Type*} [Field K] [LinearOrder K]

/-- Whether a value lies in a range. -/
def Range.Admits (r : Range) (a : K) : Prop :=
  (∀ l ∈ r.lower, (l : K) ≤ a) ∧ ∀ u ∈ r.upper, a ≤ (u : K)

/-- Value of a row at a point. -/
def LinearRow.value (row : LinearRow) (x : ℕ → K) : K :=
  (row.terms.map fun term => (term.2 : K) * x term.1).sum

/-- A point that satisfies the ranges of its coordinates and of the rows. -/
structure LinearProgram.IsFeasible (p : LinearProgram) (x : ℕ → K) : Prop where
  ranges : ∀ (i : ℕ) (r : Range), p.ranges[i]? = some r → r.Admits (x i)
  rows : ∀ row ∈ p.rows, row.range.Admits (row.value x)

/-- Cost of a point. -/
def LinearProgram.cost (p : LinearProgram) (x : ℕ → K) : K :=
  ∑ i ∈ range p.costs.length, (p.costs.getD i 0 : K) * x i

variable [IsStrictOrderedRing K]

theorem Range.admits_cast {r : Range} {a : ℚ} : r.Admits (a : K) ↔ r.Admits a := by
  simp only [Admits, Rat.cast_le, Rat.cast_id]

theorem LinearRow.value_cast (row : LinearRow) (x : ℕ → ℚ) :
    row.value (fun i => (x i : K)) = (row.value x : ℚ) := by
  simp only [value, Rat.cast_list_sum, List.map_map, Function.comp_def, Rat.cast_mul,
    Rat.cast_id]

theorem LinearProgram.isFeasible_cast {p : LinearProgram} {x : ℕ → ℚ} :
    p.IsFeasible (fun i => (x i : K)) ↔ p.IsFeasible x := by
  constructor
  · intro h
    refine ⟨fun i r hr => Range.admits_cast.mp (h.ranges i r hr), fun row hrow => ?_⟩
    have hvalue := h.rows row hrow
    rwa [row.value_cast, Range.admits_cast] at hvalue
  · intro h
    refine ⟨fun i r hr => Range.admits_cast.mpr (h.ranges i r hr), fun row hrow => ?_⟩
    rw [row.value_cast, Range.admits_cast]
    exact h.rows row hrow

theorem LinearProgram.cost_cast (p : LinearProgram) (x : ℕ → ℚ) :
    p.cost (fun i => (x i : K)) = (p.cost x : ℚ) := by
  simp only [cost, Rat.cast_sum, Rat.cast_mul, Rat.cast_id]

end Points

/-! ## Exact answers -/

/-- An answer that settles a program: a point of least cost, or the truth that no real
point satisfies it. -/
def LinearVerdict.IsExact (p : LinearProgram) : LinearVerdict → Prop
  | .optimal value point => point.length = p.ranges.length ∧ p.IsFeasible (point.getD · 0) ∧
      value = p.cost (point.getD · 0) ∧
      ∀ y : ℕ → ℝ, p.IsFeasible y → (value : ℝ) ≤ p.cost y
  | .infeasible => ∀ y : ℕ → ℝ, ¬p.IsFeasible y
  | .unbounded => False
  | .stalled => False

/-! ## Rows of a model -/

namespace Exact

theorem isFinite_add {a b : Exact} (ha : Scalar.isFinite a = true)
    (hb : Scalar.isFinite b = true) : Scalar.isFinite (a + b) = true := by
  obtain ⟨q, rfl⟩ := isFinite_iff_exists.mp ha
  obtain ⟨r, rfl⟩ := isFinite_iff_exists.mp hb
  rfl

theorem exact_add {a b : Exact} (ha : Scalar.isFinite a = true)
    (hb : Scalar.isFinite b = true) :
    Scalar.exact (a + b) = Scalar.exact a + Scalar.exact b := by
  obtain ⟨q, rfl⟩ := isFinite_iff_exists.mp ha
  obtain ⟨r, rfl⟩ := isFinite_iff_exists.mp hb
  rfl

theorem finite_exact {a : Exact} (h : Scalar.isFinite a = true) :
    finite (Scalar.exact a) = a := by
  obtain ⟨q, rfl⟩ := isFinite_iff_exists.mp h
  rfl

end Exact

namespace Constraint

/-- A term with a rational coefficient of one of the first `n` columns. -/
def IsTerm (n : ℕ) (term : ℕ × Exact) : Prop :=
  term.1 < n ∧ Scalar.isFinite term.2 = true

variable {n : ℕ} {terms : List (ℕ × Exact)} {c : Constraint Exact}

theorem activityFrom?_tuple
    (h : ∀ term ∈ terms, IsTerm n term) (x : ℕ → ℚ) (total : ℚ) :
    activityFrom? (fun j => (Exact.tuple n x)[j]?) terms (.finite total) =
      some (.finite (total + (terms.map fun term => Scalar.exact term.2 * x term.1).sum)) := by
  induction terms generalizing total with
  | nil => simp [activityFrom?]
  | cons first rest ih =>
      obtain ⟨j, a⟩ := first
      rw [List.forall_mem_cons] at h
      have hcoefficient := Exact.finite_exact h.1.2
      simp only at hcoefficient
      rw [activityFrom?, Exact.getElem?_tuple_of_lt h.1.1]
      simp only
      rw [← hcoefficient, Exact.finite_mul_finite, Exact.finite_add_finite, ih h.2,
        List.map_cons, List.sum_cons, add_assoc, hcoefficient]

/-- The left-hand side at a rational point is the value of the row. -/
theorem activity?_tuple (h : ∀ term ∈ c.terms, IsTerm n term) (x : ℕ → ℚ) :
    c.activity? (fun j => (Exact.tuple n x)[j]?) = some (.finite (c.toRow.value x)) := by
  have hzero : (-Scalar.ofInt 0 : Exact) = .finite 0 := by decide
  rw [activity?, hzero, activityFrom?_tuple h, zero_add]
  simp only [toRow, LinearRow.value, List.map_map, Function.comp_def, Rat.cast_id]

/-- Without a tolerance, a left-hand side satisfies the constraint if it is in the range of
the row. -/
theorem admits_finite (h : Scalar.isFinite c.rhs = true) (v : ℚ) :
    c.admits (.finite v) (Scalar.ofInt 0) = true ↔ c.toRow.range.Admits v := by
  obtain ⟨q, hq⟩ := Exact.isFinite_iff_exists.mp h
  have hrhs : Scalar.exact c.rhs = q := by
    rw [hq]
    rfl
  have hzero : (Scalar.ofInt 0 : Exact) = .finite 0 := rfl
  rw [admits, hq, hzero]
  cases hsense : c.sense with
  | le => simp [toRow, hsense, Range.Admits, hrhs]
  | ge => simp [toRow, hsense, Range.Admits, hrhs]
  | eq =>
      have hnear : |v - q| ≤ 0 ↔ q ≤ v ∧ v ≤ q := by
        rw [abs_nonpos_iff, sub_eq_zero, eq_comm, le_antisymm_iff]
      simpa [toRow, hsense, Range.Admits, hrhs, Exact.abs_finite] using hnear

end Constraint

/-! ## Checked models -/

namespace LinearModel

/-- A model with rational data, a cost for each variable, and a variable for each column. -/
structure IsChecked (m : LinearModel Exact) : Prop where
  valid : m.problem.fault? = none
  length_objective : m.objective.length = m.numVars
  objective_finite : ∀ a ∈ m.objective, Scalar.isFinite a = true
  rhs_finite : ∀ c ∈ m.constraints, Scalar.isFinite c.rhs = true
  terms : ∀ c ∈ m.constraints, ∀ term ∈ c.terms, Constraint.IsTerm m.numVars term

/-- A model built from a file is checked, as sums of finite scalars are finite in exact
arithmetic. -/
theorem isChecked_of_ofFile
    {file : ModelFile Exact} {m : LinearModel Exact} (h : ofFile file = .ok m) :
    m.IsChecked := by
  have hfinite := forall_hasFiniteTerms h fun c hc stored hmerges =>
    hmerges.isFinite_of_closed fun _ _ => Exact.isFinite_add
  have hformed := isFormed_toFile h
  have hlength : m.toFile.vars.length = m.numVars := List.length_map _
  constructor
  case valid => exact (ofFile_eq_ok_iff.mp h).2.1
  case length_objective => exact hformed.length_objective.trans hlength
  case objective_finite => exact hformed.isFinite_objective
  case rhs_finite => exact hformed.isFinite_rhs
  case terms =>
    intro c hc term hterm
    exact ⟨hlength ▸ hformed.columns c hc term hterm, hfinite c hc term hterm⟩

variable {m : LinearModel Exact}

/-- At a rational point the rows hold if its values are in their ranges. -/
theorem IsChecked.satisfiesRows_tuple (h : m.IsChecked) (x : ℕ → ℚ) :
    m.satisfiesRows (Exact.tuple m.numVars x) (Scalar.ofInt 0) = true ↔
      ∀ c ∈ m.constraints, c.toRow.range.Admits (c.toRow.value x) := by
  rw [satisfiesRows, List.all_eq_true]
  apply forall₂_congr
  intro c hc
  simp only [List.getElem?_toArray, satisfies]
  rw [Constraint.activity?_tuple (h.terms c hc)]
  exact Constraint.admits_finite (h.rhs_finite c hc) _

theorem IsChecked.objectiveValue_tuple (h : m.IsChecked) {d : Domain Exact}
    (hd : d.size = m.numVars) (x : ℕ → ℚ) :
    m.objectiveValue (Exact.tuple m.numVars x) = .finite ((m.program d).cost x) := by
  obtain ⟨costs, hcosts⟩ := Exact.exists_eq_tuple h.objective_finite
  rw [h.length_objective] at hcosts
  have htake : m.objective.take d.size = m.objective := by
    apply List.take_of_length_le
    rw [hd, h.length_objective]
  rw [objectiveValue, hcosts, Exact.dot_tuple]
  apply congrArg Exact.finite
  simp only [LinearProgram.cost, program, htake, List.length_map, h.length_objective,
    Rat.cast_id]
  apply sum_congr rfl
  intro i hi
  have hget : (m.objective.map Scalar.exact).getD i 0 = costs i := by
    rw [hcosts, List.getD_eq_getElem?_getD, List.getElem?_map,
      Exact.getElem?_tuple_of_lt (mem_range.mp hi)]
    rfl
  rw [hget]

theorem isFeasible_program_box
    {K : Type*} [Field K] [LinearOrder K] [IsStrictOrderedRing K] {n : ℕ} {l u : ℕ → ℚ}
    (hlu : ∀ i < n, l i ≤ u i) {x : ℕ → K} :
    (m.program (Exact.box n l u)).IsFeasible x ↔
      (∀ i < n, (l i : K) ≤ x i ∧ x i ≤ u i) ∧
        ∀ c ∈ m.constraints, c.toRow.range.Admits (c.toRow.value x) := by
  have hrange : ∀ i < n, (m.program (Exact.box n l u)).ranges[i]? =
      some ⟨some (l i), some (u i)⟩ := by
    intro i hi
    have hnot : ¬u i < l i := not_lt.mpr (hlu i hi)
    simp [program, Exact.box, hi, Interval.toRange, hnot, Scalar.toRat?, Exact.toRat?]
  have hrows : (m.program (Exact.box n l u)).rows = m.constraints.map Constraint.toRow := rfl
  constructor
  · intro h
    constructor
    · intro i hi
      simpa [Range.Admits] using h.ranges i _ (hrange i hi)
    · intro c hc
      exact h.rows _ (hrows ▸ List.mem_map_of_mem hc)
  · rintro ⟨hinside, hsatisfied⟩
    constructor
    · intro i r hr
      have hi : i < n := by
        have hlt := (List.getElem?_eq_some_iff.mp hr).1
        simpa [program, Exact.box] using hlt
      obtain rfl := Option.some.inj ((hrange i hi).symm.trans hr)
      simpa [Range.Admits] using hinside i hi
    · intro row hrow
      rw [hrows, List.mem_map] at hrow
      obtain ⟨c, hc, rfl⟩ := hrow
      exact hsatisfied c hc

end LinearModel

end BranchBound
