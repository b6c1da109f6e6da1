import BranchBound.Proofs.Cells
import BranchBound.Proofs.LinearPrograms

/-!
# Sparse rows

What the rows of a model mean in exact arithmetic.  A file lists the terms of a constraint in
any order and may name a column more than once; the model keeps one coefficient for each
column, in increasing order.  At every point both have the same value, so the model is
satisfied by the points that satisfy the file as it is written.
-/

namespace BranchBound

open Exact

/-! ## Values of rows -/

namespace Constraint

/-- Sum of the terms of a constraint at a point, as they are written down. -/
def valueAt (c : Constraint Exact) (x : ℕ → ℚ) : ℚ :=
  (c.terms.map fun term => Scalar.exact term.2 * x term.1).sum

/-- A point satisfies a constraint as it is written down, up to a tolerance. -/
def IsSatisfied (c : Constraint Exact) (x : ℕ → ℚ) (tol : ℚ) : Prop :=
  match c.sense with
  | .le => c.valueAt x ≤ Scalar.exact c.rhs + tol
  | .ge => Scalar.exact c.rhs - tol ≤ c.valueAt x
  | .eq => |c.valueAt x - Scalar.exact c.rhs| ≤ tol

variable {terms row : List (ℕ × Exact)} {column : ℕ} {a : Exact} {c : Constraint Exact}

/-- A term that is added to a row adds its value. -/
theorem sum_insertTerm (ha : Scalar.isFinite a = true)
    (hrow : ∀ term ∈ row, Scalar.isFinite term.2 = true) (x : ℕ → ℚ) :
    ((insertTerm column a row).map fun term => Scalar.exact term.2 * x term.1).sum =
      (row.map fun term => Scalar.exact term.2 * x term.1).sum + Scalar.exact a * x column := by
  induction row with
  | nil => simp [insertTerm]
  | cons first rest ih =>
      obtain ⟨j, b⟩ := first
      rw [List.forall_mem_cons] at hrow
      unfold insertTerm
      split
      next => rw [List.map_cons, List.sum_cons, add_comm]
      next =>
        split
        next heq =>
          simp only [List.map_cons, List.sum_cons, exact_add hrow.1 ha, heq]
          ring
        next =>
          rw [List.map_cons, List.sum_cons, ih hrow.2, List.map_cons, List.sum_cons, add_assoc]

/-- Terms in normal form have the value of the terms they come from. -/
theorem sum_normalTerms (h : ∀ term ∈ terms, Scalar.isFinite term.2 = true) (x : ℕ → ℚ) :
    ((normalTerms terms).map fun term => Scalar.exact term.2 * x term.1).sum =
      (terms.map fun term => Scalar.exact term.2 * x term.1).sum := by
  induction terms using List.reverseRecOn with
  | nil => rfl
  | append_singleton terms term ih =>
      rw [List.forall_mem_append, List.forall_mem_singleton] at h
      have hmerged : ∀ old ∈ normalTerms terms, Scalar.isFinite old.2 = true :=
        (merges_normalise ⟨terms, .le, .finite 0⟩).isFinite_of_closed (fun _ _ => isFinite_add) h.1
      rw [normalTerms_concat, sum_insertTerm h.2 hmerged, ih h.1, List.map_append, List.sum_append,
        List.map_singleton, List.sum_singleton]

theorem valueAt_normalise (h : c.HasFiniteTerms) (x : ℕ → ℚ) :
    c.normalise.valueAt x = c.valueAt x :=
  sum_normalTerms h x

theorem value_toRow (c : Constraint Exact) (x : ℕ → ℚ) : c.toRow.value x = c.valueAt x := by
  simp only [toRow, LinearRow.value, valueAt, List.map_map, Function.comp_def, Rat.cast_id]

/-- The left-hand side that is computed from finite terms is their value. -/
theorem activity?_eq_valueAt {n : ℕ} (h : ∀ term ∈ c.terms, IsTerm n term) (x : ℕ → ℚ) :
    c.activity? (fun j => (tuple n x)[j]?) = some (.finite (c.valueAt x)) := by
  rw [activity?_tuple h, value_toRow]

/-- A value is admitted if it satisfies the constraint, up to the tolerance. -/
theorem admits_valueAt (h : Scalar.isFinite c.rhs = true) (x : ℕ → ℚ) (tol : ℚ) :
    c.admits (.finite (c.valueAt x)) (.finite tol) = true ↔ c.IsSatisfied x tol := by
  rw [admits, ← finite_exact h, IsSatisfied]
  cases c.sense with
  | le => simp
  | ge => simp
  | eq => simp [abs_finite]

theorem isSatisfied_normalise (h : c.HasFiniteTerms) (x : ℕ → ℚ) (tol : ℚ) :
    c.normalise.IsSatisfied x tol ↔ c.IsSatisfied x tol := by
  rw [IsSatisfied, valueAt_normalise h]
  rfl

end Constraint

/-! ## Declared intervals -/

/-- A value lies in the declared interval of a variable, up to a tolerance; a binary variable
lies between zero and one as well.  Bounds that are not given, or are not numbers, do not
count. -/
structure VariableEntry.Admits (entry : VariableEntry Exact) (a tol : ℚ) : Prop where
  lower : ∀ l ∈ entry.lower, Scalar.isNaN l = false → l - .finite tol ≤ .finite a
  upper : ∀ u ∈ entry.upper, Scalar.isNaN u = false → .finite a ≤ u + .finite tol
  binary : entry.kind = .binary → -tol ≤ a ∧ a ≤ 1 + tol

namespace Exact

theorem negInf_sub_le (a tol : ℚ) : (Scalar.negInf : Exact) - .finite tol ≤ .finite a :=
  rfl

theorem le_posInf_add (a tol : ℚ) : Exact.finite a ≤ Scalar.posInf + .finite tol :=
  rfl

/-- A lower bound that is raised to zero at least is two lower bounds. -/
theorem maximum_zero_sub_le (l : Exact) (a tol : ℚ) :
    Scalar.maximum l (Scalar.ofInt 0) - .finite tol ≤ .finite a ↔
      (Scalar.isNaN l = false → l - .finite tol ≤ .finite a) ∧ -tol ≤ a := by
  have hzero : (Scalar.ofInt 0 : Exact) = .finite 0 := rfl
  rcases l with _ | (_ | _) | q
  · have hmaximum : Scalar.maximum undefined (Scalar.ofInt 0) = .finite 0 := rfl
    have hnan : Scalar.isNaN undefined = true := rfl
    simp [hmaximum, hnan]
  · have hmaximum : Scalar.maximum (infinite false) (Scalar.ofInt 0) = .infinite false := rfl
    have hnumber : Scalar.isNaN (infinite false) = false := rfl
    have habove : ¬infinite false - .finite tol ≤ .finite a := Bool.false_ne_true
    simp [hmaximum, hnumber, habove]
  · have hmaximum : Scalar.maximum (infinite true) (Scalar.ofInt 0) = .finite 0 := rfl
    have hbelow : infinite true - .finite tol ≤ .finite a := rfl
    simp [hmaximum, hbelow]
  · have hnumber : Scalar.isNaN (finite q) = false := rfl
    rw [hzero, maximum_finite, hnumber, finite_sub_finite, finite_sub_finite, finite_le_finite,
      finite_le_finite, ← max_sub_sub_right, max_le_iff, zero_sub]
    simp

/-- An upper bound that is lowered to one at most is two upper bounds. -/
theorem le_minimum_one_add (u : Exact) (a tol : ℚ) :
    .finite a ≤ Scalar.minimum u (Scalar.ofInt 1) + .finite tol ↔
      (Scalar.isNaN u = false → .finite a ≤ u + .finite tol) ∧ a ≤ 1 + tol := by
  have hone : (Scalar.ofInt 1 : Exact) = .finite 1 := rfl
  rcases u with _ | (_ | _) | q
  · have hminimum : Scalar.minimum undefined (Scalar.ofInt 1) = .finite 1 := rfl
    have hnan : Scalar.isNaN undefined = true := rfl
    simp [hminimum, hnan]
  · have hminimum : Scalar.minimum (infinite false) (Scalar.ofInt 1) = .finite 1 := rfl
    have habove : Exact.finite a ≤ infinite false + .finite tol := rfl
    simp [hminimum, habove]
  · have hminimum : Scalar.minimum (infinite true) (Scalar.ofInt 1) = .infinite true := rfl
    have hnumber : Scalar.isNaN (infinite true) = false := rfl
    have hbelow : ¬Exact.finite a ≤ infinite true + .finite tol := fun h => Bool.noConfusion h
    simp [hminimum, hnumber, hbelow]
  · have hnumber : Scalar.isNaN (finite q) = false := rfl
    rw [hone, minimum_finite, hnumber, finite_add_finite, finite_add_finite, finite_le_finite,
      finite_le_finite, ← min_add_add_right, le_min_iff]
    simp

end Exact

namespace VariableEntry

variable {a tol : ℚ}

/-- A lower bound that is not given does not count. -/
theorem getD_negInf_sub_le {lower : Option Exact}
    (h : Scalar.isNaN (lower.getD Scalar.negInf) = false) :
    lower.getD Scalar.negInf - .finite tol ≤ .finite a ↔
      ∀ l ∈ lower, Scalar.isNaN l = false → l - .finite tol ≤ .finite a := by
  cases lower with
  | none => simp [negInf_sub_le]
  | some l =>
      rw [Option.getD_some] at h ⊢
      simp [h]

theorem le_getD_posInf_add {upper : Option Exact}
    (h : Scalar.isNaN (upper.getD Scalar.posInf) = false) :
    .finite a ≤ upper.getD Scalar.posInf + .finite tol ↔
      ∀ u ∈ upper, Scalar.isNaN u = false → .finite a ≤ u + .finite tol := by
  cases upper with
  | none => simp [le_posInf_add]
  | some u =>
      rw [Option.getD_some] at h ⊢
      simp [h]

theorem maximum_getD_zero_sub_le (lower : Option Exact) :
    Scalar.maximum (lower.getD (Scalar.ofInt 0)) (Scalar.ofInt 0) - .finite tol ≤ .finite a ↔
      (∀ l ∈ lower, Scalar.isNaN l = false → l - .finite tol ≤ .finite a) ∧ -tol ≤ a := by
  have hzero : (Scalar.ofInt 0 : Exact) - .finite tol = .finite (-tol) := by
    change Exact.finite 0 - .finite tol = _
    rw [finite_sub_finite, zero_sub]
  rw [maximum_zero_sub_le]
  cases lower with
  | none => simp +contextual [hzero]
  | some l => simp

theorem le_minimum_getD_one_add (upper : Option Exact) :
    .finite a ≤ Scalar.minimum (upper.getD (Scalar.ofInt 1)) (Scalar.ofInt 1) + .finite tol ↔
      (∀ u ∈ upper, Scalar.isNaN u = false → .finite a ≤ u + .finite tol) ∧ a ≤ 1 + tol := by
  have hone : (Scalar.ofInt 1 : Exact) + .finite tol = .finite (1 + tol) := rfl
  rw [le_minimum_one_add]
  cases upper with
  | none => simp +contextual [hone]
  | some u => simp

/-- A variable starts from its declared interval. -/
theorem contains_rootInterval {entry : VariableEntry Exact}
    (h : entry.toVariable.rootInterval.hasNaN = false) :
    entry.toVariable.rootInterval.contains (.finite a) (.finite tol) = true ↔
      entry.Admits a tol := by
  have hadmits : entry.Admits a tol ↔
      (∀ l ∈ entry.lower, Scalar.isNaN l = false → l - .finite tol ≤ .finite a) ∧
      (∀ u ∈ entry.upper, Scalar.isNaN u = false → .finite a ≤ u + .finite tol) ∧
      (entry.kind = .binary → -tol ≤ a ∧ a ≤ 1 + tol) :=
    ⟨fun h => ⟨h.lower, h.upper, h.binary⟩, fun h => ⟨h.1, h.2.1, h.2.2⟩⟩
  rw [hadmits, Interval.contains, Bool.and_eq_true, decide_eq_true_eq, decide_eq_true_eq]
  obtain ⟨kind, lower, upper, name⟩ := entry
  cases kind with
  | binary =>
      change Scalar.maximum (lower.getD (Scalar.ofInt 0)) (Scalar.ofInt 0) - _ ≤ _ ∧
        _ ≤ Scalar.minimum (upper.getD (Scalar.ofInt 1)) (Scalar.ofInt 1) + _ ↔ _
      rw [maximum_getD_zero_sub_le, le_minimum_getD_one_add]
      simp only [true_imp_iff]
      tauto
  | integer =>
      obtain ⟨hlower, hupper⟩ := Bool.or_eq_false_iff.mp h
      change lower.getD Scalar.negInf - _ ≤ _ ∧ _ ≤ upper.getD Scalar.posInf + _ ↔ _
      rw [getD_negInf_sub_le hlower, le_getD_posInf_add hupper]
      simp
  | continuous =>
      obtain ⟨hlower, hupper⟩ := Bool.or_eq_false_iff.mp h
      change lower.getD Scalar.negInf - _ ≤ _ ∧ _ ≤ upper.getD Scalar.posInf + _ ↔ _
      rw [getD_negInf_sub_le hlower, le_getD_posInf_add hupper]
      simp

end VariableEntry

/-! ## Models and their files -/

theorem Domain.contains_tuple (d : Domain Exact) (x : ℕ → ℚ) (tol : Exact) :
    d.contains (tuple d.size x) tol = true ↔ ∀ (j : ℕ) (i : Interval Exact), d.get? j = some i →
      i.contains (.finite (x j)) tol = true := by
  rw [contains, length_tuple, beq_self_eq_true, Bool.true_and, List.all_eq_true]
  constructor
  · intro h j i hi
    have hj : j < d.size := (List.getElem?_eq_some_iff.mp hi).1
    apply h
    apply List.mem_of_getElem? (i := j)
    rw [List.getElem?_zipWith, getElem?_tuple_of_lt hj, show d.intervals[j]? = some i from hi]
    rfl
  · intro h b hb
    obtain ⟨j, hj⟩ := List.mem_iff_getElem?.mp hb
    rw [List.getElem?_zipWith_eq_some] at hj
    obtain ⟨i, a, hi, ha, rfl⟩ := hj
    obtain ⟨-, rfl⟩ := getElem?_tuple_eq_some.mp ha
    exact h j i hi

namespace LinearModel

variable {file : ModelFile Exact} {m : LinearModel Exact}

theorem numVars_of_ofFile (h : ofFile file = .ok m) : m.numVars = file.vars.length := by
  obtain ⟨-, -, rfl⟩ := ofFile_eq_ok_iff.mp h
  exact List.length_map _

/-- The left-hand sides of a model are the values of the constraints in its file. -/
theorem rowActivity?_of_ofFile (h : ofFile file = .ok m) (x : ℕ → ℚ) :
    m.rowActivity? (tuple file.vars.length x) =
      some (file.constraints.map fun c => .finite (c.valueAt x)) := by
  have hterms := (isChecked_of_ofFile h).terms
  rw [numVars_of_ofFile h] at hterms
  obtain ⟨hfault, -, rfl⟩ := ofFile_eq_ok_iff.mp h
  have hfinite := (ModelFile.fault?_eq_none_iff.mp hfault).2
  simp only [rowActivity?, List.getElem?_toArray]
  generalize file.constraints = constraints at hterms hfinite
  induction constraints with
  | nil => rfl
  | cons c rest ih =>
      rw [List.map_cons, List.forall_mem_cons] at hterms
      rw [List.forall_mem_cons] at hfinite
      rw [List.map_cons, List.mapM_cons, Constraint.activity?_eq_valueAt hterms.1,
        ih hterms.2 hfinite.2, Constraint.valueAt_normalise hfinite.1, List.map_cons]
      rfl

/-- The rows of a model are satisfied by the points that satisfy the constraints in its
file. -/
theorem satisfiesRows_of_ofFile (h : ofFile file = .ok m) (x : ℕ → ℚ) (tol : ℚ) :
    m.satisfiesRows (tuple file.vars.length x) (.finite tol) = true ↔
      ∀ c ∈ file.constraints, c.IsSatisfied x tol := by
  have hchecked := isChecked_of_ofFile h
  have hnumber := numVars_of_ofFile h
  obtain ⟨hfault, -, rfl⟩ := ofFile_eq_ok_iff.mp h
  have hfinite := (ModelFile.fault?_eq_none_iff.mp hfault).2
  rw [satisfiesRows, List.all_eq_true, List.forall_mem_map]
  apply forall₂_congr
  intro c hc
  have hstored := List.mem_map_of_mem (f := Constraint.normalise) hc
  have hterms := hchecked.terms _ hstored
  rw [hnumber] at hterms
  simp only [satisfies, List.getElem?_toArray]
  rw [Constraint.activity?_eq_valueAt hterms]
  exact (Constraint.admits_valueAt (hchecked.rhs_finite _ hstored) x tol).trans
    (Constraint.isSatisfied_normalise (hfinite c hc) x tol)

theorem get?_rootDomain_of_ofFile (h : ofFile file = .ok m) (j : ℕ) :
    m.rootDomain.get? j = file.vars[j]?.map fun entry => entry.toVariable.rootInterval := by
  obtain ⟨-, -, rfl⟩ := ofFile_eq_ok_iff.mp h
  change ((file.vars.map VariableEntry.toVariable).map Variable.rootInterval)[j]? = _
  rw [List.map_map, List.getElem?_map]
  rfl

/-- The box of a model holds the points whose coordinates lie in the intervals that its file
declares. -/
theorem contains_rootDomain_of_ofFile (h : ofFile file = .ok m) (x : ℕ → ℚ) (tol : ℚ) :
    m.rootDomain.contains (tuple file.vars.length x) (.finite tol) = true ↔
      ∀ (j : ℕ) (entry : VariableEntry Exact), file.vars[j]? = some entry →
        entry.Admits (x j) tol := by
  have hsize : m.rootDomain.size = file.vars.length :=
    (List.length_map _).trans (numVars_of_ofFile h)
  have hnumbers : ∀ v ∈ m.vars, v.rootInterval.hasNaN = false := fun v hv =>
    (Problem.rootInterval_of_fault?_eq_none (isChecked_of_ofFile h).valid hv).1
  have hvars : m.vars = file.vars.map VariableEntry.toVariable := by
    obtain ⟨-, -, rfl⟩ := ofFile_eq_ok_iff.mp h
    rfl
  rw [hvars, List.forall_mem_map] at hnumbers
  rw [← hsize, Domain.contains_tuple]
  simp only [get?_rootDomain_of_ofFile h, Option.map_eq_some_iff, forall_exists_index, and_imp,
    forall_apply_eq_imp_iff₂]
  apply forall₃_congr
  intro j entry hentry
  exact VariableEntry.contains_rootInterval (hnumbers entry (List.mem_of_getElem? hentry))

/-- **Models mean what their files say.**  In exact arithmetic the left-hand sides of a model
at a point are the sums of all terms that its file gives for the constraints, in the order of
the constraints.  A point is feasible, up to a tolerance, if and only if each coordinate lies
in the declared interval of its variable and each constraint holds as it is written down.  The
columns of a row increase. -/
theorem ofFile_keeps_meaning (h : ofFile file = .ok m) (x : ℕ → ℚ) (tol : ℚ) :
    m.rowActivity? (tuple file.vars.length x) =
      some (file.constraints.map fun c => .finite (c.valueAt x)) ∧
    (m.isFeasible (tuple file.vars.length x) (.finite tol) = true ↔
      (∀ (j : ℕ) (entry : VariableEntry Exact), file.vars[j]? = some entry →
        entry.Admits (x j) tol) ∧
      ∀ c ∈ file.constraints, c.IsSatisfied x tol) ∧
    ∀ c ∈ m.constraints, Constraint.IsSorted c.terms := by
  refine ⟨rowActivity?_of_ofFile h x, ?_, ?_⟩
  · have hlength : ((tuple file.vars.length x).length == m.numVars) = true := by
      rw [length_tuple, numVars_of_ofFile h, beq_self_eq_true]
    rw [isFeasible, hlength, Bool.true_and, Bool.and_eq_true, contains_rootDomain_of_ofFile h,
      satisfiesRows_of_ofFile h]
  · intro c hc
    obtain ⟨-, -, rfl⟩ := ofFile_eq_ok_iff.mp h
    obtain ⟨written, -, rfl⟩ := List.mem_map.mp hc
    exact written.merges_normalise.sorted

/-- A file with a row whose terms are scattered and cancel in part, and with an empty row.  Its
binary variable asks for a lower bound below zero. -/
def cancelling : ModelFile Exact where
  objective := [Scalar.ofInt 1, Scalar.ofInt 0, Scalar.ofInt (-1)]
  vars := [{ kind := .continuous }, { kind := .binary, lower := some (Scalar.ofInt (-2)) },
    { kind := .integer, lower := some (Scalar.ofInt 2), upper := some (Scalar.ofInt 5) }]
  constraints := [
    ⟨[(2, Scalar.ofInt 1), (1, Scalar.ofInt 4), (2, Scalar.ofInt 3), (0, Scalar.ofInt 2),
      (1, Scalar.ofInt (-4))], .le, Scalar.ofInt 10⟩,
    ⟨[], .ge, Scalar.ofInt (-1)⟩,
    ⟨[(1, Scalar.ofInt 1), (0, Scalar.ofInt 1)], .eq, Scalar.ofInt 1⟩]

/-- At a point with a binary coordinate of `3 / 2` the rows have the values that are written
down.  The point is not feasible, since the coordinate exceeds one. -/
theorem ofFile_cancelling_keeps_meaning :
    let x : ℕ → ℚ := fun j => [-1 / 2, 3 / 2, 2].getD j 0
    ∃ m, ofFile cancelling = .ok m ∧
      m.constraints.map Constraint.terms = [
        [(0, Scalar.ofInt 2), (1, Scalar.ofInt 0), (2, Scalar.ofInt 4)], [],
        [(0, Scalar.ofInt 1), (1, Scalar.ofInt 1)]] ∧
      m.rowActivity? (tuple 3 x) = some [.finite 7, .finite 0, .finite 1] ∧
      m.isFeasible (tuple 3 x) (.finite 0) = false := by
  intro x
  obtain ⟨m, hfile, hterms⟩ : ∃ m, ofFile cancelling = .ok m ∧
      m.constraints.map Constraint.terms = [
        [(0, Scalar.ofInt 2), (1, Scalar.ofInt 0), (2, Scalar.ofInt 4)], [],
        [(0, Scalar.ofInt 1), (1, Scalar.ofInt 1)]] :=
    ⟨{ name := ""
       objective := [Scalar.ofInt 1, Scalar.ofInt 0, Scalar.ofInt (-1)]
       vars := [{ kind := .continuous, bounds := .whole },
         { kind := .binary, bounds := ⟨Scalar.ofInt (-2), Scalar.ofInt 1⟩ },
         { kind := .integer, bounds := ⟨Scalar.ofInt 2, Scalar.ofInt 5⟩ }]
       constraints := [
         ⟨[(0, Scalar.ofInt 2), (1, Scalar.ofInt 0), (2, Scalar.ofInt 4)], .le,
           Scalar.ofInt 10⟩,
         ⟨[], .ge, Scalar.ofInt (-1)⟩,
         ⟨[(0, Scalar.ofInt 1), (1, Scalar.ofInt 1)], .eq, Scalar.ofInt 1⟩] },
      by decide +kernel, rfl⟩
  obtain ⟨hrows, hfeasible, -⟩ := ofFile_keeps_meaning hfile x 0
  refine ⟨m, hfile, hterms, hrows.trans (by decide +kernel), ?_⟩
  rw [Bool.eq_false_iff]
  intro h
  have hbinary := ((hfeasible.mp h).1 1 _ rfl).binary rfl
  norm_num [x] at hbinary

end LinearModel

end BranchBound
