import BranchBound.Proofs.Grids

/-!
# Enumeration of models

What the enumeration of a model over a grid finds in exact arithmetic.  If it does not
refuse, the grid is small, and the result is the best of the grid's points that satisfy the
rows.
-/

namespace BranchBound

open Exact

/-! ## Spans of a grid -/

namespace Enumeration

/-- The interval between two integers. -/
def interval (ends : ℤ × ℤ) : Interval Exact :=
  ⟨.finite ends.1, .finite ends.2⟩

/-- The integers between two integers. -/
def spanOf (ends : ℤ × ℤ) : Span :=
  ⟨ends.1, (ends.2 - ends.1 + 1).toNat⟩

theorem span?_interval
    {ends : ℤ × ℤ} (hends : ends.1 ≤ ends.2) {var : ℕ} {span : Option Span}
    (h : span? var (interval ends) = .ok span) : span = some (spanOf ends) := by
  have hlower : Scalar.ceil (Exact.finite ends.1) = .finite ends.1 := by
    change Exact.finite (Rat.ceil ends.1 : ℤ) = _
    rw [Rat.ceil_intCast]
  have hupper : Scalar.floor (Exact.finite ends.2) = .finite ends.2 := by
    change Exact.finite (Rat.floor ends.2 : ℤ) = _
    rw [Rat.floor_intCast]
  have hint : ∀ n : ℤ, Scalar.toInt? (Exact.finite n) = some n := by
    intro n
    change some (Rat.floor n) = _
    rw [Rat.floor_intCast]
  have hfinite : ∀ n : ℤ, Scalar.isFinite (Exact.finite n) = true := fun _ => rfl
  have hlt : ∀ a b : ℤ, Exact.finite a < .finite b ↔ a < b := by
    intro a b
    rw [finite_lt_finite]
    exact_mod_cast Iff.rfl
  have hmin : (Scalar.ofInt minInt : Exact) = .finite minInt := rfl
  have hmax : (Scalar.ofInt maxInt : Exact) = .finite maxInt := rfl
  simp only [span?, interval, hfinite, hlower, hupper, hint, hmin, hmax, hlt, hends.not_gt,
    Bool.not_true, Bool.or_self, Bool.false_eq_true, if_false] at h
  split at h
  · cases h
  next hrange =>
  obtain ⟨hleast, hgreatest⟩ := not_or.mp hrange
  rw [saturate_eq (not_lt.mp hleast) (hends.trans (not_lt.mp hgreatest)),
    saturate_eq ((not_lt.mp hleast).trans hends) (not_lt.mp hgreatest)] at h
  split at h
  · cases h
  · exact (Except.ok.inj h).symm

/-- Spans are found only for a grid with few points. -/
theorem spans?_intervals
    {ends : List (ℤ × ℤ)} (hends : ∀ e ∈ ends, e.1 ≤ e.2) {var points : ℕ}
    {spans : Option (List Span)} (hpoints : points ≤ maxPoints)
    (h : spans? ((ends.map interval).zipIdx var) points = .ok spans) :
    spans = some (ends.map spanOf) ∧
      points * ((ends.map spanOf).map Span.count).prod ≤ maxPoints := by
  induction ends generalizing var points spans with
  | nil =>
      obtain rfl := Except.ok.inj h
      simpa using hpoints
  | cons e rest ih =>
      rw [List.forall_mem_cons] at hends
      rw [List.map_cons, List.zipIdx_cons, spans?] at h
      split at h
      · cases h
      next hspan => cases span?_interval hends.1 hspan
      next span hspan =>
      obtain rfl := Option.some.inj (span?_interval hends.1 hspan)
      split at h
      · cases h
      next hfew =>
      split at h
      · cases h
      next rest' hrest =>
      obtain ⟨rfl, hprod⟩ := ih hends.2 (not_lt.mp hfew) hrest
      obtain rfl := Except.ok.inj h
      refine ⟨rfl, ?_⟩
      rw [List.map_cons, List.map_cons, List.prod_cons, ← mul_assoc]
      exact hprod

/-- Every value of a span lies in its interval, up to any tolerance. -/
theorem admissibleValues_intervals (ends : List (ℤ × ℤ)) {tol : ℚ} (htol : 0 ≤ tol) :
    admissibleValues ⟨ends.map interval⟩ (.finite tol) (ends.map spanOf) =
      (ends.map spanOf).map Span.values := by
  induction ends with
  | nil => rfl
  | cons e rest ih =>
      simp only [admissibleValues, List.map_cons, List.zipWith_cons_cons] at ih ⊢
      rw [ih, List.filter_eq_self.mpr]
      intro v hv
      obtain ⟨n, ⟨hlow, hhigh⟩, rfl⟩ := mem_values.mp hv
      simp only [spanOf] at hlow hhigh
      have hlower : (e.1 : ℚ) ≤ n := by exact_mod_cast hlow
      have hupper : (n : ℚ) ≤ e.2 := by
        have hle : n ≤ e.2 := by omega
        exact_mod_cast hle
      have hcontains : (e.1 : ℚ) - tol ≤ n ∧ (n : ℚ) ≤ e.2 + tol :=
        ⟨by linarith, by linarith⟩
      simpa [interval, Interval.contains] using hcontains

end Enumeration

/-! ## Models over a grid -/

section

variable {n : ℕ} {l u : ℕ → ℤ}

theorem Exact.box_eq_map_interval (n : ℕ) (l u : ℕ → ℤ) :
    box n (fun i => l i) (fun i => u i) =
      ⟨((List.range n).map fun i => (l i, u i)).map Enumeration.interval⟩ := by
  rw [List.map_map]
  rfl

/-- The number of points of a grid. -/
theorem Problem.gridSize_eq
    {vars : List (Variable Exact)} (hkind : ∀ v ∈ vars, v.kind.isIntegral = true)
    (hroot : (Problem.ofVariables vars).rootDomain = box n (fun i => l i) fun i => u i) :
    (Problem.ofVariables vars).gridSize =
      ((((List.range n).map fun i => (l i, u i)).map Enumeration.spanOf).map
        Enumeration.Span.count).prod := by
  have hcount : ∀ e : ℤ × ℤ, (Enumeration.interval e).integerCount =
      (Enumeration.spanOf e).count := by
    intro e
    change ((e.2 : ℚ) - e.1 + 1).floor.toNat = (e.2 - e.1 + 1).toNat
    have hcast : (e.2 : ℚ) - e.1 + 1 = ((e.2 - e.1 + 1 : ℤ) : ℚ) := by
      push_cast
      ring
    rw [hcast, Rat.floor_intCast]
  have hintervals : vars.map Variable.rootInterval =
      ((List.range n).map fun i => (l i, u i)).map Enumeration.interval := by
    rw [box_eq_map_interval] at hroot
    exact congrArg Domain.intervals hroot
  have hfilter : vars.filter (fun v => v.kind.isIntegral) = vars :=
    List.filter_eq_self.mpr hkind
  have hmap := congrArg (List.map Interval.integerCount) hintervals
  rw [List.map_map, List.map_map] at hmap
  rw [gridSize, ofVariables, hfilter, List.map_map]
  apply congrArg List.prod
  refine hmap.trans ?_
  apply List.map_congr_left
  intro e _
  exact hcount e

/-- An enumeration of a model over a grid that does not refuse visits the points of the
grid, of which there are few, and finds the best one that satisfies the rows, up to the
tolerance. -/
theorem Enumeration.exists_isBest_of_nonneg
    {m : LinearModel Exact} (hinteger : m.isPureInteger = true)
    (hroot : m.rootDomain = box n (fun i => l i) fun i => u i)
    (hlu : ∀ i < n, l i ≤ u i) {tol : ℚ} (htol : 0 ≤ tol)
    {best : Option (Exact × List Exact)} (h : Enumeration.best m (.finite tol) = .ok best) :
    m.problem.gridSize ≤ maxPoints ∧
      ∃ visited, (∀ p, p ∈ visited ↔
          ∃ y : ℕ → ℤ, p = lattice n y ∧ ∀ i < n, l i ≤ y i ∧ y i ≤ u i) ∧
        IsBest (m.satisfiesRows · (.finite tol)) m.objectiveValue visited best := by
  have hends : ∀ e ∈ (List.range n).map fun i => (l i, u i), e.1 ≤ e.2 := by
    intro e he
    obtain ⟨i, hi, rfl⟩ := List.mem_map.mp he
    exact hlu i (List.mem_range.mp hi)
  have hkind : ∀ v ∈ m.vars, v.kind.isIntegral = true := List.all_eq_true.mp hinteger
  rw [Enumeration.best, hinteger, hroot, box_eq_map_interval] at h
  simp only [Bool.not_true, Bool.false_eq_true, if_false] at h
  split at h
  · cases h
  next hspans => cases (spans?_intervals hends (by decide) hspans).1
  next spans hspans =>
  obtain ⟨hsome, hfew⟩ := spans?_intervals hends (by decide) hspans
  obtain rfl := Option.some.inj hsome
  rw [one_mul, ← Problem.gridSize_eq hkind hroot] at hfew
  rw [admissibleValues_intervals _ htol] at h
  obtain rfl := Except.ok.inj h
  refine ⟨hfew, _, ?_, isBest_foldPoints _ _⟩
  intro p
  apply mem_points_spans
  · rw [List.length_map, List.length_map, List.length_range]
  · intro i hi
    have hle := hlu i hi
    refine ⟨spanOf (l i, u i), by simp [hi], rfl, ?_⟩
    simp only [spanOf]
    omega

theorem Enumeration.exists_isBest
    {m : LinearModel Exact} (hinteger : m.isPureInteger = true)
    (hroot : m.rootDomain = box n (fun i => l i) fun i => u i)
    (hlu : ∀ i < n, l i ≤ u i) {best : Option (Exact × List Exact)}
    (h : Enumeration.best m (Scalar.ofInt 0) = .ok best) :
    m.problem.gridSize ≤ maxPoints ∧
      ∃ visited, (∀ p, p ∈ visited ↔
          ∃ y : ℕ → ℤ, p = lattice n y ∧ ∀ i < n, l i ≤ y i ∧ y i ≤ u i) ∧
        IsBest (m.satisfiesRows · (Scalar.ofInt 0)) m.objectiveValue visited best :=
  exists_isBest_of_nonneg hinteger hroot hlu le_rfl h

end

end BranchBound
