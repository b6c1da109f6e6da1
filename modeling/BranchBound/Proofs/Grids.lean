import BranchBound.Proofs.Completion
import BranchBound.Proofs.EnumeratedPoints
import BranchBound.Proofs.RationalPoints

/-!
# Grids in exact arithmetic

Grids are the boxes between integer points, and an enumeration of spans visits the integer
points between its bounds.  A complete search therefore agrees with an enumeration of the
same points, provided that costs which differ at all differ by more than the tolerance.
-/

namespace BranchBound

open Exact

/-! ## Integer points -/

namespace Exact

/-- The point with integer coordinates. -/
def lattice (n : ℕ) (y : ℕ → ℤ) : List Exact :=
  tuple n fun i => y i

theorem lattice_eq_map (n : ℕ) (y : ℕ → ℤ) :
    lattice n y = ((List.range n).map y).map Scalar.ofInt := by
  rw [lattice, tuple, List.map_map]
  rfl

theorem isIntegerPoint_lattice (problem : Problem Exact) (n : ℕ) (y : ℕ → ℤ) :
    problem.IsIntegerPoint (lattice n y) := by
  intro var v a _ ha _
  obtain ⟨-, rfl⟩ := getElem?_tuple_eq_some.mp ha
  exact ⟨y var, value_eq _⟩

/-- Rounding leaves integer points alone. -/
theorem roundIntegers_lattice (problem : Problem Exact) (y : ℕ → ℤ) :
    problem.roundIntegers (lattice problem.numVars y) = lattice problem.numVars y := by
  apply List.ext_getElem?
  intro i
  rw [Problem.roundIntegers, List.getElem?_zipWith, lattice, getElem?_tuple]
  by_cases hi : i < problem.numVars
  · have hround : Scalar.round (Exact.finite (y i)) = Exact.finite (y i) := by
      change Exact.finite (nearest (y i) : ℤ) = _
      rw [nearest_intCast]
    have hvar : problem.vars[i]? = some problem.vars[i] := List.getElem?_eq_getElem hi
    simp only [if_pos hi, hvar, hround, ite_self]
  · have hvar : problem.vars[i]? = none := List.getElem?_eq_none (not_lt.mp hi)
    simp only [if_neg hi, hvar]

end Exact

/-- The coordinates of a point that counts as integral are near integers. -/
theorem Problem.near_of_isIntegral
    {vars : List (Variable Exact)} {x : ℕ → ℚ} {tol : ℚ}
    (hkind : ∀ v ∈ vars, v.kind.isIntegral = true)
    (h : (Problem.ofVariables vars).isIntegral (tuple vars.length x) (.finite tol) = true)
    {i : ℕ} (hi : i < vars.length) : |x i - nearest (x i)| ≤ tol := by
  have hvar : vars[i]? = some vars[i] := List.getElem?_eq_getElem hi
  have hentry := List.all_eq_true.mp h (vars[i], .finite (x i))
    (List.mem_of_getElem? (List.getElem?_zip_eq_some.mpr ⟨hvar, getElem?_tuple_of_lt hi x⟩))
  simp only [hkind _ (List.getElem_mem hi), Bool.not_true, Bool.false_or,
    decide_eq_true_eq] at hentry
  have hvalue := Scalar.value_fractionality (value_eq (.finite (x i)))
  rw [value_eq] at hvalue
  rwa [hvalue, finite_le_finite] at hentry

/-- A grid is the box between two integer points. -/
theorem Domain.IsSubgrid.exists_eq_box
    {d root : Domain Exact} (h : d.IsSubgrid root) :
    ∃ l u : ℕ → ℤ, d = box d.size (fun i => l i) (fun i => u i) ∧
      ∀ i < d.size, l i ≤ u i := by
  have hbounds : ∀ j : ℕ, ∃ ends : ℤ × ℤ, ∀ i : Interval Exact, d.get? j = some i →
      i = ⟨.finite ends.1, .finite ends.2⟩ ∧ ends.1 ≤ ends.2 := by
    intro j
    cases hj : d.get? j with
    | none =>
        refine ⟨(0, 0), ?_⟩
        intro i hi
        cases hi
    | some i =>
        obtain ⟨⟨⟨a, ha⟩, b, hb⟩, hempty⟩ := h.integral j i hj
        rw [value_eq] at ha hb
        refine ⟨(a, b), ?_⟩
        intro i' hi'
        obtain rfl := Option.some.inj hi'
        constructor
        · rw [← ha, ← hb]
        · have hnot : ¬i.upper < i.lower := by simpa [Interval.isEmpty] using hempty
          rw [ha, hb, finite_lt_finite, not_lt] at hnot
          exact_mod_cast hnot
  choose ends hends using hbounds
  refine ⟨fun j => (ends j).1, fun j => (ends j).2, ?_, ?_⟩
  · have hintervals : d.intervals =
        (box d.size (fun j => (ends j).1) fun j => (ends j).2).intervals := by
      apply List.ext_getElem?
      intro j
      by_cases hj : j < d.size
      · have hget : d.get? j = some d.intervals[j] := List.getElem?_eq_getElem hj
        have hbox : (box d.size (fun j => (ends j).1) fun j => (ends j).2).get? j =
            some ⟨.finite (ends j).1, .finite (ends j).2⟩ :=
          get?_box_eq_some.mpr ⟨hj, rfl⟩
        rw [(hends j _ hget).1] at hget
        exact hget.trans hbox.symm
      · rw [List.getElem?_eq_none (not_lt.mp hj), List.getElem?_eq_none]
        have hsize := size_box d.size (fun j => ((ends j).1 : ℚ)) fun j => (ends j).2
        exact hsize.trans_le (not_lt.mp hj)
    exact congrArg Domain.mk hintervals
  · intro j hj
    exact (hends j _ (List.getElem?_eq_getElem hj)).2

/-! ## Enumerated integer points -/

namespace Enumeration

theorem mem_values {span : Span} {v : Exact} :
    v ∈ (span.values : List Exact) ↔
      ∃ m : ℤ, (span.start ≤ m ∧ m < span.start + span.count) ∧ v = .finite m := by
  simp only [Span.values_eq_map, List.mem_map, Span.mem_integers, Span.last]
  constructor
  · rintro ⟨m, ⟨hlow, hhigh⟩, rfl⟩
    exact ⟨m, ⟨hlow, by omega⟩, rfl⟩
  · rintro ⟨m, ⟨hlow, hhigh⟩, rfl⟩
    exact ⟨m, ⟨hlow, by omega⟩, rfl⟩

/-- Choices of one value from each span are the integer points of the spans. -/
theorem forall₂_values {spans : List Span} {x : List Exact} :
    List.Forall₂ (· ∈ ·) x (spans.map Span.values) ↔
      ∃ y : ℕ → ℤ, x = lattice spans.length y ∧ ∀ (i : ℕ) (span : Span),
        spans[i]? = some span → span.start ≤ y i ∧ y i < span.start + span.count := by
  rw [List.forall₂_map_right_iff, List.forall₂_iff_get]
  constructor
  · rintro ⟨hlength, hvalues⟩
    have hchoice : ∀ i : ℕ, ∃ m : ℤ, ∀ span : Span, spans[i]? = some span →
        (span.start ≤ m ∧ m < span.start + span.count) ∧ x[i]? = some (.finite m) := by
      intro i
      by_cases hi : i < spans.length
      · have hx : i < x.length := hlength ▸ hi
        obtain ⟨m, hm, hxi⟩ := mem_values.mp (hvalues i hx hi)
        refine ⟨m, ?_⟩
        intro span hspan
        obtain rfl := Option.some.inj ((List.getElem?_eq_getElem hi).symm.trans hspan)
        exact ⟨hm, (List.getElem?_eq_getElem hx).trans (congrArg some hxi)⟩
      · refine ⟨0, ?_⟩
        intro span hspan
        rw [List.getElem?_eq_none (not_lt.mp hi)] at hspan
        cases hspan
    choose y hy using hchoice
    refine ⟨y, ?_, fun i span hspan => (hy i span hspan).1⟩
    apply List.ext_getElem?
    intro i
    rw [lattice, getElem?_tuple]
    by_cases hi : i < spans.length
    · rw [if_pos hi]
      exact (hy i _ (List.getElem?_eq_getElem hi)).2
    · rw [if_neg hi, List.getElem?_eq_none (by omega)]
  · rintro ⟨y, rfl, hy⟩
    refine ⟨length_tuple _ _, ?_⟩
    intro i hi hi'
    refine mem_values.mpr ⟨y i, hy i _ (List.getElem?_eq_getElem hi'), ?_⟩
    have hget := getElem?_tuple_of_lt hi' fun i => (y i : ℚ)
    rw [List.getElem?_eq_getElem (by simpa using hi')] at hget
    exact Option.some.inj hget

/-- An enumeration of spans visits the integer points between their ends. -/
theorem mem_points_spans
    {spans : List Span} {n : ℕ} {l u : ℕ → ℤ} (hlength : spans.length = n)
    (hspans : ∀ i < n, ∃ span, spans[i]? = some span ∧ span.start = l i ∧
      span.start + span.count = u i + 1)
    {p : List Exact} :
    p ∈ points (spans.map Span.values).reverse [] ↔
      ∃ y : ℕ → ℤ, p = lattice n y ∧ ∀ i < n, l i ≤ y i ∧ y i ≤ u i := by
  rw [mem_points_reverse, forall₂_values, hlength]
  apply exists_congr
  intro y
  apply and_congr_right
  intro _
  constructor
  · intro hy i hi
    obtain ⟨span, hspan, hstart, hend⟩ := hspans i hi
    have hyi := hy i span hspan
    omega
  · intro hy i span' hspan'
    have hi : i < n := hlength ▸ (List.getElem?_eq_some_iff.mp hspan').1
    obtain ⟨span, hspan, hstart, hend⟩ := hspans i hi
    obtain rfl := Option.some.inj (hspan.symm.trans hspan')
    have hyi := hy i hi
    omega

end Enumeration

/-! ## Searching and enumerating -/

namespace Tree

variable {σ : Type} {vars : List (Variable Exact)} {oracle : Oracle σ Exact} {t : Tree Exact}
  {S : Set (List Exact)} {c : List Exact → Exact}

/-- A complete search and an enumeration of the same points find the same, if costs that
differ at all differ by more than the tolerance. -/
theorem IsComplete.run_eq_best
    (h : IsComplete vars oracle t S c) {isFeasible : List Exact → Bool}
    {visited : List (List Exact)} {best : Option (Exact × List Exact)}
    (hbest : Enumeration.IsBest isFeasible c visited best)
    (hS : ∀ p, p ∈ S ↔ p ∈ visited ∧ isFeasible p = true)
    (hlattice : ∀ p ∈ S, ∃ y, p = lattice vars.length y)
    (hseparated : ∀ x ∈ S, ∀ p ∈ S, c p < c x → c p < c x - t.settings.improvementTol *
      Scalar.maximum (Scalar.abs (c x)) (Scalar.ofInt 1))
    (clock : Clock) (s : σ) :
    ∃ result, (t.run (.ofVariables vars) oracle clock s).1 = .ok result ∧
      (result.status = .infeasible ↔ best = none) ∧
      ∀ least z, best = some (least, z) → result.status = .optimal ∧
        result.bestObjective = some least ∧
        ∃ x ∈ S, result.bestAssignment = some x ∧ c x = least := by
  obtain ⟨result, hrun, ⟨hstatus, hempty⟩ | ⟨x, hx, hstatus, hobjective, hassignment, hmin⟩⟩ :=
    h.run_optimum clock s
  · have hnone : best = none := by
      rcases best with _ | ⟨least, z⟩
      · rfl
      · have hz : z ∈ S := (hS z).mpr ⟨hbest.1, hbest.2.1⟩
        rw [hempty] at hz
        cases hz
    refine ⟨result, hrun, ⟨fun _ => hnone, fun _ => hstatus⟩, ?_⟩
    intro least z hsome
    rw [hnone] at hsome
    cases hsome
  · refine ⟨result, hrun, ⟨?_, ?_⟩, ?_⟩
    · intro hinfeasible
      rw [hstatus] at hinfeasible
      cases hinfeasible
    · rintro rfl
      obtain ⟨hvisited, hfeasible⟩ := (hS x).mp hx
      rw [hbest x hvisited] at hfeasible
      cases hfeasible
    · rintro least z rfl
      obtain ⟨hvisited, hfeasible, rfl, hleast⟩ := hbest
      have hz : z ∈ S := (hS z).mpr ⟨hvisited, hfeasible⟩
      have hnot : ¬c z < c x := fun hlt => hmin z hz (hseparated x hx z hz hlt)
      have hnot' : ¬c x < c z := hleast x ((hS x).mp hx).1 ((hS x).mp hx).2
      have hcost : c x = c z := by
        have hvalue := Scalar.value_eq_of_not_lt (h.target.isNaN_cost x hx)
          (h.target.isNaN_cost z hz) hnot' hnot
        rwa [value_eq, value_eq] at hvalue
      obtain ⟨y, rfl⟩ := hlattice x hx
      have hround := roundIntegers_lattice (.ofVariables vars) y
      refine ⟨hstatus, hcost ▸ hobjective, _, hx, ?_, hcost⟩
      rw [hassignment]
      exact congrArg some hround

end Tree

end BranchBound
