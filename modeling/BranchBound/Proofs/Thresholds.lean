import BranchBound.Node
import BranchBound.Proofs.LawfulScalar

/-!
# Thresholds

What an incumbent rules out.  Its threshold is never above its objective, so a
point it replaces, and every point that did not improve before, does not improve
on the new one either.
-/

namespace BranchBound

variable {α : Type} [Scalar α]

/-- A magnitude, raised to a positive number at least, is a positive number. -/
theorem Scalar.value_maximum_abs [LawfulScalar α] {a b : α} {r s : ℚ}
    (ha : value a = .finite r) (hb : value b = .finite s) (hs : 0 < s) :
    ∃ q : ℚ, 0 < q ∧ value (maximum (abs a) b) = .finite q := by
  have habs : value (abs a) = .finite (if r < 0 then -r else r) := by
    rw [LawfulScalar.value_abs, ha]
    rfl
  have hnumber := isNaN_of_isFinite (isFinite_iff.mpr ⟨_, habs⟩)
  unfold maximum
  rw [if_neg (by simp [hnumber])]
  split
  next => exact ⟨s, hs, hb⟩
  next hge =>
    refine ⟨_, ?_, habs⟩
    rw [LawfulScalar.lt_iff_value, habs, hb, Exact.finite_lt_finite] at hge
    linarith

namespace Incumbent

/-- An incumbent as a search with a nonnegative tolerance keeps it. -/
structure IsValid (i : Incumbent α) : Prop where
  tol_nonneg : Scalar.ofInt 0 ≤ i.tol
  /-- The objective of a point is finite. -/
  present : i.isPresent = true → Scalar.isFinite i.objective = true
  absent : i.isPresent = false → i.objective = Scalar.posInf

theorem improves_eq_true_iff {i : Incumbent α} {a : α} :
    i.improves a = true ↔ a < i.threshold := by
  simp [improves]

theorem improves_eq_false_iff {i : Incumbent α} {a : α} :
    i.improves a = false ↔ ¬a < i.threshold := by
  simp [improves]

theorem dominates_eq_true_iff {i : Incumbent α} {bound : α} :
    i.dominates bound = true ↔ i.isPresent = true ∧ i.improves bound = false := by
  simp [dominates]

theorem threshold_of_isFinite {i : Incumbent α} (h : Scalar.isFinite i.objective = true) :
    i.threshold = i.objective - i.tol *
      Scalar.maximum (Scalar.abs i.objective) (Scalar.ofInt 1) := by
  rw [threshold, if_pos h]

theorem consider_of_improves {i : Incumbent α} {objective : α}
    (h : i.improves objective = true) (values : List α) :
    i.consider objective values =
      { i with assignment := some values, objective, updates := i.updates + 1 } := by
  rw [consider, if_pos h]

/-- A replacement is valid. -/
theorem IsValid.consider {i : Incumbent α} (hi : i.IsValid) {objective : α}
    (himproves : i.improves objective = true) (hfin : Scalar.isFinite objective = true)
    (values : List α) : (i.consider objective values).IsValid := by
  rw [consider_of_improves himproves]
  exact ⟨hi.tol_nonneg, fun _ => hfin, fun habsent => Bool.noConfusion habsent⟩

variable [LawfulScalar α]

/-- The scale of a finite objective is finite and positive. -/
theorem value_scale {a : α} (ha : Scalar.isFinite a = true) :
    ∃ s : ℚ, 0 < s ∧
      Scalar.value (Scalar.maximum (Scalar.abs a) (Scalar.ofInt 1)) = .finite s := by
  obtain ⟨r, hr⟩ := Scalar.isFinite_iff.mp ha
  exact Scalar.value_maximum_abs hr Scalar.value_one one_pos

/-- Without a tolerance whatever is lower improves. -/
theorem lt_threshold_of_lt
    {a z tol : α} (hz : Scalar.isFinite z = true) (htol : Scalar.value tol = .finite 0)
    (h : a < z) : a < z - tol * Scalar.maximum (Scalar.abs z) (Scalar.ofInt 1) := by
  obtain ⟨r, hr⟩ := Scalar.isFinite_iff.mp hz
  obtain ⟨s, -, hscale⟩ := value_scale hz
  have hproduct : Scalar.value (tol * Scalar.maximum (Scalar.abs z) (Scalar.ofInt 1)) =
      .finite 0 := by
    rw [LawfulScalar.value_mul, htol, hscale, Exact.finite_mul_finite, zero_mul,
      Scalar.rounded_zero]
  have hthreshold : Scalar.value (z - tol * Scalar.maximum (Scalar.abs z) (Scalar.ofInt 1)) =
      Scalar.value z := by
    have hfix := LawfulScalar.rounded_value z
    rw [LawfulScalar.value_sub, hproduct, hr, Exact.finite_sub_finite, sub_zero]
    rwa [hr] at hfix
  rwa [LawfulScalar.lt_iff_value, hthreshold, ← LawfulScalar.lt_iff_value]

/-- The threshold is at most the objective. -/
theorem threshold_le {i : Incumbent α} (htol : Scalar.ofInt 0 ≤ i.tol)
    (hnumber : Scalar.isNaN i.objective = false) : i.threshold ≤ i.objective := by
  by_cases hfin : Scalar.isFinite i.objective = true
  · obtain ⟨r, hr⟩ := Scalar.isFinite_iff.mp hfin
    obtain ⟨s, hs, hscale⟩ := value_scale hfin
    rw [threshold_of_isFinite hfin]
    exact Scalar.sub_le_self hr (Scalar.mul_nonneg htol hscale hs)
  · rw [threshold, if_neg hfin]
    exact Scalar.le_refl hnumber

theorem IsValid.isNaN_objective {i : Incumbent α} (hi : i.IsValid) :
    Scalar.isNaN i.objective = false := by
  cases hpresent : i.isPresent with
  | true => exact Scalar.isNaN_of_isFinite (hi.present hpresent)
  | false =>
      rw [hi.absent hpresent]
      exact Scalar.isNaN_posInf

theorem IsValid.threshold_le {i : Incumbent α} (hi : i.IsValid) : i.threshold ≤ i.objective :=
  Incumbent.threshold_le hi.tol_nonneg hi.isNaN_objective

/-- What is no better than the objective does not improve. -/
theorem not_improves_of_le {i : Incumbent α} {a : α} (htol : Scalar.ofInt 0 ≤ i.tol)
    (h : i.objective ≤ a) : i.improves a = false := by
  rw [improves_eq_false_iff]
  exact Scalar.not_lt_of_le
    (Scalar.le_trans (threshold_le htol (Scalar.isNaN_left_of_le h)) h)

theorem IsValid.not_improves_of_le {i : Incumbent α} (hi : i.IsValid) {a : α}
    (h : i.objective ≤ a) : i.improves a = false :=
  Incumbent.not_improves_of_le hi.tol_nonneg h

/-- What is above a value that does not improve does not improve. -/
theorem not_improves_of_not_improves_of_le {i : Incumbent α}
    {a b : α} (ha : i.improves a = false) (hab : a ≤ b) : i.improves b = false := by
  rw [improves_eq_false_iff] at ha ⊢
  intro hb
  exact ha (Scalar.lt_of_le_of_lt hab hb)

/-- Without an incumbent everything finite improves, so what is finite and not
dominated improves. -/
theorem improves_of_not_dominates {i : Incumbent α}
    (habsent : i.isPresent = false → i.objective = Scalar.posInf) {a : α}
    (hfin : Scalar.isFinite a = true) (h : i.dominates a = false) : i.improves a = true := by
  by_contra hworse
  have hmissing : i.isPresent = false := by simpa [dominates, hworse] using h
  have hthreshold : i.threshold = Scalar.posInf := by
    rw [threshold, habsent hmissing, if_neg (by simp [Scalar.isFinite_posInf])]
  rw [improves_eq_true_iff, hthreshold] at hworse
  exact hworse (Scalar.lt_posInf_of_isFinite hfin)

theorem IsValid.improves_of_not_dominates {i : Incumbent α} (hi : i.IsValid) {a : α}
    (hfin : Scalar.isFinite a = true) (h : i.dominates a = false) : i.improves a = true :=
  Incumbent.improves_of_not_dominates hi.absent hfin h

/-- An objective that improves is below the one it replaces. -/
theorem lt_objective_of_improves {i : Incumbent α} {a : α} (htol : Scalar.ofInt 0 ≤ i.tol)
    (hnumber : Scalar.isNaN i.objective = false) (h : i.improves a = true) :
    a < i.objective :=
  Scalar.lt_of_lt_of_le (improves_eq_true_iff.mp h) (threshold_le htol hnumber)

/-- What did not improve before a replacement does not improve after it. -/
theorem not_improves_consider {i : Incumbent α} {objective a : α}
    (htol : Scalar.ofInt 0 ≤ i.tol) (himproves : i.improves objective = true)
    (values : List α) (hnum : Scalar.isNaN a = false) (ha : i.improves a = false) :
    (i.consider objective values).improves a = false := by
  rw [consider_of_improves himproves]
  rw [improves_eq_true_iff] at himproves
  rw [improves_eq_false_iff] at ha
  have hle := Scalar.le_of_not_lt hnum (Scalar.isNaN_right_of_lt himproves) ha
  exact not_improves_of_le htol (Scalar.le_of_lt (Scalar.lt_of_lt_of_le himproves hle))

theorem IsValid.not_improves_consider {i : Incumbent α} (hi : i.IsValid) {objective a : α}
    (himproves : i.improves objective = true) (values : List α)
    (hnum : Scalar.isNaN a = false) (ha : i.improves a = false) :
    (i.consider objective values).improves a = false :=
  Incumbent.not_improves_consider hi.tol_nonneg himproves values hnum ha

end Incumbent

end BranchBound
