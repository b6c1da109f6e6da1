import BranchBound.Model
import BranchBound.Proofs.LawfulScalar

/-!
# Points with the same values

The two zeros of a number system with signed zeros are different scalars with one value, so
that a point can have several spellings.  They are feasible for the same tolerances, and the
values of their objectives are the same, since comparisons and operations see values only.
-/

namespace BranchBound

variable {α : Type} [Scalar α] [LawfulScalar α]

namespace Scalar

variable {a a' b b' : α}

theorem le_congr (ha : value a = value a') (hb : value b = value b') : a ≤ b ↔ a' ≤ b' := by
  rw [LawfulScalar.le_iff_value, LawfulScalar.le_iff_value a', ha, hb]

theorem lt_congr (ha : value a = value a') (hb : value b = value b') : a < b ↔ a' < b' := by
  rw [LawfulScalar.lt_iff_value, LawfulScalar.lt_iff_value a', ha, hb]

theorem value_add_mul_congr {c : α} (ha : value a = value a') (hb : value b = value b') :
    value (a + c * b) = value (a' + c * b') := by
  rw [LawfulScalar.value_add, LawfulScalar.value_add a', LawfulScalar.value_mul,
    LawfulScalar.value_mul c b', ha, hb]

theorem value_dotFrom_congr {total total' : α} (costs : List α) {x y : List α}
    (htotal : value total = value total') (h : x.map value = y.map value) :
    value (dotFrom total costs x) = value (dotFrom total' costs y) := by
  induction costs generalizing total total' x y with
  | nil => exact htotal
  | cons c costs ih =>
      rcases x with _ | ⟨a, x⟩
      · obtain rfl := List.map_eq_nil_iff.mp h.symm
        exact htotal
      · obtain ⟨b, y, rfl, hb, hy⟩ := List.map_eq_cons_iff.mp h.symm
        exact ih (value_add_mul_congr htotal hb.symm) hy.symm

end Scalar

theorem Constraint.activityFrom?_congr
    {coordinate coordinate' : ℕ → Option α}
    (h : ∀ j, (coordinate j).map Scalar.value = (coordinate' j).map Scalar.value)
    (terms : List (ℕ × α)) {total total' : α} (htotal : Scalar.value total = Scalar.value total') :
    (activityFrom? coordinate terms total).map Scalar.value =
      (activityFrom? coordinate' terms total').map Scalar.value := by
  induction terms generalizing total total' with
  | nil => exact congrArg some htotal
  | cons term terms ih =>
      obtain ⟨j, a⟩ := term
      have hj := h j
      rcases hx : coordinate j with _ | x <;> rcases hy : coordinate' j with _ | y
      · simp only [activityFrom?, hx, hy]
      · simp [hx, hy] at hj
      · simp [hx, hy] at hj
      · rw [hx, hy] at hj
        simp only [activityFrom?, hx, hy]
        exact ih (Scalar.value_add_mul_congr htotal (Option.some.inj hj))

theorem Constraint.admits_congr
    (c : Constraint α) {a a' : α} (h : Scalar.value a = Scalar.value a') (tol : α) :
    c.admits a tol = c.admits a' tol := by
  have hdistance : Scalar.value (Scalar.abs (a - c.rhs)) =
      Scalar.value (Scalar.abs (a' - c.rhs)) := by
    rw [LawfulScalar.value_abs, LawfulScalar.value_abs (a' - _), LawfulScalar.value_sub,
      LawfulScalar.value_sub a', h]
  rw [admits, admits]
  cases c.sense with
  | le => exact decide_eq_decide.mpr (Scalar.le_congr h rfl)
  | ge => exact decide_eq_decide.mpr (Scalar.le_congr rfl h)
  | eq => exact decide_eq_decide.mpr (Scalar.le_congr hdistance rfl)

theorem Domain.contains_congr
    (d : Domain α) {x y : List α} (h : x.map Scalar.value = y.map Scalar.value) (tol : α) :
    d.contains x tol = d.contains y tol := by
  have hlength : x.length = y.length := by simpa using congrArg List.length h
  rw [contains, contains, hlength]
  apply congrArg
  clear hlength
  generalize d.intervals = intervals
  induction intervals generalizing x y with
  | nil => rfl
  | cons i intervals ih =>
      rcases x with _ | ⟨a, x⟩
      · obtain rfl := List.map_eq_nil_iff.mp h.symm
        rfl
      · obtain ⟨b, y, rfl, hb, hy⟩ := List.map_eq_cons_iff.mp h.symm
        have hcontains : i.contains a tol = i.contains b tol := by
          rw [Interval.contains, Interval.contains,
            decide_eq_decide.mpr (Scalar.le_congr rfl hb.symm),
            decide_eq_decide.mpr (Scalar.le_congr hb.symm rfl)]
        rw [List.zipWith_cons_cons, List.zipWith_cons_cons, List.all_cons, List.all_cons,
          ih hy.symm, hcontains]

namespace LinearModel

variable {m : LinearModel α} {x y : List α}

theorem value_objectiveValue_congr (h : x.map Scalar.value = y.map Scalar.value) :
    Scalar.value (m.objectiveValue x) = Scalar.value (m.objectiveValue y) :=
  Scalar.value_dotFrom_congr m.objective rfl h

theorem satisfiesRows_congr (h : x.map Scalar.value = y.map Scalar.value) (tol : α) :
    m.satisfiesRows x tol = m.satisfiesRows y tol := by
  have hcoordinates : ∀ j : ℕ, (x[j]?).map Scalar.value = (y[j]?).map Scalar.value := by
    intro j
    rw [← List.getElem?_map, ← List.getElem?_map, h]
  rw [satisfiesRows, satisfiesRows]
  apply List.all_congr rfl
  intro c
  have hactivity : (c.activity? fun j => x[j]?).map Scalar.value =
      (c.activity? fun j => y[j]?).map Scalar.value :=
    Constraint.activityFrom?_congr hcoordinates c.terms rfl
  simp only [satisfies, List.getElem?_toArray]
  rcases hx : c.activity? fun j => x[j]? with _ | a <;>
    rcases hy : c.activity? fun j => y[j]? with _ | b
  · rfl
  · simp [hx, hy] at hactivity
  · simp [hx, hy] at hactivity
  · rw [hx, hy] at hactivity
    exact c.admits_congr (Option.some.inj hactivity) tol

theorem isFeasible_congr (h : x.map Scalar.value = y.map Scalar.value) (tol : α) :
    m.isFeasible x tol = m.isFeasible y tol := by
  have hlength : x.length = y.length := by simpa using congrArg List.length h
  rw [isFeasible, isFeasible, hlength, m.rootDomain.contains_congr h, satisfiesRows_congr h]

end LinearModel

end BranchBound
