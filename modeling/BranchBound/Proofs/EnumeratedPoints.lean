import Mathlib.Data.List.Induction
import Mathlib.Data.List.Sections
import BranchBound.Enumeration.Knapsack
import BranchBound.Proofs.LawfulScalar

/-!
# Enumerated points

What an enumeration finds.  It visits every choice of one value for each variable, and
what it keeps is a feasible point among those visited on which no other one improves;
it keeps nothing only if none is feasible.  Of several such points it keeps the first.
-/

namespace BranchBound

variable {α : Type}

namespace Enumeration

/-! ## Spans -/

theorem saturate_eq {n : ℤ} (hmin : minInt ≤ n) (hmax : n ≤ maxInt) : saturate n = n := by
  rw [saturate, min_eq_right hmax, max_eq_right hmin]

namespace Span

/-- The last value of a span that has one. -/
def last (span : Span) : ℤ :=
  span.start + span.count - 1

/-- The integers of a span. -/
def integers (span : Span) : List ℤ :=
  (List.range span.count).map fun (i : ℕ) => span.start + i

theorem mem_integers {span : Span} {n : ℤ} :
    n ∈ span.integers ↔ span.start ≤ n ∧ n ≤ span.last := by
  simp only [integers, last, List.mem_map, List.mem_range]
  constructor
  · rintro ⟨i, hi, rfl⟩
    omega
  · rintro ⟨hfirst, hlast⟩
    exact ⟨(n - span.start).toNat, by omega, by omega⟩

theorem integers_succ (start : ℤ) (count : ℕ) :
    (Span.mk start (count + 1)).integers = start :: (Span.mk (start + 1) count).integers := by
  simp only [integers, List.range_succ_eq_map, List.map_cons, List.map_map, Nat.cast_zero,
    add_zero]
  apply congrArg (List.cons start)
  apply List.map_congr_left
  intro i _
  simp only [Function.comp_apply, Nat.cast_succ]
  omega

theorem values_eq_map [Scalar α] (span : Span) :
    (span.values : List α) = span.integers.map Scalar.ofInt := by
  rw [values, integers, List.map_map]
  rfl

end Span

/-! ## Visited points -/

/-- The points that are visited, in the order of the visits. -/
def points : List (List α) → (later : List α) → List (List α)
  | [], later => [later]
  | values :: earlier, later => values.flatMap fun value => points earlier (value :: later)

theorem foldPoints_eq_foldl
    {β : Type} (visit : β → List α → β) (choices : List (List α)) (later : List α) (state : β) :
    foldPoints visit choices later state = (points choices later).foldl visit state := by
  induction choices generalizing later state with
  | nil => rfl
  | cons values earlier ih =>
      simp only [foldPoints, points, ih]
      rw [List.foldl_flatMap]

theorem points_concat (choices : List (List α)) (values : List α) (later : List α) :
    points (choices ++ [values]) later =
      (points choices later).flatMap fun x => values.map (· :: x) := by
  induction choices generalizing later with
  | nil =>
      rw [List.nil_append, points, points, List.flatMap_singleton]
      exact List.flatMap_pure_eq_map _ _
  | cons options choices ih =>
      rw [List.cons_append, points, points, List.flatMap_assoc]
      apply List.flatMap_congr
      intro value _
      exact ih _

/-- The visited points of a box are the choices of one value for each variable. -/
theorem points_reverse (choices : List (List α)) :
    points choices.reverse [] = choices.sections := by
  induction choices with
  | nil => rfl
  | cons values choices ih => rw [List.reverse_cons, points_concat, ih, List.sections]

theorem mem_points_reverse
    {choices : List (List α)} {x : List α} :
    x ∈ points choices.reverse [] ↔ List.Forall₂ (· ∈ ·) x choices := by
  rw [points_reverse, List.mem_sections]

theorem sections_map {β : Type} (f : α → β) (choices : List (List α)) :
    (choices.map (List.map f)).sections = choices.sections.map (List.map f) := by
  induction choices with
  | nil => rfl
  | cons values choices ih =>
      simp only [List.map_cons, List.sections, ih, List.flatMap_map, List.map_flatMap,
        List.map_map, Function.comp_def]

theorem flatMap_filter {β : Type} (admits : α → Bool) (f : α → List β) (values : List α) :
    (values.filter admits).flatMap f =
      values.flatMap fun a => if admits a = true then f a else [] := by
  induction values with
  | nil => rfl
  | cons a values ih =>
      rw [List.flatMap_cons, ← ih, List.filter_cons]
      split
      · exact List.flatMap_cons
      · rfl

/-- Choices of admitted values are the choices with admitted values only. -/
theorem sections_zipWith_filter
    {β : Type} (admits : β → α → Bool) {bounds : List β} {choices : List (List α)}
    (h : bounds.length = choices.length) :
    (List.zipWith (fun b values => values.filter (admits b)) bounds choices).sections =
      choices.sections.filter fun x => (List.zipWith admits bounds x).all id := by
  induction choices generalizing bounds with
  | nil =>
      obtain rfl := List.length_eq_zero_iff.mp h
      rfl
  | cons values choices ih =>
      obtain ⟨b, bounds, rfl⟩ := List.exists_cons_of_length_eq_add_one h
      rw [List.zipWith_cons_cons, List.sections, ih (Nat.succ.inj h), flatMap_filter, List.sections,
        List.filter_flatMap]
      apply List.flatMap_congr
      intro x _
      rw [List.filter_map]
      simp only [Function.comp_def, List.zipWith_cons_cons, List.all_cons, id]
      split
      next hx => simp only [hx, Bool.and_true]
      next hx => simp [hx]

/-! ## The point that is kept -/

variable [Scalar α]

/-- The best of some points and its objective, or nothing if none of them is feasible. -/
def IsBest (isFeasible : List α → Bool) (objective : List α → α) (visited : List (List α)) :
    Option (α × List α) → Prop
  | none => ∀ y ∈ visited, isFeasible y = false
  | some (least, x) => x ∈ visited ∧ isFeasible x = true ∧ least = objective x ∧
      ∀ y ∈ visited, isFeasible y = true → ¬objective y < least

variable [LawfulScalar α] {isFeasible : List α → Bool} {objective : List α → α}
  {visited : List (List α)} {best : Option (α × List α)}

/-- One more visit. -/
theorem IsBest.keepBetter
    (h : IsBest isFeasible objective visited best) (x : List α) :
    IsBest isFeasible objective (visited ++ [x])
      (keepBetter isFeasible objective best x) := by
  unfold Enumeration.keepBetter
  by_cases hx : isFeasible x = true
  · rw [if_pos hx]
    rcases best with _ | ⟨least, z⟩
    · refine ⟨by simp, hx, rfl, ?_⟩
      rw [List.forall_mem_append, List.forall_mem_singleton]
      constructor
      · intro y hy hfeasible
        rw [h y hy] at hfeasible
        cases hfeasible
      · intro _
        exact Scalar.lt_irrefl _
    · obtain ⟨hz, hzfeasible, hleast, hmin⟩ := h
      by_cases hlt : objective x < least
      · simp only [if_pos hlt]
        refine ⟨by simp, hx, rfl, ?_⟩
        rw [List.forall_mem_append, List.forall_mem_singleton]
        constructor
        · intro y hy hfeasible hbelow
          exact hmin y hy hfeasible (Scalar.lt_trans hbelow hlt)
        · intro _
          exact Scalar.lt_irrefl _
      · simp only [if_neg hlt]
        refine ⟨List.mem_append_left _ hz, hzfeasible, hleast, ?_⟩
        rw [List.forall_mem_append, List.forall_mem_singleton]
        exact ⟨hmin, fun _ => hlt⟩
  · rw [if_neg hx]
    rcases best with _ | ⟨least, z⟩
    · simp only [IsBest]
      rw [List.forall_mem_append, List.forall_mem_singleton]
      exact ⟨h, Bool.not_eq_true _ ▸ hx⟩
    · obtain ⟨hz, hzfeasible, hleast, hmin⟩ := h
      refine ⟨List.mem_append_left _ hz, hzfeasible, hleast, ?_⟩
      rw [List.forall_mem_append, List.forall_mem_singleton]
      exact ⟨hmin, fun hfeasible => absurd hfeasible hx⟩

/-- All visits. -/
theorem isBest_foldl (visited : List (List α)) :
    IsBest isFeasible objective visited
      (visited.foldl (Enumeration.keepBetter isFeasible objective) none) := by
  induction visited using List.reverseRecOn with
  | nil =>
      intro y hy
      cases hy
  | append_singleton visited x ih =>
      rw [List.foldl_append]
      exact ih.keepBetter x

/-- Feasible points that are visited before the one that is kept are worse. -/
theorem exists_before_of_foldl
    (hnumbers : ∀ y ∈ visited, isFeasible y = true → Scalar.isNaN (objective y) = false)
    {least : α} {x : List α}
    (h : visited.foldl (Enumeration.keepBetter isFeasible objective) none = some (least, x)) :
    ∃ before after, visited = before ++ x :: after ∧
      ∀ y ∈ before, isFeasible y = true → least < objective y := by
  induction visited using List.reverseRecOn generalizing least x with
  | nil => cases h
  | append_singleton visited z ih =>
      rw [List.forall_mem_append] at hnumbers
      have hkept : visited.foldl (Enumeration.keepBetter isFeasible objective) none =
            some (least, x) →
          ∃ before after, visited ++ [z] = before ++ x :: after ∧
            ∀ y ∈ before, isFeasible y = true → least < objective y := by
        intro hold
        obtain ⟨before, after, hsplit, hbefore⟩ := ih hnumbers.1 hold
        exact ⟨before, after ++ [z], by simp [hsplit], hbefore⟩
      have hbest : IsBest isFeasible objective visited _ := isBest_foldl visited
      rw [List.foldl_append, List.foldl_cons, List.foldl_nil, Enumeration.keepBetter] at h
      by_cases hz : isFeasible z = true
      · rw [if_pos hz] at h
        rcases hfold : visited.foldl (Enumeration.keepBetter isFeasible objective) none with
          _ | ⟨old, z'⟩
        · rw [hfold] at h hbest
          obtain ⟨rfl, rfl⟩ := Prod.mk.inj (Option.some.inj h)
          refine ⟨visited, [], rfl, ?_⟩
          intro y hy hfeasible
          rw [hbest y hy] at hfeasible
          cases hfeasible
        · rw [hfold] at h hbest hkept
          by_cases hlt : objective z < old
          · simp only [if_pos hlt] at h
            obtain ⟨rfl, rfl⟩ := Prod.mk.inj (Option.some.inj h)
            refine ⟨visited, [], rfl, ?_⟩
            intro y hy hfeasible
            have hle := Scalar.le_of_not_lt (hnumbers.1 y hy hfeasible)
              (Scalar.isNaN_right_of_lt hlt) (hbest.2.2.2 y hy hfeasible)
            exact Scalar.lt_of_lt_of_le hlt hle
          · simp only [if_neg hlt] at h
            exact hkept h
      · rw [if_neg hz] at h
        exact hkept h

theorem isBest_foldPoints (choices : List (List α)) (later : List α) :
    IsBest isFeasible objective (points choices later)
      (foldPoints (Enumeration.keepBetter isFeasible objective) choices later none) := by
  rw [foldPoints_eq_foldl]
  exact isBest_foldl _

end Enumeration

end BranchBound
