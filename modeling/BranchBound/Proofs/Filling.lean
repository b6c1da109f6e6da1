import Mathlib.Algebra.Order.Field.Basic
import BranchBound.Relaxation.Knapsack
import BranchBound.Proofs.RationalPoints

/-!
# Filling a knapsack

Filling the items of a knapsack in order of cost per weight, in exact arithmetic, with
positive integer weights and integer bounds.  The filling stops at a *price*, a cost per
weight such that items below it are full and items above it are untouched.

Only the last item that is filled can become fractional, and what remains is a natural
number until then.  So the slack of the test for something left decides as an exact test
would.
-/

namespace BranchBound

open Finset

/-! ## The order of the items -/

namespace Knapsack

variable {α : Type} [Scalar α] [LawfulScalar α]

instance (k : Knapsack α) : Std.TransCmp k.compareRatio where
  eq_swap {i j} := by
    unfold compareRatio
    cases k.isIndefinite i <;> cases k.isIndefinite j
    · exact (LawfulScalar.order_swap _ _).symm
    all_goals rfl
  isLE_trans {i j m} := by
    unfold compareRatio
    cases k.isIndefinite i <;> cases k.isIndefinite j <;> cases k.isIndefinite m
    · exact LawfulScalar.order_trans
    all_goals simp

/-- Items are filled by increasing ratio. -/
theorem fillingOrder_pairwise (k : Knapsack α) :
    k.fillingOrder.Pairwise fun i j => (k.compareRatio i j).isLE = true := by
  have htrans : ∀ i j m, (compareLex k.compareRatio compare i j).isLE = true →
      (compareLex k.compareRatio compare j m).isLE = true →
      (compareLex k.compareRatio compare i m).isLE = true := by
    intro i j m
    exact Std.TransCmp.isLE_trans
  have htotal : ∀ i j, ((compareLex k.compareRatio compare i j).isLE ||
      (compareLex k.compareRatio compare j i).isLE) = true := by
    intro i j
    have hswap : compareLex k.compareRatio compare j i =
        (compareLex k.compareRatio compare i j).swap := Std.OrientedCmp.eq_swap
    rw [hswap]
    cases compareLex k.compareRatio compare i j <;> rfl
  have hsorted := List.pairwise_mergeSort htrans htotal (List.range k.costs.length)
  apply hsorted.imp
  intro i j hij
  rcases Ordering.isLE_then_iff_or.mp hij with hlt | ⟨heq, -⟩
  · rw [hlt]
    rfl
  · rw [heq]
    rfl

omit [LawfulScalar α] in
theorem fillingOrder_perm (k : Knapsack α) :
    k.fillingOrder.Perm (List.range k.costs.length) :=
  List.mergeSort_perm _ _

end Knapsack

/-! ## Knapsacks with integer weights -/

/-- A knapsack with rational costs, positive integer weights and an integer capacity. -/
structure IntegralKnapsack where
  n : ℕ
  costs : ℕ → ℚ
  weights : ℕ → ℤ
  capacity : ℤ
  equality : Bool
  weights_pos : ∀ i < n, 0 < weights i

namespace IntegralKnapsack

open Exact

/-- The knapsack in exact arithmetic. -/
def toKnapsack (k : IntegralKnapsack) : Knapsack Exact where
  costs := tuple k.n k.costs
  weights := tuple k.n fun i => k.weights i
  capacity := .finite k.capacity
  equality := k.equality

variable (k : IntegralKnapsack) {l u : ℕ → ℤ} {x : ℕ → ℚ}

theorem weight_pos {i : ℕ} (hi : i < k.n) : (0 : ℚ) < k.weights i := by
  exact_mod_cast k.weights_pos i hi

theorem ratio_eq {i : ℕ} (hi : i < k.n) :
    k.toKnapsack.ratio i = .finite (k.costs i / k.weights i) := by
  have hcost : k.toKnapsack.costs.getD i (Scalar.ofInt 0) = .finite (k.costs i) := by
    rw [List.getD_eq_getElem?_getD]
    simp only [toKnapsack, getElem?_tuple_of_lt hi, Option.getD_some]
  have hweight : k.toKnapsack.weights.getD i (Scalar.ofInt 0) = .finite (k.weights i) := by
    rw [List.getD_eq_getElem?_getD]
    simp only [toKnapsack, getElem?_tuple_of_lt hi, Option.getD_some]
  rw [Knapsack.ratio, hcost, hweight, finite_div_finite _ (k.weight_pos hi).ne']

/-- The items by increasing cost per weight, each of them once. -/
theorem fillingOrder_sorted :
    k.toKnapsack.fillingOrder.Nodup ∧
      (∀ i, i ∈ k.toKnapsack.fillingOrder ↔ i < k.n) ∧
      k.toKnapsack.fillingOrder.Pairwise fun i j =>
        k.costs i / k.weights i ≤ k.costs j / k.weights j := by
  have hperm := k.toKnapsack.fillingOrder_perm
  have hlength : k.toKnapsack.costs.length = k.n := length_tuple _ _
  rw [hlength] at hperm
  have hmem : ∀ i, i ∈ k.toKnapsack.fillingOrder ↔ i < k.n := by
    intro i
    rw [hperm.mem_iff, List.mem_range]
  refine ⟨hperm.nodup_iff.mpr List.nodup_range, hmem, ?_⟩
  apply k.toKnapsack.fillingOrder_pairwise.imp_of_mem
  intro i j hi hj hij
  rw [hmem] at hi hj
  have hdefinite : ∀ m < k.n, k.toKnapsack.isIndefinite m = false := by
    intro m hm
    rw [Knapsack.isIndefinite, k.ratio_eq hm]
    rfl
  rw [Knapsack.compareRatio, hdefinite i hi, hdefinite j hj, k.ratio_eq hi, k.ratio_eq hj]
    at hij
  rcases (order_isLE_iff _ _).mp hij with hundefined | ⟨-, hle⟩
  · cases hundefined
  · exact (le_iff_level _ _).mpr ⟨by simp, by simp, hle⟩

/-! ## One item -/

/-- The box between two integer points. -/
def grid (k : IntegralKnapsack) (l u : ℕ → ℤ) : Domain Exact :=
  box k.n (fun i => l i) (fun i => u i)

/-- What the knapsack does with one item. -/
theorem fill_cons
    {i : ℕ} (hi : i < k.n) (rest : List ℕ) (l u : ℕ → ℤ) (x : ℕ → ℚ) (left : ℚ) :
    k.toKnapsack.fill (k.grid l u) (i :: rest) (tuple k.n x) (.finite left) =
      if left ≤ 1 / 10 ^ 12 then .ok (tuple k.n x, .finite left)
      else if (k.equality = false ∧ 0 ≤ k.costs i) ∨ u i ≤ x i then
        k.toKnapsack.fill (k.grid l u) rest (tuple k.n x) (.finite left)
      else k.toKnapsack.fill (k.grid l u) rest
        (tuple k.n (Function.update x i (x i + min (u i - x i) (left / k.weights i))))
        (.finite (left - min (u i - x i) (left / k.weights i) * k.weights i)) := by
  have hslack : (Scalar.decimal 1 12 : Exact) = .finite (1 / 10 ^ 12) := by decide +kernel
  have hzero : (Scalar.ofInt 0 : Exact) = .finite 0 := rfl
  have hinterval : (k.grid l u).get? i = some ⟨.finite (l i), .finite (u i)⟩ :=
    get?_box_eq_some.mpr ⟨hi, rfl⟩
  have hcost : k.toKnapsack.costs[i]? = some (.finite (k.costs i)) :=
    getElem?_tuple_of_lt hi _
  have hweight : k.toKnapsack.weights[i]? = some (.finite (k.weights i)) :=
    getElem?_tuple_of_lt hi _
  have hequality : k.toKnapsack.equality = k.equality := rfl
  rw [Knapsack.fill]
  simp only [hslack, hzero, hinterval, hcost, hweight, hequality, getElem?_tuple_of_lt hi,
    finite_le_finite, finite_sub_finite, Option.any_some, sub_nonpos,
    finite_div_finite _ (k.weight_pos hi).ne', minimum_finite, finite_mul_finite,
    finite_add_finite, set_tuple]
  by_cases hleft : left ≤ 1 / 10 ^ 12
  · rw [if_pos hleft, if_pos hleft]
  · rw [if_neg hleft, if_neg hleft]
    by_cases hskip : k.equality = false ∧ 0 ≤ k.costs i
    · rw [if_pos (by simp [hskip]), if_pos (Or.inl hskip)]
    · rw [if_neg (by simpa using hskip)]
      by_cases hfull : (u i : ℚ) ≤ x i
      · rw [if_pos hfull, if_pos (Or.inr hfull)]
      · rw [if_neg hfull, if_neg (by tauto)]

theorem fill_zero (order : List ℕ) (l u : ℕ → ℤ) (x : ℕ → ℚ) :
    k.toKnapsack.fill (k.grid l u) order (tuple k.n x) (.finite 0) =
      .ok (tuple k.n x, .finite 0) := by
  have hslack : (Exact.finite 0 : Exact) ≤ Scalar.decimal 1 12 := by decide +kernel
  cases order with
  | nil => rfl
  | cons i rest => rw [Knapsack.fill, if_pos hslack]

/-! ## All items -/

/-- The slack of the test for something left is less than one. -/
theorem slack_lt_cast {left : ℕ} (hleft : 0 < left) : (1 / 10 ^ 12 : ℚ) < left := by
  have hone : (1 : ℚ) ≤ left := by exact_mod_cast hleft
  norm_num
  linarith

/-- What filling some items of a box leads to, from the point `x` and what is left there,
at a price that is not below a given one. -/
structure Filling (l u : ℕ → ℤ) (order : List ℕ) (x : ℕ → ℚ) (left : ℕ) (least : ℚ)
    (filled : ℕ → ℚ) (unused : ℕ) (price : ℚ) : Prop where
  result : k.toKnapsack.fill (k.grid l u) order (tuple k.n x) (.finite left) =
    .ok (tuple k.n filled, .finite unused)
  unchanged : ∀ j, j ∉ order → filled j = x j
  inside : ∀ j ∈ order, (l j : ℚ) ≤ filled j ∧ filled j ≤ u j
  load : ∑ j ∈ range k.n, (k.weights j : ℚ) * filled j + unused =
    ∑ j ∈ range k.n, (k.weights j : ℚ) * x j + left
  weight_integral : ∀ j ∈ order, ∃ m : ℤ, (k.weights j : ℚ) * filled j = m
  one_fractional : ∀ i ∈ order, ∀ j ∈ order, i ≠ j →
    (∃ m : ℤ, filled i = m) ∨ ∃ m : ℤ, filled j = m
  full : k.equality = true → unused ≠ 0 → ∀ j ∈ order, filled j = u j
  least_le : least ≤ price
  high : ∀ j ∈ order, filled j < u j → price * k.weights j ≤ k.costs j
  low : ∀ j ∈ order, (l j : ℚ) < filled j → k.costs j ≤ price * k.weights j
  nonpos : k.equality = false → price ≤ 0
  slack : k.equality = false → unused = 0 ∨ price = 0

/-- Items at their lower bounds, when nothing is left or none of them is worth filling. -/
theorem Filling.of_unchanged
    {k : IntegralKnapsack} {order : List ℕ} {left : ℕ} {least price : ℚ}
    (hresult : k.toKnapsack.fill (k.grid l u) order (tuple k.n x) (.finite left) =
      .ok (tuple k.n x, .finite left))
    (hlu : ∀ j ∈ order, l j ≤ u j) (hx : ∀ j ∈ order, x j = l j)
    (hfull : left ≠ 0 → order = []) (hleast : least ≤ price)
    (hhigh : ∀ j ∈ order, price * k.weights j ≤ k.costs j)
    (hnonpos : k.equality = false → price ≤ 0)
    (hslack : k.equality = false → left = 0 ∨ price = 0) :
    k.Filling l u order x left least x left price where
  result := hresult
  unchanged j _ := rfl
  inside j hj := by
    rw [hx j hj]
    exact ⟨le_rfl, by exact_mod_cast hlu j hj⟩
  load := rfl
  weight_integral j hj := by
    refine ⟨k.weights j * l j, ?_⟩
    rw [hx j hj]
    push_cast
    ring
  one_fractional i hi _ _ _ := Or.inl ⟨l i, hx i hi⟩
  full _ hleft j hj := by
    rw [hfull hleft] at hj
    cases hj
  least_le := hleast
  high j hj _ := hhigh j hj
  low j hj hlt := by
    rw [hx j hj] at hlt
    exact absurd hlt (lt_irrefl _)
  nonpos := hnonpos
  slack := hslack

/-- One more item, which keeps the value it has before the others are filled. -/
theorem Filling.cons
    {k : IntegralKnapsack} {i : ℕ} {order : List ℕ} {x₀ filled : ℕ → ℚ} {left left₀ unused : ℕ}
    {least least₀ price : ℚ} (h : k.Filling l u order x left least filled unused price)
    (hi : i ∉ order)
    (hresult : k.toKnapsack.fill (k.grid l u) (i :: order) (tuple k.n x₀) (.finite left₀) =
      k.toKnapsack.fill (k.grid l u) order (tuple k.n x) (.finite left))
    (hunchanged : ∀ j, j ≠ i → x j = x₀ j)
    (hload : ∑ j ∈ range k.n, (k.weights j : ℚ) * x j + left =
      ∑ j ∈ range k.n, (k.weights j : ℚ) * x₀ j + left₀)
    (hinside : (l i : ℚ) ≤ x i ∧ x i ≤ u i) (hintegral : ∃ m : ℤ, x i = m)
    (hfull : k.equality = true → x i = u i) (hleast : least₀ ≤ price)
    (hhigh : x i < u i → price * k.weights i ≤ k.costs i)
    (hlow : (l i : ℚ) < x i → k.costs i ≤ price * k.weights i) :
    k.Filling l u (i :: order) x₀ left₀ least₀ filled unused price := by
  have hxi : filled i = x i := h.unchanged i hi
  obtain ⟨m, hm⟩ := hintegral
  refine
    { result := hresult.trans h.result
      unchanged := ?_
      inside := ?_
      load := h.load.trans hload
      weight_integral := ?_
      one_fractional := ?_
      full := ?_
      least_le := hleast
      high := ?_
      low := ?_
      nonpos := h.nonpos
      slack := h.slack }
  · intro j hj
    rw [List.mem_cons, not_or] at hj
    rw [h.unchanged j hj.2, hunchanged j hj.1]
  · rw [List.forall_mem_cons, hxi]
    exact ⟨hinside, h.inside⟩
  · rw [List.forall_mem_cons, hxi, hm]
    exact ⟨⟨k.weights i * m, by push_cast; ring⟩, h.weight_integral⟩
  · intro a ha b hb hab
    rcases List.mem_cons.mp ha with rfl | ha
    · exact Or.inl ⟨m, hxi.trans hm⟩
    · rcases List.mem_cons.mp hb with rfl | hb
      · exact Or.inr ⟨m, hxi.trans hm⟩
      · exact h.one_fractional a ha b hb hab
  · intro hequality hunused
    rw [List.forall_mem_cons, hxi]
    exact ⟨hfull hequality, h.full hequality hunused⟩
  · rw [List.forall_mem_cons, hxi]
    exact ⟨hhigh, h.high⟩
  · rw [List.forall_mem_cons, hxi]
    exact ⟨hlow, h.low⟩

section Step

variable {k} {i : ℕ} {order : List ℕ} {filled : ℕ → ℚ} {left unused : ℕ} {least price : ℚ}
  (hi : i < k.n) (hfresh : i ∉ order) (hlu : l i ≤ u i) (hx : x i = l i) (hleft : 0 < left)

include hi hfresh hlu hx hleft

/-- An item that is not worth filling, or is full from the start, is passed over. -/
theorem Filling.skip
    (h : k.Filling l u order x left least filled unused price)
    (hskip : (k.equality = false ∧ 0 ≤ k.costs i) ∨ u i ≤ l i) :
    k.Filling l u (i :: order) x left least filled unused price := by
  have hpass : (k.equality = false ∧ 0 ≤ k.costs i) ∨ (u i : ℚ) ≤ x i := by
    rw [hx]
    exact_mod_cast hskip
  have hfill := k.fill_cons hi order l u x left
  rw [if_neg (not_le.mpr (slack_lt_cast hleft)), if_pos hpass] at hfill
  refine h.cons hfresh hfill (fun _ _ => rfl) rfl ?_ ⟨l i, hx⟩ ?_ h.least_le ?_ ?_
  · rw [hx]
    exact ⟨le_rfl, by exact_mod_cast hlu⟩
  · intro hequality
    rcases hskip with ⟨hpacking, -⟩ | hfull
    · rw [hequality] at hpacking
      cases hpacking
    · rw [hx, le_antisymm hlu hfull]
  · intro hroom
    rcases hpass with ⟨hpacking, hcost⟩ | hfull
    · have hproduct := mul_nonpos_of_nonpos_of_nonneg (h.nonpos hpacking) (k.weight_pos hi).le
      linarith
    · exact absurd hroom (not_lt.mpr hfull)
  · intro hgrown
    rw [hx] at hgrown
    exact absurd hgrown (lt_irrefl _)

/-- An item that fits into what is left is filled. -/
theorem Filling.fillUp
    (h : k.Filling l u order (Function.update x i (u i))
      (left - (u i - l i) * k.weights i).toNat (k.costs i / k.weights i) filled unused price)
    (hworth : ¬(k.equality = false ∧ 0 ≤ k.costs i)) (hroom : l i < u i)
    (hfits : (u i - l i) * k.weights i ≤ left) (hleast : least * k.weights i ≤ k.costs i) :
    k.Filling l u (i :: order) x left least filled unused price := by
  have hweight := k.weight_pos hi
  have hmin : min (u i - l i : ℚ) (left / k.weights i) = u i - l i := by
    apply min_eq_left
    rw [le_div_iff₀ hweight]
    exact_mod_cast hfits
  have hremains : (left : ℚ) - (u i - l i) * k.weights i =
      ((left - (u i - l i) * k.weights i).toNat : ℕ) := by
    have hcast : (((left - (u i - l i) * k.weights i).toNat : ℤ) : ℚ) =
        ((left - (u i - l i) * k.weights i : ℤ) : ℚ) := by
      rw [Int.toNat_of_nonneg (by linarith)]
    push_cast at hcast
    exact hcast.symm
  have hfill := k.fill_cons hi order l u x left
  rw [if_neg (not_le.mpr (slack_lt_cast hleft)), hx,
    if_neg (not_or.mpr ⟨hworth, not_le.mpr (by exact_mod_cast hroom)⟩), hmin, add_sub_cancel,
    hremains] at hfill
  refine h.cons hfresh hfill (fun j hj => Function.update_of_ne hj _ _) ?_ ?_ ⟨u i, ?_⟩ ?_ ?_ ?_ ?_
  · rw [sum_mul_update hi, ← hremains, hx]
    ring
  · rw [Function.update_self]
    exact ⟨by exact_mod_cast hlu, le_rfl⟩
  · rw [Function.update_self]
  · intro _
    rw [Function.update_self]
  · exact ((le_div_iff₀ hweight).mpr hleast).trans h.least_le
  · rw [Function.update_self]
    intro hbelow
    exact absurd hbelow (lt_irrefl _)
  · intro _
    rw [← div_le_iff₀ hweight]
    exact h.least_le

/-- An item that does not fit takes all that is left, and sets the price. -/
theorem Filling.spend
    (hxs : ∀ j ∈ order, x j = l j) (hlus : ∀ j ∈ order, l j ≤ u j)
    (hworth : ¬(k.equality = false ∧ 0 ≤ k.costs i)) (hroom : l i < u i)
    (hexceeds : left < (u i - l i) * k.weights i) (hleast : least * k.weights i ≤ k.costs i)
    (hrest : ∀ j ∈ order, k.costs i / k.weights i * k.weights j ≤ k.costs j)
    (hnonpos : k.equality = false → k.costs i / k.weights i ≤ 0) :
    k.Filling l u (i :: order) x left least
      (Function.update x i (l i + left / k.weights i)) 0 (k.costs i / k.weights i) := by
  have hweight := k.weight_pos hi
  have hshort : (left : ℚ) / k.weights i < u i - l i := by
    rw [div_lt_iff₀ hweight]
    exact_mod_cast hexceeds
  have htaken : (0 : ℚ) < left / k.weights i := div_pos (by exact_mod_cast hleft) hweight
  have hvalue := Function.update_self i ((l i : ℚ) + left / k.weights i) x
  have hother : ∀ j ∈ order, Function.update x i ((l i : ℚ) + left / k.weights i) j = l j := by
    intro j hj
    rw [Function.update_of_ne (ne_of_mem_of_not_mem hj hfresh), hxs j hj]
  have hfill := k.fill_cons hi order l u x left
  rw [if_neg (not_le.mpr (slack_lt_cast hleft)), hx,
    if_neg (not_or.mpr ⟨hworth, not_le.mpr (by exact_mod_cast hroom)⟩),
    min_eq_right hshort.le, div_mul_cancel₀ _ hweight.ne', sub_self, fill_zero] at hfill
  exact
    { result := by
        rw [hfill, Nat.cast_zero]
      unchanged := by
        intro j hj
        rw [List.mem_cons, not_or] at hj
        exact Function.update_of_ne hj.1 _ _
      inside := by
        rw [List.forall_mem_cons, hvalue]
        refine ⟨⟨by linarith, by linarith⟩, ?_⟩
        intro j hj
        rw [hother j hj]
        exact ⟨le_rfl, by exact_mod_cast hlus j hj⟩
      load := by
        rw [sum_mul_update hi, hx, add_sub_cancel_left, mul_div_cancel₀ _ hweight.ne',
          Nat.cast_zero, add_zero]
      weight_integral := by
        rw [List.forall_mem_cons, hvalue]
        constructor
        · refine ⟨k.weights i * l i + left, ?_⟩
          rw [mul_add, mul_div_cancel₀ _ hweight.ne']
          push_cast
          ring
        · intro j hj
          refine ⟨k.weights j * l j, ?_⟩
          rw [hother j hj]
          push_cast
          ring
      one_fractional := by
        intro a ha b hb hab
        rcases List.mem_cons.mp ha with rfl | ha
        · right
          rcases List.mem_cons.mp hb with rfl | hb
          · exact absurd rfl hab
          · exact ⟨l b, hother b hb⟩
        · exact Or.inl ⟨l a, hother a ha⟩
      full := fun _ hunused => absurd rfl hunused
      least_le := (le_div_iff₀ hweight).mpr hleast
      high := by
        rw [List.forall_mem_cons, div_mul_cancel₀ _ hweight.ne']
        exact ⟨fun _ => le_rfl, fun j hj _ => hrest j hj⟩
      low := by
        rw [List.forall_mem_cons, div_mul_cancel₀ _ hweight.ne']
        refine ⟨fun _ => le_rfl, ?_⟩
        intro j hj hgrown
        rw [hother j hj] at hgrown
        exact absurd hgrown (lt_irrefl _)
      nonpos := hnonpos
      slack := fun _ => Or.inl rfl }

end Step

/-- Items at their lower bounds, taken by increasing cost per weight, are filled up to a
price. -/
theorem exists_filling
    {order : List ℕ} (hnodup : order.Nodup) (hlt : ∀ i ∈ order, i < k.n)
    (hsorted : order.Pairwise fun i j => k.costs i / k.weights i ≤ k.costs j / k.weights j)
    (hlu : ∀ i ∈ order, l i ≤ u i) (hx : ∀ i ∈ order, x i = l i) (left : ℕ) {least : ℚ}
    (hleast : ∀ i ∈ order, least * k.weights i ≤ k.costs i)
    (hnonpos : k.equality = false → least ≤ 0) :
    ∃ filled unused price, k.Filling l u order x left least filled unused price := by
  induction order generalizing x left least with
  | nil =>
      by_cases hfree : k.equality = false ∧ left ≠ 0
      · refine ⟨x, left, 0, .of_unchanged rfl hlu hx (fun _ => rfl) (hnonpos hfree.1) ?_
          (fun _ => le_rfl) (fun _ => Or.inr rfl)⟩
        intro j hj
        cases hj
      · refine ⟨x, left, least, .of_unchanged rfl hlu hx (fun _ => rfl) le_rfl hleast
          hnonpos ?_⟩
        intro hequality
        tauto
  | cons i order ih =>
      rcases Nat.eq_zero_or_pos left with rfl | hleft
      · exact ⟨x, 0, least, .of_unchanged (k.fill_zero _ l u x) hlu hx (absurd rfl) le_rfl
          hleast hnonpos (fun _ => Or.inl rfl)⟩
      rw [List.nodup_cons] at hnodup
      rw [List.pairwise_cons] at hsorted
      rw [List.forall_mem_cons] at hlt hlu hx hleast
      by_cases hskip : (k.equality = false ∧ 0 ≤ k.costs i) ∨ u i ≤ l i
      · obtain ⟨filled, unused, price, h⟩ :=
          ih hnodup.2 hlt.2 hsorted.2 hlu.2 hx.2 left hleast.2 hnonpos
        exact ⟨filled, unused, price, h.skip hlt.1 hnodup.1 hlu.1 hx.1 hleft hskip⟩
      rw [not_or, not_le] at hskip
      obtain ⟨hworth, hroom⟩ := hskip
      have hrest : ∀ j ∈ order, k.costs i / k.weights i * k.weights j ≤ k.costs j := by
        intro j hj
        rw [← le_div_iff₀ (k.weight_pos (hlt.2 j hj))]
        exact hsorted.1 j hj
      have hratio : k.equality = false → k.costs i / k.weights i ≤ 0 := by
        intro hpacking
        apply div_nonpos_of_nonpos_of_nonneg _ (k.weight_pos hlt.1).le
        by_contra hcost
        exact hworth ⟨hpacking, (not_le.mp hcost).le⟩
      rcases le_or_gt ((u i - l i) * k.weights i) left with hfits | hexceeds
      · have hx' : ∀ j ∈ order, Function.update x i (u i : ℚ) j = l j := by
          intro j hj
          rw [Function.update_of_ne (ne_of_mem_of_not_mem hj hnodup.1), hx.2 j hj]
        obtain ⟨filled, unused, price, h⟩ :=
          ih hnodup.2 hlt.2 hsorted.2 hlu.2 hx' _ hrest hratio
        exact ⟨filled, unused, price,
          h.fillUp hlt.1 hnodup.1 hlu.1 hx.1 hleft hworth hroom hfits hleast.1⟩
      · exact ⟨_, _, _, .spend hlt.1 hnodup.1 hlu.1 hx.1 hleft hx.2 hlu.2 hworth hroom
          hexceeds hleast.1 hrest hratio⟩

end IntegralKnapsack

end BranchBound
