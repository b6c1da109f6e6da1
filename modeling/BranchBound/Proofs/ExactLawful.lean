import BranchBound.Proofs.LawfulScalar

/-!
# Exact arithmetic is lawful

An exact scalar is its own value, and no exact result is ever rounded.
-/

namespace BranchBound
namespace Exact

@[simp] theorem value_eq (a : Exact) : Scalar.value a = a := by
  rcases a with _ | (_ | _) | r
  · rfl
  · rfl
  · rfl
  · rfl

@[simp] theorem rounded_eq (a : Exact) : Scalar.rounded Exact a = a := by
  rcases a with _ | n | r
  · rfl
  · rfl
  · exact value_eq (.finite r)

/-- Defined scalars are ranked by the strict comparison. -/
theorem order_of_ne_undefined {a b : Exact} (ha : a ≠ undefined) (hb : b ≠ undefined) :
    order a b = if a.level < b.level then .lt else if b.level < a.level then .gt else .eq := by
  have hab : a.lt b ↔ a.level < b.level := by
    exact (lt_iff_level a b).trans (by simp [ha, hb])
  have hba : b.lt a ↔ b.level < a.level := by
    exact (lt_iff_level b a).trans (by simp [ha, hb])
  rw [order]
  · simp only [hab, hba]
  all_goals simp_all

/-- A scalar is ranked at or before another one if the other one is undefined or
is not below it. -/
theorem order_isLE_iff (a b : Exact) :
    (order a b).isLE = true ↔ b = undefined ∨ a ≠ undefined ∧ a.level ≤ b.level := by
  by_cases hb : b = undefined
  · subst hb
    rcases a with _ | n | r <;> simp [order]
  · by_cases ha : a = undefined
    · subst ha
      rcases b with _ | n | r <;> simp_all [order]
    · rw [order_of_ne_undefined ha hb]
      rcases lt_trichotomy a.level b.level with h | h | h
      · simp [ha, h, h.le]
      · simp [ha, h]
      · simp [ha, hb, h, h.not_gt, h.not_ge]

theorem order_eq_lt_of_lt {a b : Exact} (h : a < b) : order a b = .lt := by
  obtain ⟨ha, hb, hlt⟩ := (lt_iff_level a b).mp h
  rw [order_of_ne_undefined ha hb, if_pos hlt]

theorem order_swap (a b : Exact) : (order a b).swap = order b a := by
  by_cases hb : b = undefined
  · subst hb
    rcases a with _ | n | r <;> rfl
  · by_cases ha : a = undefined
    · subst ha
      rcases b with _ | n | r <;> simp_all [order]
    · rw [order_of_ne_undefined ha hb, order_of_ne_undefined hb ha]
      rcases lt_trichotomy a.level b.level with h | h | h
      · simp [h, h.not_gt]
      · simp [h]
      · simp [h, h.not_gt]

theorem order_isLE_trans {a b c : Exact} (hab : (order a b).isLE = true)
    (hbc : (order b c).isLE = true) : (order a c).isLE = true := by
  rw [order_isLE_iff] at hab hbc ⊢
  rcases hbc with hc | ⟨hb, hbc⟩
  · exact Or.inl hc
  · rcases hab with hb' | ⟨ha, hab⟩
    · exact absurd hb' hb
    · exact Or.inr ⟨ha, hab.trans hbc⟩

end Exact

instance instLawfulScalarExact : LawfulScalar Exact where
  isNaN_of_toRat? {a r} h := by
    rcases a with _ | n | s
    · cases h
    · cases h
    · rfl
  le_iff_value a b := by rw [Exact.value_eq, Exact.value_eq]
  lt_iff_value a b := by rw [Exact.value_eq, Exact.value_eq]
  value_posInf := rfl
  value_ofInt n _ := Exact.value_eq _
  value_neg a := by rw [Exact.value_eq, Exact.value_eq]; rfl
  value_abs a := by rw [Exact.value_eq, Exact.value_eq]; rfl
  value_floor a := by rw [Exact.value_eq, Exact.value_eq]; rfl
  value_ceil a := by rw [Exact.value_eq, Exact.value_eq]; rfl
  value_round a := by rw [Exact.value_eq, Exact.value_eq]; rfl
  rounded_mono {r s} h := by simpa using h
  rounded_value a := by simp
  value_add a b := by simp
  value_sub a b := by simp
  value_mul a b := by simp
  value_sub_round a := by simp
  order_of_lt h := Exact.order_eq_lt_of_lt h
  order_swap a b := Exact.order_swap a b
  order_trans hab hbc := Exact.order_isLE_trans hab hbc

end BranchBound
