import Mathlib.Data.List.Induction
import BranchBound.Proofs.IntegerParts

/-!
# Sums of natural numbers

Rounding preserves order and fixes the floor and the ceiling of every scalar, so it leaves no
integer between two others that it could become: integers are rounded to integers.  Sums of
natural numbers and multiples of natural numbers are therefore natural again, as long as they
do not become too large for the number system.  A share of a natural number, from none to all
of it, stays between zero and that number.
-/

namespace BranchBound

theorem Exact.exists_of_mapFinite {f : ℚ → ℚ} {a : Exact} {r : ℚ}
    (h : a.mapFinite f = .finite r) : ∃ q, a = .finite q := by
  rcases a with _ | n | q
  · cases h
  · cases h
  · exact ⟨q, rfl⟩

namespace Scalar

variable {α : Type} [Scalar α]

/-- A natural number or positive infinity. -/
def IsNatural (a : α) : Prop :=
  (∃ n : ℕ, value a = .finite n) ∨ value a = .infinite false

variable [LawfulScalar α] {a b : α}

/-- A finite number that an integer is rounded to is an integer. -/
theorem floor_eq_of_rounded_intCast {n : ℤ} {r : ℚ} (h : rounded α (.finite n) = .finite r) :
    (r.floor : ℚ) = r := by
  have ha : value (ofRat n : α) = .finite r := h
  have hfloor := LawfulScalar.rounded_value (floor (ofRat n : α))
  have hceil := LawfulScalar.rounded_value (ceil (ofRat n : α))
  rw [value_floor_of_finite ha] at hfloor
  rw [value_ceil_of_finite ha] at hceil
  rcases le_or_gt n r.floor with hle | hgt
  · have hmono := LawfulScalar.rounded_mono (α := α) (Int.cast_le (R := ℚ).mpr hle)
    rw [h, hfloor, Exact.finite_le_finite] at hmono
    exact le_antisymm (Rat.floor_le r) hmono
  · have hlt : r < n := by
      have hnext : r.floor + 1 ≤ n := hgt
      exact (Rat.lt_floor_add_one r).trans_le (by exact_mod_cast hnext)
    have hle : r.ceil ≤ n := Rat.ceil_le_iff.mpr hlt.le
    have hmono := LawfulScalar.rounded_mono (α := α) (Int.cast_le (R := ℚ).mpr hle)
    rw [h, hceil, Exact.finite_le_finite] at hmono
    have hr : r = r.ceil := le_antisymm Rat.le_ceil hmono
    rw [hr, Rat.floor_intCast]

/-- Natural numbers are rounded to natural numbers. -/
theorem isNatural_of_value_eq_rounded {n : ℕ} (h : value a = rounded α (.finite n)) :
    IsNatural a := by
  have hnonneg : ofInt 0 ≤ a := by
    rw [LawfulScalar.le_iff_value, value_zero, h, ← rounded_zero (α := α)]
    exact LawfulScalar.rounded_mono (Nat.cast_nonneg n)
  rcases value_of_nonneg hnonneg with ⟨r, hr, hvalue⟩ | hinf
  · rw [hvalue] at h
    have hfloor := floor_eq_of_rounded_intCast (n := n) h.symm
    obtain ⟨k, hk⟩ := Int.eq_ofNat_of_zero_le (Rat.le_floor_iff.mpr hr : 0 ≤ r.floor)
    left
    exact ⟨k, by rw [hvalue, ← hfloor, hk]; rfl⟩
  · exact Or.inr hinf

theorem isNatural_ofInt {n : ℤ} (h : 0 ≤ n) : IsNatural (ofInt n : α) := by
  obtain ⟨k, rfl⟩ := Int.eq_ofNat_of_zero_le h
  exact isNatural_of_value_eq_rounded (n := k) rfl

theorem IsNatural.zero_le (h : IsNatural a) : ofInt 0 ≤ a := by
  rw [LawfulScalar.le_iff_value, value_zero]
  rcases h with ⟨n, hn⟩ | hinf
  · rw [hn, Exact.finite_le_finite]
    exact Nat.cast_nonneg n
  · rw [hinf]
    rfl

theorem IsNatural.add (ha : IsNatural a) (hb : IsNatural b) : IsNatural (a + b) := by
  rcases ha with ⟨m, hm⟩ | hainf <;> rcases hb with ⟨n, hn⟩ | hbinf
  · apply isNatural_of_value_eq_rounded (n := m + n)
    rw [LawfulScalar.value_add, hm, hn, Exact.finite_add_finite, Nat.cast_add]
  · exact Or.inr (by rw [LawfulScalar.value_add, hm, hbinf]; rfl)
  · exact Or.inr (by rw [LawfulScalar.value_add, hainf, hn]; rfl)
  · exact Or.inr (by rw [LawfulScalar.value_add, hainf, hbinf]; rfl)

/-- A positive multiple of a natural number is natural. -/
theorem IsNatural.scale {k : ℕ} (ha : value a = .finite k) (hk : 0 < k) (hb : IsNatural b) :
    IsNatural (a * b) := by
  rcases hb with ⟨n, hn⟩ | hinf
  · apply isNatural_of_value_eq_rounded (n := k * n)
    rw [LawfulScalar.value_mul, ha, hn, Exact.finite_mul_finite, Nat.cast_mul]
  · right
    rw [LawfulScalar.value_mul, ha, hinf,
      Exact.finite_mul_infinite false (Nat.cast_pos.mpr hk : (0 : ℚ) < k)]
    rfl

theorem value_neg_zero : value (-ofInt 0 : α) = .finite 0 := by
  rw [LawfulScalar.value_neg, value_zero]
  exact congrArg Exact.finite neg_zero

/-- Sums of natural numbers are natural. -/
theorem isNatural_sum {l : List α} (h : ∀ a ∈ l, IsNatural a) : IsNatural (sum l) := by
  unfold sum
  induction l using List.reverseRecOn with
  | nil => exact Or.inl ⟨0, by rw [List.foldl_nil, value_neg_zero]; rfl⟩
  | append_singleton l a ih =>
      rw [List.forall_mem_append, List.forall_mem_singleton] at h
      rw [List.foldl_concat]
      exact (ih h.1).add h.2

/-- A sum of zeros is zero. -/
theorem value_sum_zeros {l : List α} (h : ∀ a ∈ l, value a = .finite 0) :
    value (sum l) = .finite 0 := by
  unfold sum
  induction l using List.reverseRecOn with
  | nil => exact value_neg_zero
  | append_singleton l a ih =>
      rw [List.forall_mem_append, List.forall_mem_singleton] at h
      rw [List.foldl_concat, LawfulScalar.value_add, ih h.1, h.2, Exact.finite_add_finite,
        add_zero, rounded_zero]

/-! ## Shares -/

theorem isFinite_of_isFinite_floor (h : isFinite (floor a) = true) : isFinite a = true := by
  obtain ⟨r, hr⟩ := isFinite_iff.mp h
  rw [LawfulScalar.value_floor] at hr
  exact isFinite_iff.mpr (Exact.exists_of_mapFinite hr)

theorem isFinite_of_isFinite_ceil (h : isFinite (ceil a) = true) : isFinite a = true := by
  obtain ⟨r, hr⟩ := isFinite_iff.mp h
  rw [LawfulScalar.value_ceil] at hr
  exact isFinite_iff.mpr (Exact.exists_of_mapFinite hr)

/-- What is a number after it is moved into `[0, 1]` is a share. -/
theorem value_clamp_unit (h : isNaN (clamp a (ofInt 0) (ofInt 1)) = false) :
    ∃ r : ℚ, 0 ≤ r ∧ r ≤ 1 ∧ value (clamp a (ofInt 0) (ofInt 1)) = .finite r := by
  unfold clamp at h ⊢
  split
  next => exact ⟨0, le_rfl, zero_le_one, value_zero⟩
  next hzero =>
    rw [if_neg hzero] at h
    split
    next => exact ⟨1, zero_le_one, le_rfl, value_one⟩
    next hone =>
      rw [if_neg hone] at h
      have hlow := Scalar.le_of_not_lt h isNaN_zero hzero
      have hhigh := Scalar.le_of_not_lt isNaN_one h hone
      rw [LawfulScalar.le_iff_value, value_one] at hhigh
      rcases value_of_nonneg hlow with ⟨r, hr, hvalue⟩ | hinf
      · rw [hvalue, Exact.finite_le_finite] at hhigh
        exact ⟨r, hr, hhigh, hvalue⟩
      · rw [hinf] at hhigh
        exact absurd hhigh Bool.noConfusion

/-- A share of a natural number that is finite lies between zero and that number. -/
theorem value_share (hb : IsNatural b)
    (h : isFinite (clamp a (ofInt 0) (ofInt 1) * b) = true) :
    ∃ (n : ℕ) (z : ℚ), value b = .finite n ∧ 0 ≤ z ∧ z ≤ n ∧
      value (clamp a (ofInt 0) (ofInt 1) * b) = .finite z := by
  obtain ⟨z, hz⟩ := isFinite_iff.mp h
  have hrounded := hz
  rw [LawfulScalar.value_mul] at hrounded
  have hnumber : isNaN (clamp a (ofInt 0) (ofInt 1)) = false := by
    rw [← Bool.not_eq_true, ← value_eq_undefined_iff]
    intro hundefined
    rw [hundefined] at hrounded
    cases hrounded
  obtain ⟨r, hr, hr1, hshare⟩ := value_clamp_unit hnumber
  rw [hshare] at hrounded
  rcases hb with ⟨n, hn⟩ | hinf
  · rw [hn, Exact.finite_mul_finite] at hrounded
    have hfix := LawfulScalar.rounded_value b
    rw [hn] at hfix
    have hlow := LawfulScalar.rounded_mono (α := α) (Rat.mul_nonneg hr n.cast_nonneg)
    have hhigh := LawfulScalar.rounded_mono (α := α) (mul_le_of_le_one_left n.cast_nonneg hr1)
    rw [rounded_zero, hrounded, Exact.finite_le_finite] at hlow
    rw [hrounded, hfix, Exact.finite_le_finite] at hhigh
    exact ⟨n, z, hn, hlow, hhigh, hz⟩
  · -- A share of infinity is infinite, or undefined.
    rw [hinf] at hrounded
    rcases hr.eq_or_lt with rfl | hpos
    · cases hrounded
    · rw [Exact.finite_mul_infinite false hpos] at hrounded
      cases hrounded

end Scalar
end BranchBound
