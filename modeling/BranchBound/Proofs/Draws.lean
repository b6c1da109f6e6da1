import BranchBound.Generator
import BranchBound.Proofs.LawfulScalar
import BranchBound.Proofs.ModelFiles

/-!
# Draws

What the draws of a generated model are, of chance whatever it may be.  All that is used is
that a number drawn below a bound is below it, and a word stream keeps to that even after the
last of its attempts.  Costs then have the sign of their family, and a row names some columns in
increasing order, with whole coefficients from one to nine.
-/

namespace BranchBound

variable {σ α : Type}

/-- Numbers that are drawn below a bound are below it. -/
structure Dice.IsBounded (dice : Dice σ α) : Prop where
  small_lt : ∀ (bound : ℕ) (s : σ), 0 < bound → (dice.small bound s).1 < bound
  index_lt : ∀ (bound : ℕ) (s : σ), 0 < bound → (dice.index bound s).1 < bound

/-! ## Word streams -/

namespace WordStream

theorem next32_lt (s : WordStream) : s.next32.1 < pow2 32 :=
  UInt32.toNat_lt _

theorem next64_lt (s : WordStream) : s.next64.1 < pow2 64 := by
  have hlow := s.next32_lt
  have hhigh := s.next32.2.next32_lt
  have hpow : pow2 64 = pow2 32 * pow2 32 := rfl
  change s.next32.1 + pow2 32 * s.next32.2.next32.1 < pow2 64
  rw [hpow]
  calc
    _ < pow2 32 + pow2 32 * s.next32.2.next32.1 := Nat.add_lt_add_right hlow _
    _ = pow2 32 * (s.next32.2.next32.1 + 1) := by rw [Nat.mul_succ, add_comm]
    _ ≤ pow2 32 * pow2 32 := Nat.mul_le_mul_left _ hhigh

/-- A fair draw and the one that is taken for want of attempts are both below the bound. -/
theorem uniform_lt {bits bound : ℕ} {draw : WordStream → ℕ × WordStream}
    (hdraw : ∀ s, (draw s).1 < pow2 bits) (hbound : 0 < bound) (attempts : ℕ) (s : WordStream) :
    (uniform bits draw bound attempts s).1 < bound := by
  have hhigh (s : WordStream) : (draw s).1 * bound / pow2 bits < bound :=
    Nat.div_lt_of_lt_mul (Nat.mul_lt_mul_of_pos_right (hdraw s) hbound)
  induction attempts generalizing s with
  | zero => exact hhigh s
  | succ attempts ih =>
      simp only [uniform]
      split
      · exact hhigh s
      · exact ih _

theorem isBounded_dice [Scalar α] : (dice : Dice WordStream α).IsBounded where
  small_lt _ s hbound := uniform_lt next32_lt hbound maxAttempts s
  index_lt _ s hbound := uniform_lt next64_lt hbound maxAttempts s

end WordStream

/-! ## Costs and rows -/

variable [Scalar α]

namespace Scalar

/-- A whole number from one to `sides`. -/
def IsRoll (sides : ℕ) (a : α) : Prop :=
  ∃ k : ℕ, 1 ≤ k ∧ k ≤ sides ∧ value a = .finite k

variable [LawfulScalar α] {sides : ℕ} {a : α}

theorem IsRoll.zero_lt (h : IsRoll sides a) : ofInt 0 < a := by
  obtain ⟨k, hk, -, hvalue⟩ := h
  rw [LawfulScalar.lt_iff_value, value_zero, hvalue, Exact.finite_lt_finite]
  exact Nat.cast_pos.mpr hk

theorem IsRoll.neg_lt_zero (h : IsRoll sides a) : -a < ofInt 0 := by
  obtain ⟨k, hk, -, hvalue⟩ := h
  rw [LawfulScalar.lt_iff_value, LawfulScalar.value_neg, hvalue, value_zero]
  exact neg_neg_of_pos (Nat.cast_pos.mpr hk : (0 : ℚ) < k)

end Scalar

/-- A cost of the sign that the family has. -/
def InstanceKind.IsCost : InstanceKind → α → Prop
  | packing, cost => cost < Scalar.ofInt 0
  | covering, cost => Scalar.ofInt 0 < cost

/-- A row over `n` columns as it is drawn. -/
structure Constraint.IsDrawn (n : ℕ) (terms : List (ℕ × α)) : Prop where
  sorted : IsSorted terms
  columns : ∀ term ∈ terms, term.1 < n
  rolls : ∀ term ∈ terms, Scalar.IsRoll 9 term.2
  ne_nil : 0 < n → terms ≠ []

namespace Generator

variable [LawfulScalar α] {dice : Dice σ α} (hdice : dice.IsBounded)

include hdice

theorem isRoll_roll (sides : ℕ) (hsides : 0 < sides) (hsmall : sides ≤ 2 ^ 53) (s : σ) :
    Scalar.IsRoll sides (roll dice sides s).1 := by
  have hlt := hdice.small_lt sides s hsides
  refine ⟨(dice.small sides s).1 + 1, Nat.le_add_left _ _, hlt, ?_⟩
  exact LawfulScalar.value_ofInt _ (le_trans hlt hsmall)

/-- There is a cost for each variable, of the sign that the family has. -/
theorem drawCosts_isCost (kind : InstanceKind) (count : ℕ) (s : σ) :
    (drawCosts dice kind count s).1.length = count ∧
      ∀ cost ∈ (drawCosts dice kind count s).1, kind.IsCost cost := by
  induction count generalizing s with
  | zero => exact ⟨rfl, fun _ h => absurd h List.not_mem_nil⟩
  | succ count ih =>
      obtain ⟨hlength, hcosts⟩ := ih (roll dice 20 s).2
      have hroll := isRoll_roll hdice 20 (by decide) (by decide) s
      refine ⟨congrArg Nat.succ hlength, List.forall_mem_cons.mpr ⟨?_, hcosts⟩⟩
      cases kind with
      | packing => exact hroll.neg_lt_zero
      | covering => exact hroll.zero_lt

/-- The terms of a row name some of the columns, in their order. -/
theorem drawTerms_sublist {density : α} {columns : List ℕ} {s rest : σ} {terms : List (ℕ × α)}
    (h : drawTerms dice density columns s = some (terms, rest)) :
    (terms.map Prod.fst).Sublist columns ∧ ∀ term ∈ terms, Scalar.IsRoll 9 term.2 := by
  induction columns generalizing s rest terms with
  | nil =>
      obtain ⟨rfl, -⟩ := Prod.mk.inj (Option.some.inj h)
      exact ⟨List.Sublist.slnil, fun _ hterm => absurd hterm List.not_mem_nil⟩
  | cons column columns ih =>
      rw [drawTerms] at h
      split at h
      next => cases h
      next =>
        obtain ⟨hsub, hrolls⟩ := ih h
        exact ⟨hsub.cons column, hrolls⟩
      next s' _ =>
        dsimp only at h
        split at h
        next => cases h
        next hterms =>
          obtain ⟨rfl, -⟩ := Prod.mk.inj (Option.some.inj h)
          obtain ⟨hsub, hrolls⟩ := ih hterms
          have hroll := isRoll_roll hdice 9 (by decide) (by decide) s'
          exact ⟨hsub.cons_cons column, List.forall_mem_cons.mpr ⟨hroll, hrolls⟩⟩

theorem drawRow_isDrawn {config : GeneratorConfig α} {s rest : σ} {terms : List (ℕ × α)}
    (h : drawRow dice config s = some (terms, rest)) :
    Constraint.IsDrawn config.numVars terms := by
  simp only [drawRow] at h
  split at h
  next => cases h
  next drawn s' hdrawn =>
    obtain ⟨hsub, hrolls⟩ := drawTerms_sublist hdice hdrawn
    split at h
    next hempty =>
      -- The row without terms gets one, in a column that exists.
      obtain ⟨rfl, -⟩ := Prod.mk.inj (Option.some.inj h)
      rw [Bool.and_eq_true, decide_eq_true_eq] at hempty
      constructor
      case sorted => exact List.pairwise_singleton _ _
      case columns => exact List.forall_mem_singleton.mpr (hdice.index_lt _ s' hempty.2)
      case rolls =>
        exact List.forall_mem_singleton.mpr (isRoll_roll hdice 9 (by decide) (by decide) _)
      case ne_nil => exact fun _ => List.cons_ne_nil _ _
    next hempty =>
      obtain ⟨rfl, -⟩ := Prod.mk.inj (Option.some.inj h)
      constructor
      case sorted => exact List.pairwise_map.mp (List.pairwise_lt_range.sublist hsub)
      case columns =>
        intro term hterm
        exact List.mem_range.mp (hsub.subset (List.mem_map_of_mem hterm))
      case rolls => exact hrolls
      case ne_nil =>
        rintro hpos rfl
        exact hempty (by simp [hpos])

/-- There are as many constraints as asked for, each with a row of its own. -/
theorem drawRows_isDrawn {config : GeneratorConfig α} {count : ℕ} {s : σ}
    {constraints : List (Constraint α)} (h : drawRows dice config count s = some constraints) :
    constraints.length = count ∧ ∀ c ∈ constraints,
      Constraint.IsDrawn config.numVars c.terms ∧ c = constraintOf config c.terms := by
  induction count generalizing s constraints with
  | zero =>
      obtain rfl := Option.some.inj h
      exact ⟨rfl, fun _ hc => absurd hc List.not_mem_nil⟩
  | succ count ih =>
      rw [drawRows] at h
      split at h
      next => cases h
      next terms s' hrow =>
        obtain ⟨rows, hrows, rfl⟩ := Option.map_eq_some_iff.mp h
        obtain ⟨hlength, hdrawn⟩ := ih hrows
        refine ⟨congrArg Nat.succ hlength, List.forall_mem_cons.mpr ⟨?_, hdrawn⟩⟩
        have hterms : (constraintOf config terms).terms = terms := by
          unfold constraintOf
          cases config.kind <;> rfl
        rw [hterms]
        exact ⟨drawRow_isDrawn hdice hrow, rfl⟩

end Generator

end BranchBound
