import Mathlib.Algebra.Order.BigOperators.GroupWithZero.List
import BranchBound.Proofs.Splitting

/-!
# Cells of a box

A measure for how often a box can be split.  An interval with finite ends reaches
into `cells` unit intervals between integers.  Splitting it at a value in one of them
takes that one away and shares the others between the halves.  So the product of
`cells + 1` over the integral variables, the *weight* of a box, is the sum of the
weights of its halves.  For integer bounds it is the number of lattice points, the
continuous coordinates apart.
-/

namespace BranchBound

variable {α : Type} [Scalar α]

/-! ## Intervals -/

namespace Interval

/-- An interval with two finite ends. -/
def IsBounded (i : Interval α) : Prop :=
  Scalar.isFinite i.lower = true ∧ Scalar.isFinite i.upper = true

/-- An interval with two integer ends. -/
def IsIntegral (i : Interval α) : Prop :=
  Scalar.IsInteger i.lower ∧ Scalar.IsInteger i.upper

/-- Number of unit intervals between integers that an interval reaches into. -/
def cells (i : Interval α) : Nat :=
  match Scalar.toRat? i.lower, Scalar.toRat? i.upper with
  | some l, some u => (u.ceil - l.floor).toNat
  | _, _ => 0

/-- `upper - lower + 1`, the number of integers in an interval with integer ends. -/
def integerCount (i : Interval α) : Nat :=
  match Scalar.toRat? i.lower, Scalar.toRat? i.upper with
  | some l, some u => (u - l + 1).floor.toNat
  | _, _ => 0

variable [LawfulScalar α] {i : Interval α} {a : α} {l u q : ℚ}

theorem isBounded_iff :
    i.IsBounded ↔ ∃ l u : ℚ, Scalar.value i.lower = .finite l ∧
      Scalar.value i.upper = .finite u := by
  simp only [IsBounded, Scalar.isFinite_iff, exists_and_left, exists_and_right]

theorem IsIntegral.isBounded (h : i.IsIntegral) : i.IsBounded := by
  obtain ⟨⟨n, hn⟩, m, hm⟩ := h
  exact isBounded_iff.mpr ⟨n, m, hn, hm⟩

theorem cells_mk {lower upper : α} (hl : Scalar.value lower = .finite l)
    (hu : Scalar.value upper = .finite u) :
    (Interval.mk lower upper).cells = (u.ceil - l.floor).toNat := by
  rw [Scalar.value_eq_finite_iff] at hl hu
  simp only [cells, hl, hu]

/-- In an interval with integer ends there is one integer more than there are
cells. -/
theorem integerCount_eq (h : i.IsIntegral) (hempty : i.isEmpty = false) :
    i.integerCount = i.cells + 1 := by
  obtain ⟨⟨n, hn⟩, m, hm⟩ := h
  have hle : n ≤ m := by
    have hnot : ¬i.upper < i.lower := by simpa [isEmpty] using hempty
    rw [LawfulScalar.lt_iff_value, hn, hm, Exact.finite_lt_finite] at hnot
    exact_mod_cast not_lt.mp hnot
  have hcells : i.cells = _ := cells_mk hn hm
  rw [Scalar.value_eq_finite_iff] at hn hm
  simp only [integerCount, hn, hm]
  have hcount : ((m : ℚ) - n + 1).floor = m - n + 1 := by
    have hcast : ((m : ℚ) - n + 1) = ((m - n + 1 : ℤ) : ℚ) := by push_cast; ring
    rw [hcast, Rat.floor_intCast]
  rw [hcells, hcount, Rat.ceil_intCast, Rat.floor_intCast]
  omega

/-- Splitting an interval inside a cell takes that cell away and shares the others
between the halves. -/
theorem cells_split (hbounded : i.IsBounded) (ha : i.Holds a)
    (hq : Scalar.value a = .finite q) (hfrac : q.floor < q) :
    (Interval.mk i.lower (Scalar.floor a)).cells +
      (Interval.mk (Scalar.ceil a) i.upper).cells + 1 = i.cells := by
  obtain ⟨l, u, hl, hu⟩ := isBounded_iff.mp hbounded
  obtain ⟨hlow, hhigh⟩ := ha
  rw [LawfulScalar.le_iff_value, hl, hq, Exact.finite_le_finite] at hlow
  rw [LawfulScalar.le_iff_value, hu, hq, Exact.finite_le_finite] at hhigh
  have hfloor : l.floor ≤ q.floor := Rat.floor_monotone hlow
  have hceil : q.ceil ≤ u.ceil := Rat.ceil_le_iff.mpr (hhigh.trans Rat.le_ceil)
  have hcell : q.ceil = q.floor + 1 := by
    have hupper : q.ceil ≤ q.floor + 1 := Rat.ceil_le_iff.mpr (Rat.lt_floor_add_one q).le
    have hlower : q.floor < q.ceil := Rat.lt_ceil_iff.mpr hfrac
    omega
  have hcells : i.cells = _ := cells_mk hl hu
  rw [hcells, cells_mk hl (Scalar.value_floor_of_finite hq),
    cells_mk (Scalar.value_ceil_of_finite hq) hu, Rat.ceil_intCast, Rat.floor_intCast]
  omega

/-- Halves of an interval with finite ends have finite ends. -/
theorem IsBounded.halves (h : i.IsBounded) (hq : Scalar.value a = .finite q) :
    (Interval.mk i.lower (Scalar.floor a)).IsBounded ∧
      (Interval.mk (Scalar.ceil a) i.upper).IsBounded :=
  ⟨⟨h.1, Scalar.isFinite_iff.mpr ⟨_, Scalar.value_floor_of_finite hq⟩⟩,
    Scalar.isFinite_iff.mpr ⟨_, Scalar.value_ceil_of_finite hq⟩, h.2⟩

/-- Halves of an interval with integer ends have integer ends, and neither is
empty. -/
theorem IsIntegral.halves (h : i.IsIntegral) (ha : i.Holds a)
    (hq : Scalar.value a = .finite q) :
    ((Interval.mk i.lower (Scalar.floor a)).IsIntegral ∧
        (Interval.mk i.lower (Scalar.floor a)).isEmpty = false) ∧
      (Interval.mk (Scalar.ceil a) i.upper).IsIntegral ∧
        (Interval.mk (Scalar.ceil a) i.upper).isEmpty = false := by
  obtain ⟨⟨n, hn⟩, m, hm⟩ := h
  obtain ⟨hlow, hhigh⟩ := ha
  rw [LawfulScalar.le_iff_value, hn, hq, Exact.finite_le_finite] at hlow
  rw [LawfulScalar.le_iff_value, hm, hq, Exact.finite_le_finite] at hhigh
  have hfloor := Scalar.value_floor_of_finite hq
  have hceil := Scalar.value_ceil_of_finite hq
  refine ⟨⟨⟨⟨n, hn⟩, _, hfloor⟩, ?_⟩, ⟨⟨_, hceil⟩, m, hm⟩, ?_⟩
  · rw [isEmpty, decide_eq_false_iff_not, LawfulScalar.lt_iff_value, hfloor, hn,
      Exact.finite_lt_finite, not_lt]
    exact_mod_cast Rat.le_floor_iff.mpr hlow
  · rw [isEmpty, decide_eq_false_iff_not, LawfulScalar.lt_iff_value, hceil, hm,
      Exact.finite_lt_finite, not_lt]
    exact_mod_cast Rat.ceil_le_iff.mpr hhigh

end Interval

/-! ## Boxes -/

namespace Problem

/-- A box whose integral variables have intervals of a certain kind. -/
def IntegralIntervals (problem : Problem α) (kind : Interval α → Prop) (d : Domain α) : Prop :=
  ∀ (var : Nat) (v : Variable α) (i : Interval α), problem.vars[var]? = some v →
    v.kind.isIntegral = true → d.get? var = some i → kind i

/-- Product of `cells + 1` over the integral variables of a box. -/
def weight (problem : Problem α) (d : Domain α) : Nat :=
  ((List.zip problem.vars d.intervals).map fun entry =>
    if entry.1.kind.isIntegral then entry.2.cells + 1 else 1).prod

/-- Product of `upper - lower + 1` over the integral variables. -/
def gridSize (problem : Problem α) : Nat :=
  ((problem.vars.filter fun v => v.kind.isIntegral).map fun v =>
    v.rootInterval.integerCount).prod

theorem weight_pos (problem : Problem α) (d : Domain α) : 0 < problem.weight d := by
  refine List.prod_pos ?_
  intro n hn
  obtain ⟨entry, -, rfl⟩ := List.mem_map.mp hn
  split
  · exact Nat.succ_pos _
  · exact Nat.one_pos

/-- Replacing one entry of the second list changes one factor of a product over
pairs. -/
theorem prod_zip_set {β γ : Type} (f : β × γ → Nat) {l : List β} {l' : List γ} {n : Nat}
    {b : β} {x : γ} (hb : l[n]? = some b) (hx : l'[n]? = some x) :
    ∃ m, ((List.zip l l').map f).prod = m * f (b, x) ∧
      ∀ y, ((List.zip l (l'.set n y)).map f).prod = m * f (b, y) := by
  induction l generalizing l' n with
  | nil => cases hb
  | cons b' l ih =>
      cases l' with
      | nil => cases hx
      | cons x' l' =>
          cases n with
          | zero =>
              obtain rfl := Option.some.inj hb
              obtain rfl := Option.some.inj hx
              refine ⟨((List.zip l l').map f).prod, ?_, ?_⟩
              · simp [Nat.mul_comm]
              · intro y
                simp [Nat.mul_comm]
          | succ n =>
              obtain ⟨m, hm, hset⟩ := ih hb hx
              refine ⟨f (b', x') * m, ?_, ?_⟩
              · simp [hm, Nat.mul_assoc]
              · intro y
                simp [hset y, Nat.mul_assoc]

variable {problem : Problem α} {d : Domain α} {v : Variable α}

/-- A split divides the weight of a box between the halves. -/
theorem Splits.weight_eq [LawfulScalar α] {tol : α} {r : Relaxation α} {f : Fractional α}
    {old : Interval α} {down up : Domain α} (h : problem.Splits tol d r f old down up)
    (htol : Scalar.ofInt 0 ≤ tol) (hbounded : old.IsBounded) (hvalue : old.Holds f.value) :
    problem.weight down + problem.weight up = problem.weight d := by
  obtain ⟨-, hfrac, ⟨v, hv, hkind⟩, q, hq⟩ := h.value_eq
  obtain ⟨m, hm, hset⟩ := prod_zip_set (fun entry : Variable α × Interval α =>
    if entry.1.kind.isIntegral then entry.2.cells + 1 else 1) hv h.get
  have hcells := Interval.cells_split hbounded hvalue hq
    (Scalar.floor_lt_of_lt_fractionality hq htol hfrac)
  simp only [hkind, if_true] at hm hset
  rw [weight, weight, weight, (Domain.set?_eq_some h.down_eq).2,
    (Domain.set?_eq_some h.up_eq).2, hset, hset, hm, ← Nat.mul_add, ← hcells]
  congr 1
  omega

omit [Scalar α] in
/-- A replaced interval of the right kind leaves the box one with such intervals. -/
theorem IntegralIntervals.set? {kind : Interval α → Prop} {d' : Domain α} {var : Nat}
    {i : Interval α} (h : problem.IntegralIntervals kind d) (hset : d.set? var i = some d')
    (hi : kind i) :
    problem.IntegralIntervals kind d' := by
  intro j w i' hw hintegral hget
  rw [Domain.get?_set? hset] at hget
  split at hget
  · exact Option.some.inj hget ▸ hi
  · exact h j w i' hw hintegral hget

/-! ## Root boxes -/

theorem variableFault?_eq_none_iff {var : Nat} : variableFault? var v = none ↔
    v.rootInterval.hasNaN = false ∧ v.rootInterval.isEmpty = false := by
  unfold variableFault?
  simp only
  split
  next hnan => simp [hnan]
  next hnumbers =>
    split
    next hempty => simp [hempty]
    next hvalues => simp_all

/-- The intervals of an accepted problem have numbers for ends and are not empty. -/
theorem rootInterval_of_fault?_eq_none (h : problem.fault? = none) (hv : v ∈ problem.vars) :
    v.rootInterval.hasNaN = false ∧ v.rootInterval.isEmpty = false := by
  unfold fault? at h
  split at h
  · cases h
  · obtain ⟨n, hn⟩ := List.mem_iff_getElem?.mp hv
    exact variableFault?_eq_none_iff.mp (List.findSome?_eq_none_iff.mp h (v, n)
      (List.mk_mem_zipIdx_iff_getElem?.mpr hn))

theorem isEmpty_of_fault?_eq_none (h : problem.fault? = none) (hv : v ∈ problem.vars) :
    v.rootInterval.isEmpty = false :=
  (rootInterval_of_fault?_eq_none h hv).2

theorem isMalformed_rootDomain (h : problem.fault? = none) :
    problem.rootDomain.isMalformed = false := by
  rw [← Bool.not_eq_true, Domain.isMalformed, List.any_eq_true]
  rintro ⟨i, hi, hempty⟩
  obtain ⟨v, hv, rfl⟩ := List.mem_map.mp hi
  rw [isEmpty_of_fault?_eq_none h hv] at hempty
  cases hempty

theorem integralIntervals_rootDomain {kind : Interval α → Prop}
    (h : ∀ v ∈ problem.vars, v.kind.isIntegral = true → kind v.rootInterval) :
    problem.IntegralIntervals kind problem.rootDomain := by
  intro var v i hv hkind hi
  rw [Domain.get?, rootDomain, List.getElem?_map, hv] at hi
  exact Option.some.inj hi ▸ h v (List.mem_of_getElem? hv) hkind

/-- With integer bounds the weight of the root box is the size of the grid. -/
theorem weight_rootDomain [LawfulScalar α] (hvalid : problem.fault? = none)
    (h : ∀ v ∈ problem.vars, v.kind.isIntegral = true → v.rootInterval.IsIntegral) :
    problem.weight problem.rootDomain = problem.gridSize := by
  have hempty : ∀ v ∈ problem.vars, v.rootInterval.isEmpty = false := fun v hv =>
    isEmpty_of_fault?_eq_none hvalid hv
  unfold weight gridSize rootDomain
  simp only
  generalize problem.vars = vars at h hempty ⊢
  induction vars with
  | nil => rfl
  | cons v vars ih =>
      have hrest := ih (fun w hw => h w (List.mem_cons_of_mem v hw))
        fun w hw => hempty w (List.mem_cons_of_mem v hw)
      rw [List.map_cons, List.zip_cons_cons, List.map_cons, List.prod_cons, hrest]
      by_cases hkind : v.kind.isIntegral = true
      · have hcount := Interval.integerCount_eq (h v List.mem_cons_self hkind)
          (hempty v List.mem_cons_self)
        simp [hkind, hcount]
      · simp [hkind]

end Problem

end BranchBound
