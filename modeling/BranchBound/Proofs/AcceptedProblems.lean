import BranchBound.Binary64
import BranchBound.Proofs.Binary64.Lawful
import BranchBound.Proofs.Cells

/-!
# Accepted problems

Which declarations of variables a search starts from.  A declaration is at fault if a bound is
not a number or the lower bound exceeds the upper one, and that of a binary variable also if a
bound is infinite or the interval misses `[0, 1]`.  The test looks at the root interval, though,
where a binary variable has lost the bounds that are beyond `[0, 1]` and those that are not
numbers.  So no declaration is refused that is not at fault, and one at fault is accepted only
if it is that of a binary variable with a bound that is not finite.
-/

namespace BranchBound

variable {α : Type} [Scalar α]

/-! ## Declarations -/

/-- Some value lies in both intervals. -/
def Interval.Meets (i other : Interval α) : Prop :=
  ∃ a, i.Holds a ∧ other.Holds a

namespace Variable

/-- A declaration without proper bounds for its kind. -/
def IsFaulty (v : Variable α) : Prop :=
  v.bounds.hasNaN = true ∨ v.bounds.upper < v.bounds.lower ∨
    v.kind = .binary ∧ (¬v.bounds.IsBounded ∨ ¬v.bounds.Meets .unit)

/-- A declaration that is refused.  A bound of a binary variable counts only as far as it compares
with the other bound, or with zero or one. -/
def IsRefused (v : Variable α) : Prop :=
  v.bounds.upper < v.bounds.lower ∨
    if v.kind = .binary then Scalar.ofInt 1 < v.bounds.lower ∨ v.bounds.upper < Scalar.ofInt 0
    else v.bounds.hasNaN = true

variable {v : Variable α}

theorem rootInterval_of_ne_binary (h : v.kind ≠ .binary) : v.rootInterval = v.bounds := by
  unfold rootInterval
  split
  · contradiction
  · rfl

theorem rootInterval_of_binary (h : v.kind = .binary) : v.rootInterval =
    ⟨Scalar.maximum v.bounds.lower (Scalar.ofInt 0),
      Scalar.minimum v.bounds.upper (Scalar.ofInt 1)⟩ := by
  simp only [rootInterval, h]

variable [LawfulScalar α]

/-- Whatever is declared, the root interval of a binary variable has numbers for ends and does not
reach beyond `[0, 1]`. -/
theorem rootInterval_inside_unit (h : v.kind = .binary) :
    v.rootInterval.hasNaN = false ∧ v.rootInterval.isSubsetOf .unit = true := by
  have hlower := Scalar.le_maximum_right v.bounds.lower (Scalar.isNaN_zero (α := α))
  have hupper := Scalar.minimum_le_of_isNaN v.bounds.upper (Scalar.isNaN_one (α := α))
  rw [rootInterval_of_binary h, Interval.hasNaN, Interval.isSubsetOf_iff]
  simp only [Scalar.isNaN_right_of_le hlower, Scalar.isNaN_left_of_le hupper, Bool.or_self,
    true_and]
  exact ⟨hlower, hupper⟩

theorem isEmpty_rootInterval_iff (h : v.kind = .binary) : v.rootInterval.isEmpty = true ↔
    v.bounds.upper < v.bounds.lower ∨ Scalar.ofInt 1 < v.bounds.lower ∨
      v.bounds.upper < Scalar.ofInt 0 := by
  have hunit := Scalar.not_lt_of_le (Scalar.ofInt_zero_le_one (α := α))
  rw [rootInterval_of_binary h, Interval.isEmpty, decide_eq_true_eq, Scalar.lt_maximum_iff,
    Scalar.minimum_lt_iff, Scalar.minimum_lt_iff]
  tauto

/-- A declaration is refused if its root interval has no proper bounds. -/
theorem isRefused_iff :
    v.IsRefused ↔ v.rootInterval.hasNaN = true ∨ v.rootInterval.isEmpty = true := by
  unfold IsRefused
  by_cases h : v.kind = .binary
  · rw [if_pos h, isEmpty_rootInterval_iff h, (rootInterval_inside_unit h).1]
    simp
  · rw [if_neg h, rootInterval_of_ne_binary h, Interval.isEmpty, decide_eq_true_eq, or_comm]

end Variable

/-- Finite bounds leave some of `[0, 1]` if they are in order and neither is beyond it. -/
theorem Interval.meets_unit_iff [LawfulScalar α] {i : Interval α} (h : i.IsBounded) :
    i.Meets .unit ↔ ¬i.upper < i.lower ∧ ¬Scalar.ofInt 1 < i.lower ∧
      ¬i.upper < Scalar.ofInt 0 := by
  have hlower := Scalar.isNaN_of_isFinite h.1
  have hupper := Scalar.isNaN_of_isFinite h.2
  constructor
  · rintro ⟨a, ⟨hla, hau⟩, hzero, hone⟩
    exact ⟨Scalar.not_lt_of_le (Scalar.le_trans hla hau),
      Scalar.not_lt_of_le (Scalar.le_trans hla hone),
      Scalar.not_lt_of_le (Scalar.le_trans hzero hau)⟩
  · rintro ⟨hordered, hone, hzero⟩
    have hle := Scalar.le_maximum_right i.lower (Scalar.isNaN_zero (α := α))
    have hnumber := Scalar.isNaN_right_of_le hle
    refine ⟨Scalar.maximum i.lower (Scalar.ofInt 0), ⟨Scalar.le_maximum_left hlower, ?_⟩, hle, ?_⟩
    · apply Scalar.le_of_not_lt hupper hnumber
      rw [Scalar.lt_maximum_iff]
      exact not_or.mpr ⟨hordered, hzero⟩
    · apply Scalar.le_of_not_lt Scalar.isNaN_one hnumber
      rw [Scalar.lt_maximum_iff]
      exact not_or.mpr ⟨hone, Scalar.not_lt_of_le Scalar.ofInt_zero_le_one⟩

/-- A declaration at fault is refused, unless a bound of a binary variable is not finite. -/
theorem Variable.isFaulty_iff [LawfulScalar α] {v : Variable α} :
    v.IsFaulty ↔ v.IsRefused ∨ v.kind = .binary ∧ ¬v.bounds.IsBounded := by
  unfold IsFaulty IsRefused
  by_cases h : v.kind = .binary
  · simp only [h, true_and, if_true]
    by_cases hbounded : v.bounds.IsBounded
    · have hnumbers : v.bounds.hasNaN = false := by
        rw [Interval.hasNaN, Scalar.isNaN_of_isFinite hbounded.1,
          Scalar.isNaN_of_isFinite hbounded.2]
        rfl
      rw [Interval.meets_unit_iff hbounded, hnumbers]
      tauto
    · simp [hbounded]
  · simp [h, or_comm]

/-- With finite bounds for a binary variable the declarations at fault are those refused. -/
theorem Variable.isRefused_iff_isFaulty
    [LawfulScalar α] {v : Variable α} (h : v.kind = .binary → v.bounds.IsBounded) :
    v.IsRefused ↔ v.IsFaulty := by
  rw [isFaulty_iff]
  constructor
  · exact Or.inl
  · rintro (hrefused | ⟨hkind, hinfinite⟩)
    · exact hrefused
    · exact absurd (h hkind) hinfinite

/-! ## Problems -/

namespace Problem

variable {problem : Problem α} {d : Domain α}

/-- A box to start from: an interval for each variable, with numbers for ends and in order; inside
`[0, 1]` for binary variables, and as declared for all others. -/
structure IsRootBox (problem : Problem α) (d : Domain α) : Prop where
  size_eq : d.size = problem.numVars
  numbers : ∀ i ∈ d.intervals, i.hasNaN = false
  not_malformed : d.isMalformed = false
  binary : ∀ (var : Nat) (v : Variable α) (i : Interval α), problem.vars[var]? = some v →
    d.get? var = some i → v.kind = .binary → i.isSubsetOf .unit = true
  declared : ∀ (var : Nat) (v : Variable α) (i : Interval α), problem.vars[var]? = some v →
    d.get? var = some i → v.kind ≠ .binary → i = v.bounds

theorem validate_eq_ok_iff :
    problem.validate = .ok d ↔ problem.fault? = none ∧ d = problem.rootDomain := by
  unfold validate
  cases problem.fault? with
  | none => simp [eq_comm]
  | some fault => simp

theorem validate_eq_error_iff {e : SearchError α} : problem.validate = .error e ↔
    ∃ fault, problem.fault? = some fault ∧ e = .invalidProblem fault := by
  unfold validate
  cases problem.fault? with
  | none => simp
  | some fault => simp [eq_comm]

variable [LawfulScalar α]

theorem variableFault?_eq_none_iff_not_isRefused {var : Nat} {v : Variable α} :
    variableFault? var v = none ↔ ¬v.IsRefused := by
  rw [variableFault?_eq_none_iff, Variable.isRefused_iff, not_or, Bool.not_eq_true,
    Bool.not_eq_true]

theorem fault?_eq_none_iff :
    problem.fault? = none ↔ problem.vars ≠ [] ∧ ∀ v ∈ problem.vars, ¬v.IsRefused := by
  constructor
  · intro h
    refine ⟨?_, fun v hv => ?_⟩
    · intro hnil
      simp [fault?, hnil] at h
    · rw [Variable.isRefused_iff, not_or, Bool.not_eq_true, Bool.not_eq_true]
      exact rootInterval_of_fault?_eq_none h hv
  · rintro ⟨hne, hrefused⟩
    rw [fault?, if_neg (by simpa using hne), List.findSome?_eq_none_iff]
    rintro ⟨v, var⟩ hmem
    apply variableFault?_eq_none_iff_not_isRefused.mpr
    exact hrefused v (List.mem_of_getElem? (List.mk_mem_zipIdx_iff_getElem?.mp hmem))

theorem exists_error_iff : (∃ fault, problem.validate = .error (.invalidProblem fault)) ↔
    problem.vars = [] ∨ ∃ v ∈ problem.vars, v.IsRefused := by
  have hsome : (∃ fault, problem.validate = .error (.invalidProblem fault)) ↔
      problem.fault? ≠ none := by
    simp [validate_eq_error_iff, Option.ne_none_iff_exists']
  rw [hsome, Ne, fault?_eq_none_iff, not_and_or, not_not]
  simp

theorem isRootBox_rootDomain (h : problem.fault? = none) :
    problem.IsRootBox problem.rootDomain := by
  have hget {var : Nat} {v : Variable α} {i : Interval α} (hv : problem.vars[var]? = some v)
      (hi : problem.rootDomain.get? var = some i) : i = v.rootInterval := by
    rw [Domain.get?, rootDomain, List.getElem?_map, hv] at hi
    exact (Option.some.inj hi).symm
  constructor
  case size_eq => exact List.length_map _
  case numbers =>
    intro i hi
    obtain ⟨v, hv, rfl⟩ := List.mem_map.mp hi
    exact (rootInterval_of_fault?_eq_none h hv).1
  case not_malformed => exact isMalformed_rootDomain h
  case binary =>
    intro var v i hv hi hkind
    rw [hget hv hi]
    exact (Variable.rootInterval_inside_unit hkind).2
  case declared =>
    intro var v i hv hi hkind
    rw [hget hv hi]
    exact Variable.rootInterval_of_ne_binary hkind

/-- The fault of a problem with variables names the first one that is refused. -/
theorem exists_first_isRefused {fault : ProblemFault α} (h : problem.fault? = some fault)
    (hne : problem.vars ≠ []) :
    ∃ var v, problem.vars[var]? = some v ∧ v.IsRefused ∧
      (∀ j < var, ∀ w, problem.vars[j]? = some w → ¬w.IsRefused) ∧
      (fault = .nanBounds var ∨ fault = .emptyDomain var v.rootInterval v.kind) := by
  rw [fault?, if_neg (by simpa using hne), List.findSome?_eq_some_iff] at h
  obtain ⟨before, ⟨v, var⟩, after, hsplit, hfault, hbefore⟩ := h
  have hget : problem.vars.zipIdx[before.length]? = some (v, var) := by
    rw [hsplit, List.getElem?_append_right le_rfl, Nat.sub_self, List.getElem?_cons_zero]
  rw [List.getElem?_zipIdx, Nat.zero_add, Option.map_eq_some_iff] at hget
  obtain ⟨w, hv, heq⟩ := hget
  obtain ⟨rfl, rfl⟩ := Prod.mk.inj heq
  refine ⟨before.length, w, hv, ?_, ?_, ?_⟩
  · by_contra hnot
    rw [variableFault?_eq_none_iff_not_isRefused.mpr hnot] at hfault
    cases hfault
  · intro j hj w hw
    have hentry : problem.vars.zipIdx[j]? = some (w, j) := by
      rw [List.getElem?_zipIdx, hw, Option.map_some, Nat.zero_add]
    rw [hsplit, List.getElem?_append_left hj] at hentry
    exact variableFault?_eq_none_iff_not_isRefused.mp (hbefore _ (List.mem_of_getElem? hentry))
  · simp only [variableFault?] at hfault
    split at hfault
    · exact Or.inl (Option.some.inj hfault).symm
    · split at hfault
      · exact Or.inr (Option.some.inj hfault).symm
      · cases hfault

/-- **Accepted problems.**  A problem is refused exactly if it has no variables or one of them is
refused, and the error names the first such variable.  As long as the bounds of binary variables
are finite these are the variables at fault.  A problem that is accepted starts from a box with
proper bounds for each variable. -/
theorem validate_refuses (problem : Problem α) :
    ((∃ fault, problem.validate = .error (.invalidProblem fault)) ↔
      problem.vars = [] ∨ ∃ v ∈ problem.vars, v.IsRefused) ∧
    ((∀ v ∈ problem.vars, v.kind = .binary → v.bounds.IsBounded) →
      ((∃ fault, problem.validate = .error (.invalidProblem fault)) ↔
        problem.vars = [] ∨ ∃ v ∈ problem.vars, v.IsFaulty)) ∧
    (∀ e, problem.validate = .error e →
      e = .invalidProblem .noVariables ∧ problem.vars = [] ∨
      ∃ var v, problem.vars[var]? = some v ∧ v.IsRefused ∧
        (∀ j < var, ∀ w, problem.vars[j]? = some w → ¬w.IsRefused) ∧
        (e = .invalidProblem (.nanBounds var) ∨
          e = .invalidProblem (.emptyDomain var v.rootInterval v.kind))) ∧
    ∀ d, problem.validate = .ok d → problem.IsRootBox d := by
  refine ⟨exists_error_iff, ?_, ?_, ?_⟩
  · intro hbounded
    rw [exists_error_iff]
    apply or_congr_right
    apply exists_congr
    intro v
    apply and_congr_right
    intro hv
    exact Variable.isRefused_iff_isFaulty (hbounded v hv)
  · intro e he
    obtain ⟨fault, hfault, rfl⟩ := validate_eq_error_iff.mp he
    by_cases hnil : problem.vars = []
    · left
      rw [fault?, if_pos (by simp [hnil])] at hfault
      obtain rfl := Option.some.inj hfault
      exact ⟨rfl, hnil⟩
    · right
      obtain ⟨var, v, hv, hrefused, hfirst, hnamed⟩ := exists_first_isRefused hfault hnil
      exact ⟨var, v, hv, hrefused, hfirst,
        hnamed.imp (congrArg SearchError.invalidProblem) (congrArg SearchError.invalidProblem)⟩
  · intro d hd
    obtain ⟨hnone, rfl⟩ := validate_eq_ok_iff.mp hd
    exact isRootBox_rootDomain hnone

/-- A problem whose second variable has its bounds in the wrong order. -/
def misordered : Problem Float :=
  .ofVariables [{ kind := .binary, bounds := ⟨Scalar.ofInt (-5), Scalar.ofInt 7⟩ },
    { kind := .integer, bounds := ⟨Scalar.ofInt 3, Scalar.ofInt 1⟩ }]

/-- The misordered variable is at fault, and the error names it. -/
theorem validate_misordered :
    (∀ v ∈ misordered.vars, v.kind = .binary → v.bounds.IsBounded) ∧
    misordered.validate = .error (.invalidProblem
      (.emptyDomain 1 ⟨Scalar.ofInt 3, Scalar.ofInt 1⟩ .integer)) ∧
    ∃ v ∈ misordered.vars, v.IsFaulty := by
  have hbounded : ∀ v ∈ misordered.vars, v.kind = .binary → v.bounds.IsBounded := by
    unfold Interval.IsBounded
    decide +kernel
  have herror : misordered.validate = .error (.invalidProblem
      (.emptyDomain 1 ⟨Scalar.ofInt 3, Scalar.ofInt 1⟩ .integer)) := by
    decide +kernel
  obtain ⟨-, hfaulty, -⟩ := validate_refuses misordered
  rcases (hfaulty hbounded).mp ⟨_, herror⟩ with hnil | hexists
  · cases hnil
  · exact ⟨hbounded, herror, hexists⟩

/-- A problem with one binary variable whose lower bound is not a number. -/
def halfDeclared : Problem Float :=
  .ofVariables [{ kind := .binary, bounds := ⟨Scalar.ofInt 0 / Scalar.ofInt 0, Scalar.ofInt 1⟩ }]

/-- The half declared variable is at fault, but the bound that is not a number gives way to zero
before it is tested, and the problem is accepted. -/
theorem validate_halfDeclared :
    (∃ v ∈ halfDeclared.vars, v.bounds.hasNaN = true ∧ v.IsFaulty) ∧
    halfDeclared.validate = .ok ⟨[.unit]⟩ := by
  have hnan : ∀ v ∈ halfDeclared.vars, v.bounds.hasNaN = true := by decide +kernel
  refine ⟨?_, by decide +kernel⟩
  obtain ⟨v, hv⟩ := List.exists_mem_of_ne_nil halfDeclared.vars (List.cons_ne_nil _ _)
  exact ⟨v, hv, hnan v hv, Or.inl (hnan v hv)⟩

end Problem

end BranchBound
