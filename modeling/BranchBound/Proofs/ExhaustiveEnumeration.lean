import BranchBound.Proofs.Binary64.Lawful
import BranchBound.Proofs.EqualValues
import BranchBound.Proofs.LatticePoints
import BranchBound.Proofs.Odometer
import BranchBound.Relaxation.Linear

/-!
# Exhaustive enumeration

The enumeration of a pure integer model is exhaustive: it tries each integer point of the box
once, and keeps the first of the best feasible ones.  This holds in any lawful number system,
as long as the bounds of the box are finite and of at most 53 bits, so that every integer of
the box is a scalar.

The points of the box are tried as scalars of integers.  What is found is compared with all
points whose coordinates have integers as values, those with negative zeros included.
-/

namespace BranchBound

variable {α : Type} [Scalar α] [LawfulScalar α]

/-! ## Intervals and their integers -/

theorem Scalar.value_eq_finite_exact {a : α} (h : Scalar.isFinite a = true) :
    Scalar.value a = .finite (Scalar.exact a) := by
  obtain ⟨r, hr⟩ := Scalar.isFinite_iff.mp h
  rw [hr, Scalar.exact, Scalar.value_eq_finite_iff.mp hr, Option.getD_some]

theorem Scalar.ofInt_le_ofInt {m n : ℤ} (h : m ≤ n) : (Scalar.ofInt m : α) ≤ Scalar.ofInt n :=
  (LawfulScalar.le_iff_value _ _).mpr (LawfulScalar.rounded_mono (Rat.intCast_le_intCast.mpr h))

namespace Interval

/-- An interval with finite bounds of at most 53 bits.  All integers of it are scalars. -/
structure IsModerate (i : Interval α) : Prop where
  finite_lower : Scalar.isFinite i.lower = true
  finite_upper : Scalar.isFinite i.upper = true
  lower_bound : |Scalar.exact i.lower| ≤ 2 ^ 53
  upper_bound : |Scalar.exact i.upper| ≤ 2 ^ 53

/-- An integer of an interval. -/
def HoldsInteger (i : Interval α) (n : ℤ) : Prop :=
  Scalar.exact i.lower ≤ n ∧ n ≤ Scalar.exact i.upper

/-- The integers of an interval. -/
def integers (i : Interval α) : Enumeration.Span where
  start := (Scalar.exact i.lower).ceil
  count := ((Scalar.exact i.upper).floor - (Scalar.exact i.lower).ceil + 1).toNat

variable {i : Interval α} {n : ℤ}

omit [LawfulScalar α] in
theorem holdsInteger_iff : i.HoldsInteger n ↔ i.integers.start ≤ n ∧ n ≤ i.integers.last := by
  rw [HoldsInteger, ← Rat.ceil_le_iff, ← Rat.le_floor_iff]
  simp only [integers, Enumeration.Span.last]
  omega

namespace IsModerate

theorem value_lower (h : i.IsModerate) : Scalar.value i.lower = .finite (Scalar.exact i.lower) :=
  Scalar.value_eq_finite_exact h.finite_lower

theorem value_upper (h : i.IsModerate) : Scalar.value i.upper = .finite (Scalar.exact i.upper) :=
  Scalar.value_eq_finite_exact h.finite_upper

omit [LawfulScalar α] in
theorem ceil_bounds (h : i.IsModerate) :
    -2 ^ 53 ≤ (Scalar.exact i.lower).ceil ∧ (Scalar.exact i.lower).ceil ≤ 2 ^ 53 := by
  obtain ⟨hlow, hhigh⟩ := abs_le.mp h.lower_bound
  constructor
  · have hceil := hlow.trans Rat.le_ceil
    exact_mod_cast hceil
  · rw [Rat.ceil_le_iff]
    exact_mod_cast hhigh

omit [LawfulScalar α] in
theorem floor_bounds (h : i.IsModerate) :
    -2 ^ 53 ≤ (Scalar.exact i.upper).floor ∧ (Scalar.exact i.upper).floor ≤ 2 ^ 53 := by
  obtain ⟨hlow, hhigh⟩ := abs_le.mp h.upper_bound
  constructor
  · rw [Rat.le_floor_iff]
    exact_mod_cast hlow
  · have hfloor := (Rat.floor_le _).trans hhigh
    exact_mod_cast hfloor

/-- The integers of a moderate interval are scalars. -/
theorem value_ofInt (h : i.IsModerate) (hn : i.HoldsInteger n) :
    Scalar.value (Scalar.ofInt n : α) = .finite n := by
  apply LawfulScalar.value_ofInt
  have hceil := Rat.ceil_le_iff.mpr hn.1
  have hfloor := Rat.le_floor_iff.mpr hn.2
  have hlow := h.ceil_bounds.1
  have hhigh := h.floor_bounds.2
  omega

/-- A moderate interval holds the scalars of its integers. -/
theorem holds_iff (h : i.IsModerate) {a : α} (ha : Scalar.value a = .finite n) :
    i.Holds a ↔ i.HoldsInteger n := by
  rw [Holds, LawfulScalar.le_iff_value, LawfulScalar.le_iff_value a, h.value_lower, h.value_upper,
    ha, Exact.finite_le_finite, Exact.finite_le_finite]
  rfl

end IsModerate

end Interval

namespace Enumeration

variable {i : Interval α}

theorem toInt?_of_value {a : α} {n : ℤ} (h : Scalar.value a = .finite n) :
    Scalar.toInt? a = some n := by
  rw [Scalar.toInt?, Scalar.value_eq_finite_iff.mp h, Option.map_some, Rat.floor_intCast]

/-- The checks for 64-bit integers let moderate bounds pass. -/
theorem within_of_value {a : α} {n : ℤ} (h : Scalar.value a = .finite n) (hlow : -2 ^ 53 ≤ n)
    (hhigh : n ≤ 2 ^ 53) : ¬a < Scalar.ofInt minInt ∧ ¬Scalar.ofInt maxInt < a := by
  have hn : Scalar.value (Scalar.ofInt n : α) = .finite n := by
    apply LawfulScalar.value_ofInt
    omega
  have hmin : minInt ≤ n := le_trans (by decide) hlow
  have hmax : n ≤ maxInt := hhigh.trans (by decide)
  rw [Scalar.lt_congr (h.trans hn.symm) rfl, Scalar.lt_congr rfl (h.trans hn.symm)]
  exact ⟨Scalar.not_lt_of_le (Scalar.ofInt_le_ofInt hmin),
    Scalar.not_lt_of_le (Scalar.ofInt_le_ofInt hmax)⟩

/-- The span of a moderate interval is that of its integers. -/
theorem span?_of_isModerate (h : i.IsModerate) (var : ℕ) :
    span? var i = .ok (if i.integers.count = 0 then none else some i.integers) := by
  have hlower := Scalar.value_ceil_of_finite h.value_lower
  have hupper := Scalar.value_floor_of_finite h.value_upper
  obtain ⟨hlow, hlow'⟩ := h.ceil_bounds
  obtain ⟨hhigh, hhigh'⟩ := h.floor_bounds
  have hempty : Scalar.floor i.upper < Scalar.ceil i.lower ↔ i.integers.count = 0 := by
    rw [LawfulScalar.lt_iff_value, hlower, hupper, Exact.finite_lt_finite, Rat.intCast_lt_intCast,
      Interval.integers, Int.toNat_eq_zero]
    omega
  rw [span?, h.finite_lower, h.finite_upper]
  simp only [Bool.not_true, Bool.or_self, Bool.false_eq_true, if_false, hempty,
    toInt?_of_value hlower, toInt?_of_value hupper]
  by_cases hcount : i.integers.count = 0
  · rw [if_pos hcount, if_pos hcount]
  · have hle : (Scalar.exact i.lower).ceil ≤ (Scalar.exact i.upper).floor := by
      simp only [Interval.integers] at hcount
      omega
    have hfew : ¬maxInt < (Scalar.exact i.upper).floor - (Scalar.exact i.lower).ceil + 1 := by
      have hmax : 2 ^ 54 + 1 ≤ maxInt := by decide
      omega
    have hleast := within_of_value hlower hlow hlow'
    have hgreatest := within_of_value hupper hhigh hhigh'
    rw [if_neg hcount, if_neg hcount, if_neg (not_or.mpr ⟨hleast.1, hgreatest.2⟩),
      saturate_eq (le_trans (by decide) hlow) (hlow'.trans (by decide)),
      saturate_eq (le_trans (by decide) hhigh) (hhigh'.trans (by decide)), if_neg hfew]
    rfl

/-- The counts of the values exceed the limit, once the first `k` of them are multiplied, and
none of these is zero. -/
def Exceeds (counts : List ℕ) (points : ℕ) : Prop :=
  ∃ k, (∀ c ∈ counts.take k, 0 < c) ∧ maxPoints < points * (counts.take k).prod

theorem exceeds_cons {c : ℕ} {counts : List ℕ} {points : ℕ} (h : points ≤ maxPoints) :
    Exceeds (c :: counts) points ↔ 0 < c ∧ Exceeds counts (points * c) := by
  constructor
  · rintro ⟨_ | k, hpos, hlt⟩
    · rw [List.take_zero, List.prod_nil, mul_one] at hlt
      exact absurd hlt h.not_gt
    · rw [List.take_succ_cons, List.forall_mem_cons] at hpos
      rw [List.take_succ_cons, List.prod_cons, ← mul_assoc] at hlt
      exact ⟨hpos.1, k, hpos.2, hlt⟩
  · rintro ⟨hc, k, hpos, hlt⟩
    refine ⟨k + 1, ?_, ?_⟩
    · rw [List.take_succ_cons, List.forall_mem_cons]
      exact ⟨hc, hpos⟩
    · rw [List.take_succ_cons, List.prod_cons, ← mul_assoc]
      exact hlt

theorem not_exceeds_nil {points : ℕ} (h : points ≤ maxPoints) : ¬Exceeds [] points := by
  rintro ⟨k, -, hlt⟩
  rw [List.take_nil, List.prod_nil, mul_one] at hlt
  exact absurd hlt h.not_gt

/-- How many integers some intervals have. -/
def counts (intervals : List (Interval α)) : List ℕ :=
  intervals.map fun i => i.integers.count

/-- The spans of some intervals, with `points` choices of values for the intervals before them:
they are refused if the counts exceed the limit, and there are none if an interval without
integers is met first. -/
inductive SpansOf (intervals : List (Interval α)) (points : ℕ) :
    Except EnumerationFault (Option (List Span)) → Prop
  | refused (hmany : Exceeds (counts intervals) points) :
      SpansOf intervals points (.error .tooManyPoints)
  | absent (hfew : ¬Exceeds (counts intervals) points)
      (hempty : ∃ i ∈ intervals, i.integers.count = 0) :
      SpansOf intervals points (.ok none)
  | found (hfew : ¬Exceeds (counts intervals) points)
      (hcounts : ∀ i ∈ intervals, 0 < i.integers.count) :
      SpansOf intervals points (.ok (some (intervals.map Interval.integers)))

theorem spansOf_spans?
    {intervals : List (Interval α)} (h : ∀ i ∈ intervals, i.IsModerate) (var : ℕ) {points : ℕ}
    (hpoints : points ≤ maxPoints) :
    SpansOf intervals points (spans? (intervals.zipIdx var) points) := by
  induction intervals generalizing var points with
  | nil => exact .found (not_exceeds_nil hpoints) (by simp)
  | cons i intervals ih =>
      rw [List.forall_mem_cons] at h
      have hexceeds : Exceeds (counts (i :: intervals)) points ↔
          0 < i.integers.count ∧ Exceeds (counts intervals) (points * i.integers.count) :=
        exceeds_cons hpoints
      rw [List.zipIdx_cons, spans?, span?_of_isModerate h.1]
      rcases Nat.eq_zero_or_pos i.integers.count with hcount | hcount
      · rw [if_pos hcount]
        refine .absent ?_ ⟨i, List.mem_cons_self, hcount⟩
        rw [hexceeds, hcount]
        exact fun h => lt_irrefl 0 h.1
      · rw [if_neg hcount.ne']
        dsimp only
        by_cases hmany : maxPoints < points * i.integers.count
        · rw [if_pos hmany]
          refine .refused (hexceeds.mpr ⟨hcount, 0, by simp, ?_⟩)
          rwa [List.take_zero, List.prod_nil, mul_one]
        · rw [if_neg hmany]
          have hrest := ih h.2 (var + 1) (not_lt.mp hmany)
          generalize spans? (intervals.zipIdx (var + 1)) (points * i.integers.count) =
            answer at hrest
          cases hrest with
          | refused hmany => exact .refused (hexceeds.mpr ⟨hcount, hmany⟩)
          | absent hfew hempty =>
              obtain ⟨j, hj, hzero⟩ := hempty
              exact .absent (fun h => hfew (hexceeds.mp h).2)
                ⟨j, List.mem_cons_of_mem i hj, hzero⟩
          | found hfew hcounts =>
              exact .found (fun h => hfew (hexceeds.mp h).2)
                (List.forall_mem_cons.mpr ⟨hcount, hcounts⟩)

end Enumeration

/-! ## Integer points of a box -/

/-- An integer point of a box. -/
def Domain.HoldsIntegers (d : Domain α) (z : List ℤ) : Prop :=
  List.Forall₂ Interval.HoldsInteger d.intervals z

namespace Domain

variable {d : Domain α} {z : List ℤ}

/-- The points that the loop over a box passes. -/
def odometer (d : Domain α) : List (List ℤ) :=
  let spans := d.intervals.map Interval.integers
  Enumeration.odometer spans (spans.map Enumeration.Span.start)

omit [LawfulScalar α] in
theorem odometer_eq_sections (h : ∀ i ∈ d.intervals, 0 < i.integers.count) :
    d.odometer =
      ((d.intervals.map Interval.integers).map Enumeration.Span.integers).sections :=
  Enumeration.odometer_start (List.forall_mem_map.mpr h)

omit [LawfulScalar α] in
/-- The loop over a box without an empty interval passes its integer points. -/
theorem mem_odometer_iff (h : ∀ i ∈ d.intervals, 0 < i.integers.count) :
    z ∈ d.odometer ↔ d.HoldsIntegers z := by
  rw [odometer, Enumeration.mem_odometer_iff (List.forall_mem_map.mpr h),
    List.forall₂_map_right_iff]
  simp only [← Interval.holdsInteger_iff]
  exact ⟨List.Forall₂.flip, List.Forall₂.flip⟩

omit [LawfulScalar α] in
theorem HoldsIntegers.count_pos (h : d.HoldsIntegers z) :
    ∀ i ∈ d.intervals, 0 < i.integers.count := by
  rw [HoldsIntegers] at h
  generalize d.intervals = intervals at h ⊢
  induction h with
  | nil => simp
  | cons hn _ ih =>
      rw [List.forall_mem_cons]
      refine ⟨?_, ih⟩
      rw [Interval.holdsInteger_iff, Enumeration.Span.last] at hn
      omega

/-- Integers of moderate intervals are the values of their scalars. -/
theorem map_value_ofInt
    {intervals : List (Interval α)} (h : ∀ i ∈ intervals, i.IsModerate)
    (hz : List.Forall₂ Interval.HoldsInteger intervals z) :
    (z.map (Scalar.ofInt : ℤ → α)).map Scalar.value = z.map fun n => .finite n := by
  induction hz with
  | nil => rfl
  | cons hn _ ih =>
      rw [List.forall_mem_cons] at h
      simp only [List.map_cons, ih h.2, h.1.value_ofInt hn]

/-- The points of moderate intervals with integers as coordinates have the values of integers
of the intervals. -/
theorem forall₂_holds_iff
    {intervals : List (Interval α)} (h : ∀ i ∈ intervals, i.IsModerate) {y : List α} :
    List.Forall₂ (fun i a => i.Holds a ∧ Scalar.IsInteger a) intervals y ↔
      ∃ z, List.Forall₂ Interval.HoldsInteger intervals z ∧
        y.map Scalar.value = z.map fun n => .finite n := by
  induction intervals generalizing y with
  | nil => simp
  | cons i intervals ih =>
      rw [List.forall_mem_cons] at h
      simp only [List.forall₂_cons_left_iff, ih h.2]
      constructor
      · rintro ⟨a, y, ⟨hholds, n, hn⟩, ⟨z, hz, hy⟩, rfl⟩
        refine ⟨n :: z, ⟨n, z, (h.1.holds_iff hn).mp hholds, hz, rfl⟩, ?_⟩
        rw [List.map_cons, List.map_cons, hn, hy]
      · rintro ⟨_, ⟨n, z, hn, hz, rfl⟩, hy⟩
        obtain ⟨a, y, rfl, ha, hy⟩ := List.map_eq_cons_iff.mp hy
        exact ⟨a, y, ⟨(h.1.holds_iff ha).mpr hn, n, ha⟩, ⟨z, hz, hy⟩, rfl⟩

end Domain

namespace LinearModel

variable {m : LinearModel α} {z : List ℤ}

omit [LawfulScalar α] in
/-- The lattice points of a pure integer model are the points of its box with integers as
coordinates. -/
theorem isLatticePoint_iff_forall₂ (hinteger : m.isPureInteger = true) {y : List α} :
    m.problem.IsLatticePoint y ↔
      List.Forall₂ (fun i a => i.Holds a ∧ Scalar.IsInteger a) m.rootDomain.intervals y := by
  have hintervals : ∀ var : ℕ, m.rootDomain.intervals[var]? =
      (m.vars[var]?).map Variable.rootInterval := fun _ => List.getElem?_map
  rw [List.forall₂_iff_zip]
  constructor
  · rintro ⟨⟨hlength, hholds⟩, hpoint⟩
    refine ⟨hlength.symm, ?_⟩
    intro i a hmem
    obtain ⟨var, hvar⟩ := List.mem_iff_getElem?.mp hmem
    obtain ⟨hi, ha⟩ := List.getElem?_zip_eq_some.mp hvar
    rw [hintervals, Option.map_eq_some_iff] at hi
    obtain ⟨v, hv, rfl⟩ := hi
    exact ⟨hholds _ hmem, hpoint var v a hv ha
      (List.all_eq_true.mp hinteger v (List.mem_of_getElem? hv))⟩
  · rintro ⟨hlength, hentries⟩
    refine ⟨⟨hlength.symm, fun entry hentry => (hentries hentry).1⟩, ?_⟩
    intro var v a hv ha _
    have hi : m.rootDomain.intervals[var]? = some v.rootInterval := by
      rw [hintervals, show m.vars[var]? = some v from hv, Option.map_some]
    exact (hentries (List.mem_of_getElem? (List.getElem?_zip_eq_some.mpr ⟨hi, ha⟩))).2

theorem isLatticePoint_iff (hinteger : m.isPureInteger = true)
    (hbounds : ∀ i ∈ m.rootDomain.intervals, i.IsModerate) {y : List α} :
    m.problem.IsLatticePoint y ↔
      ∃ z, m.rootDomain.HoldsIntegers z ∧ y.map Scalar.value = z.map fun n => .finite n := by
  rw [isLatticePoint_iff_forall₂ hinteger]
  exact Domain.forall₂_holds_iff hbounds

end LinearModel

/-! ## The answer -/

namespace LinearModel

/-- A feasible integer point that no other one undercuts.  The feasible points before it have
greater objectives. -/
structure IsFirstBest (m : LinearModel α) (tol least : α) (x : List α) : Prop where
  lattice : m.problem.IsLatticePoint x
  feasible : m.isFeasible x tol = true
  objective : m.objectiveValue x = least
  not_undercut : ∀ y, m.problem.IsLatticePoint y → m.isFeasible y tol = true →
    ¬m.objectiveValue y < least
  first : ∃ z, m.rootDomain.HoldsIntegers z ∧ x = z.map Scalar.ofInt ∧
    ∀ z', m.rootDomain.HoldsIntegers z' → Enumeration.Precedes z' z →
      m.isFeasible (z'.map Scalar.ofInt) tol = true →
        least < m.objectiveValue (z'.map Scalar.ofInt)

/-- An answer that comes from trying each integer point of a model once. -/
structure IsExhaustive (m : LinearModel α) (tol : α)
    (answer : Except EnumerationFault (Option (α × List α))) : Prop where
  found : ∀ least x, answer = .ok (some (least, x)) → m.IsFirstBest tol least x
  absent : answer = .ok none → ∀ y, m.problem.IsLatticePoint y → m.isFeasible y tol = false
  refused : (∃ fault, answer = .error fault) ↔
    Enumeration.Exceeds (Enumeration.counts m.rootDomain.intervals) 1
  nodup : m.rootDomain.odometer.Nodup
  passes : (∀ i ∈ m.rootDomain.intervals, 0 < i.integers.count) →
    ∀ z, z ∈ m.rootDomain.odometer ↔ m.rootDomain.HoldsIntegers z
  tries : (∀ i ∈ m.rootDomain.intervals, 0 < i.integers.count) → ∀ kept, answer = .ok kept →
    kept = (m.rootDomain.odometer.map (List.map Scalar.ofInt)).foldl
      (Enumeration.keepBetter (m.isFeasible · tol) m.objectiveValue) none

end LinearModel

namespace Enumeration

variable {m : LinearModel α} {tol : α}

omit [LawfulScalar α] in
/-- Points with a value outside its interval are not feasible, so that they can be left out. -/
theorem keepBetter_isFeasible
    (objective : List α → α) (best : Option (α × List α)) {x : List α}
    (h : x.length = m.rootDomain.size) :
    keepBetter (m.isFeasible · tol) objective best x =
      if (List.zipWith (fun i a => i.contains a tol) m.rootDomain.intervals x).all id = true then
        keepBetter (m.satisfiesRows · tol) objective best x
      else best := by
  have hnumber : x.length = m.numVars := h.trans (List.length_map _)
  have hfeasible : m.isFeasible x tol =
      ((List.zipWith (fun i a => i.contains a tol) m.rootDomain.intervals x).all id &&
        m.satisfiesRows x tol) := by
    rw [LinearModel.isFeasible, Domain.contains, h, ← hnumber, h, beq_self_eq_true,
      Bool.true_and, Bool.true_and]
  simp only [keepBetter, hfeasible, Bool.and_eq_true, ite_and]

omit [LawfulScalar α] in
/-- The nested visits try the points that the loop passes. -/
theorem foldPoints_eq_odometer (h : ∀ i ∈ m.rootDomain.intervals, 0 < i.integers.count) :
    foldPoints (consider m tol) (admissibleValues m.rootDomain tol
        (m.rootDomain.intervals.map Interval.integers)).reverse [] none =
      (m.rootDomain.odometer.map (List.map Scalar.ofInt)).foldl
        (keepBetter (m.isFeasible · tol) m.objectiveValue) none := by
  have hsections : (admissibleValues m.rootDomain tol
      (m.rootDomain.intervals.map Interval.integers)).sections =
        (m.rootDomain.odometer.map (List.map Scalar.ofInt)).filter fun x =>
          (List.zipWith (fun i a => i.contains a tol) m.rootDomain.intervals x).all id := by
    have hvalues : (m.rootDomain.intervals.map Interval.integers).map Span.values =
        ((m.rootDomain.intervals.map Interval.integers).map Span.integers).map
          (List.map (Scalar.ofInt : ℤ → α)) := by
      rw [List.map_congr_left fun span _ => span.values_eq_map]
      exact List.map_map.symm
    rw [m.rootDomain.odometer_eq_sections h, ← sections_map, ← hvalues,
      ← sections_zipWith_filter, List.zipWith_map_right, admissibleValues]
    rw [List.length_map, List.length_map]
  rw [foldPoints_eq_foldl, points_reverse, hsections, List.foldl_filter]
  apply List.foldl_ext
  intro best x hx
  obtain ⟨z, hz, rfl⟩ := List.mem_map.mp hx
  have hlength := ((m.rootDomain.mem_odometer_iff h).mp hz).length_eq
  exact (keepBetter_isFeasible _ best ((List.length_map _).trans hlength.symm)).symm

variable {least : α} {x : List α}

/-- The best of the points that the loop passes is the best of all lattice points. -/
theorem IsBest.of_lattice
    (hinteger : m.isPureInteger = true) (hbounds : ∀ i ∈ m.rootDomain.intervals, i.IsModerate)
    (hcounts : ∀ i ∈ m.rootDomain.intervals, 0 < i.integers.count)
    {kept : Option (α × List α)}
    (h : IsBest (m.isFeasible · tol) m.objectiveValue
      (m.rootDomain.odometer.map (List.map Scalar.ofInt)) kept)
    {y : List α} (hy : m.problem.IsLatticePoint y) (hfeasible : m.isFeasible y tol = true) :
    ∃ least x, kept = some (least, x) ∧ ¬m.objectiveValue y < least := by
  obtain ⟨z, hz, hvalues⟩ := (LinearModel.isLatticePoint_iff hinteger hbounds).mp hy
  have hsame := hvalues.trans (Domain.map_value_ofInt hbounds hz).symm
  have hmem := List.mem_map_of_mem (f := List.map (Scalar.ofInt : ℤ → α))
    ((m.rootDomain.mem_odometer_iff hcounts).mpr hz)
  rw [LinearModel.isFeasible_congr hsame] at hfeasible
  rcases kept with _ | ⟨least, x⟩
  · exact absurd hfeasible (Bool.eq_false_iff.mp (h _ hmem))
  · refine ⟨least, x, rfl, ?_⟩
    rw [Scalar.lt_congr (LinearModel.value_objectiveValue_congr hsame) rfl]
    exact h.2.2.2 _ hmem hfeasible

theorem isFirstBest_of_foldl
    (hinteger : m.isPureInteger = true) (hbounds : ∀ i ∈ m.rootDomain.intervals, i.IsModerate)
    (hcounts : ∀ i ∈ m.rootDomain.intervals, 0 < i.integers.count)
    (hnumbers : ∀ z, m.rootDomain.HoldsIntegers z →
      m.isFeasible (z.map Scalar.ofInt) tol = true →
        Scalar.isNaN (m.objectiveValue (z.map Scalar.ofInt)) = false)
    {least : α} {x : List α}
    (h : (m.rootDomain.odometer.map (List.map Scalar.ofInt)).foldl
      (keepBetter (m.isFeasible · tol) m.objectiveValue) none = some (least, x)) :
    m.IsFirstBest tol least x := by
  have hpasses : ∀ z, z ∈ m.rootDomain.odometer ↔ m.rootDomain.HoldsIntegers z :=
    fun _ => m.rootDomain.mem_odometer_iff hcounts
  have hbest : IsBest (m.isFeasible · tol) m.objectiveValue _ _ :=
    isBest_foldl (m.rootDomain.odometer.map (List.map Scalar.ofInt))
  rw [h] at hbest
  have hnumbers' : ∀ y ∈ m.rootDomain.odometer.map (List.map Scalar.ofInt),
      m.isFeasible y tol = true → Scalar.isNaN (m.objectiveValue y) = false := by
    rw [List.forall_mem_map]
    intro z hz
    exact hnumbers z ((hpasses z).mp hz)
  obtain ⟨before, after, hsplit, hbefore⟩ := exists_before_of_foldl hnumbers' h
  obtain ⟨before, tail, hodometer, rfl, htail⟩ := List.map_eq_append_iff.mp hsplit
  obtain ⟨z, after, rfl, rfl, rfl⟩ := List.map_eq_cons_iff.mp htail
  have hz : m.rootDomain.HoldsIntegers z := by
    rw [← hpasses, hodometer]
    exact List.mem_append_right _ List.mem_cons_self
  have horder := pairwise_odometer (m.rootDomain.intervals.map Interval.integers)
    ((m.rootDomain.intervals.map Interval.integers).map Span.start)
  rw [show odometer _ _ = _ from hodometer] at horder
  refine ⟨?_, hbest.2.1, hbest.2.2.1.symm, ?_, z, hz, rfl, ?_⟩
  · rw [LinearModel.isLatticePoint_iff hinteger hbounds]
    exact ⟨z, hz, Domain.map_value_ofInt hbounds hz⟩
  · intro y hy hfeasible
    obtain ⟨_, _, hkept, hle⟩ := hbest.of_lattice hinteger hbounds hcounts hy hfeasible
    obtain ⟨rfl, rfl⟩ := Prod.mk.inj (Option.some.inj hkept)
    exact hle
  · intro z' hz' hprecedes hfeasible
    rw [← hpasses, hodometer] at hz'
    exact hbefore _ (List.mem_map_of_mem (mem_of_precedes horder hz' hprecedes)) hfeasible

/-- **Enumerations are exhaustive.**  The enumeration of a pure integer model with moderate
bounds, none of whose feasible points has an objective that is not a number, answers as if a
loop had tried every integer point of the box once: it finds the first of the best feasible
points, or nothing only if no point is feasible, and it refuses only if the counts of the
values exceed the limit before a variable without values is met. -/
theorem best_isExhaustive
    (hinteger : m.isPureInteger = true) (hbounds : ∀ i ∈ m.rootDomain.intervals, i.IsModerate)
    (hnumbers : ∀ z, m.rootDomain.HoldsIntegers z →
      m.isFeasible (z.map Scalar.ofInt) tol = true →
        Scalar.isNaN (m.objectiveValue (z.map Scalar.ofInt)) = false) :
    m.IsExhaustive tol (best m tol) := by
  have hspans := spansOf_spans? hbounds 0 (show 1 ≤ maxPoints by decide)
  have hnodup : m.rootDomain.odometer.Nodup := nodup_odometer _ _
  have hpasses : (∀ i ∈ m.rootDomain.intervals, 0 < i.integers.count) →
      ∀ z, z ∈ m.rootDomain.odometer ↔ m.rootDomain.HoldsIntegers z :=
    fun h _ => m.rootDomain.mem_odometer_iff h
  rw [best, hinteger]
  simp only [Bool.not_true, Bool.false_eq_true, if_false]
  generalize spans? m.rootDomain.intervals.zipIdx 1 = spans at hspans
  rcases hspans with hmany | ⟨hfew, hempty⟩ | ⟨hfew, hcounts⟩
  · exact ⟨nofun, nofun, ⟨fun _ => hmany, fun _ => ⟨_, rfl⟩⟩, hnodup, hpasses, fun _ => nofun⟩
  · obtain ⟨i, hi, hzero⟩ := hempty
    refine ⟨nofun, ?_, ⟨nofun, fun hmany => absurd hmany hfew⟩, hnodup, hpasses, ?_⟩
    · intro _ y hy
      obtain ⟨z, hz, -⟩ := (LinearModel.isLatticePoint_iff hinteger hbounds).mp hy
      exact absurd hzero (hz.count_pos i hi).ne'
    · intro hcounts
      exact absurd hzero (hcounts i hi).ne'
  · simp only [foldPoints_eq_odometer hcounts]
    refine ⟨?_, ?_, ⟨nofun, fun hmany => absurd hmany hfew⟩, hnodup, hpasses, ?_⟩
    · intro least x h
      exact isFirstBest_of_foldl hinteger hbounds hcounts hnumbers (Except.ok.inj h)
    · intro h y hy
      rw [Bool.eq_false_iff]
      intro hfeasible
      have hbest : IsBest (m.isFeasible · tol) m.objectiveValue _ _ :=
        isBest_foldl (m.rootDomain.odometer.map (List.map Scalar.ofInt))
      obtain ⟨least, x, hkept, -⟩ := hbest.of_lattice hinteger hbounds hcounts hy hfeasible
      rw [Except.ok.inj h] at hkept
      cases hkept
    · intro _ kept h
      exact (Except.ok.inj h).symm

/-- A model with bounds that are no integers and with two best points. -/
def slanted : LinearModel Float where
  name := ""
  objective := [Scalar.ofInt (-1), Scalar.ofInt (-1)]
  vars := [{ kind := .integer, bounds := ⟨Scalar.ofRat (-3 / 2), Scalar.ofRat (17 / 4)⟩ },
    { kind := .integer, bounds := ⟨Scalar.ofRat (1 / 2), Scalar.ofInt 4⟩ }]
  constraints := [⟨[(0, Scalar.ofInt 2), (1, Scalar.ofInt 3)], .le, Scalar.ofInt 12⟩]

/-- Of the points `(4, 1)` and `(3, 2)` the enumeration finds the one that comes first. -/
theorem best_slanted_isExhaustive :
    let tol : Float := Scalar.decimal 1 9
    (∀ i ∈ slanted.rootDomain.intervals, i.IsModerate) ∧
    slanted.isFeasible [Scalar.ofInt 3, Scalar.ofInt 2] tol = true ∧
    slanted.objectiveValue [Scalar.ofInt 3, Scalar.ofInt 2] = Scalar.ofInt (-5) ∧
    best slanted tol = .ok (some (Scalar.ofInt (-5), [Scalar.ofInt 4, Scalar.ofInt 1])) ∧
    slanted.IsExhaustive tol (best slanted tol) := by
  intro tol
  have hbounds : ∀ i ∈ slanted.rootDomain.intervals, i.IsModerate := by
    have hends : ∀ i ∈ slanted.rootDomain.intervals,
        Scalar.isFinite i.lower = true ∧ Scalar.isFinite i.upper = true ∧
        |Scalar.exact i.lower| ≤ 2 ^ 53 ∧ |Scalar.exact i.upper| ≤ 2 ^ 53 := by
      decide +kernel
    intro i hi
    obtain ⟨hlower, hupper, hlow, hhigh⟩ := hends i hi
    exact ⟨hlower, hupper, hlow, hhigh⟩
  have hcounts : ∀ i ∈ slanted.rootDomain.intervals, 0 < i.integers.count := by
    decide +kernel
  have hnumbers : ∀ z ∈ slanted.rootDomain.odometer,
      Scalar.isNaN (slanted.objectiveValue (z.map Scalar.ofInt)) = false := by
    rw [Domain.odometer_eq_sections hcounts]
    decide +kernel
  refine ⟨hbounds, by decide +kernel, by decide +kernel, by decide +kernel, ?_⟩
  apply best_isExhaustive (by decide +kernel) hbounds
  intro z hz _
  exact hnumbers z ((Domain.mem_odometer_iff hcounts).mpr hz)

end Enumeration

end BranchBound
