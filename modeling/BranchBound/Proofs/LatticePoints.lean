import BranchBound.Branching
import BranchBound.Proofs.IntegerParts

/-!
# Lattice points

Points of a box, and the points a problem is about: those in the root box with
integers in the integral coordinates.  A box with such a point is not malformed,
and replacing one interval of a box decides about that coordinate alone.
-/

namespace BranchBound

variable {α : Type}

/-! ## Replacing an interval -/

namespace Domain

theorem set?_eq_some {d d' : Domain α} {var : Nat} {i : Interval α}
    (h : d.set? var i = some d') : var < d.size ∧ d'.intervals = d.intervals.set var i := by
  unfold set? at h
  split at h
  · exact ⟨‹_›, by rw [← Option.some.inj h]⟩
  · cases h

theorem size_set? {d d' : Domain α} {var : Nat} {i : Interval α}
    (h : d.set? var i = some d') : d'.size = d.size := by
  rw [size, (set?_eq_some h).2, List.length_set]
  rfl

/-- Replacing an interval changes that interval alone. -/
theorem get?_set? {d d' : Domain α} {var : Nat} {i : Interval α}
    (h : d.set? var i = some d') (j : Nat) :
    d'.get? j = if j = var then some i else d.get? j := by
  obtain ⟨hlt, hset⟩ := set?_eq_some h
  rw [get?, hset, List.getElem?_set]
  by_cases hj : j = var
  · subst hj
    rw [if_pos rfl, if_pos rfl, if_pos (show j < d.intervals.length from hlt)]
  · rw [if_neg (Ne.symm hj), if_neg hj]
    rfl

end Domain

/-! ## Points -/

variable [Scalar α]

/-- A value between the bounds of an interval, without tolerance. -/
def Interval.Holds (i : Interval α) (a : α) : Prop :=
  i.lower ≤ a ∧ a ≤ i.upper

instance (i : Interval α) (a : α) : Decidable (i.Holds a) :=
  inferInstanceAs (Decidable (i.lower ≤ a ∧ a ≤ i.upper))

theorem Interval.contains_iff {i : Interval α} {a tol : α} :
    i.contains a tol = true ↔ i.lower - tol ≤ a ∧ a ≤ i.upper + tol := by
  rw [contains, Bool.and_eq_true, decide_eq_true_eq, decide_eq_true_eq]

theorem Interval.isSubsetOf_iff {i other : Interval α} :
    i.isSubsetOf other = true ↔ other.lower ≤ i.lower ∧ i.upper ≤ other.upper := by
  rw [isSubsetOf, Bool.and_eq_true, decide_eq_true_eq, decide_eq_true_eq]

/-- Without a tolerance an interval contains the values between its bounds. -/
theorem Interval.contains_zero_iff [LawfulScalar α] {i : Interval α} {a : α} :
    i.contains a (Scalar.ofInt 0) = true ↔ i.Holds a := by
  rw [contains_iff, Holds, LawfulScalar.le_iff_value, LawfulScalar.le_iff_value a,
    Scalar.value_sub_zero, Scalar.value_add_zero, ← LawfulScalar.le_iff_value,
    ← LawfulScalar.le_iff_value]

namespace Domain

/-- A point of a box: one coordinate for each interval, within its bounds. -/
def Holds (d : Domain α) (p : List α) : Prop :=
  p.length = d.size ∧ ∀ entry ∈ List.zip d.intervals p, entry.1.Holds entry.2

instance (d : Domain α) (p : List α) : Decidable (d.Holds p) :=
  inferInstanceAs (Decidable (_ ∧ _))

theorem holds_iff {d : Domain α} {p : List α} :
    d.Holds p ↔ p.length = d.size ∧
      ∀ (var : Nat) (i : Interval α) (a : α),
        d.get? var = some i → p[var]? = some a → i.Holds a := by
  refine and_congr_right fun _ => ?_
  constructor
  · intro h var i a hi ha
    apply h (i, a)
    rw [List.mem_iff_getElem?]
    exact ⟨var, List.getElem?_zip_eq_some.mpr ⟨hi, ha⟩⟩
  · rintro h ⟨i, a⟩ hmem
    obtain ⟨var, hvar⟩ := List.mem_iff_getElem?.mp hmem
    obtain ⟨hi, ha⟩ := List.getElem?_zip_eq_some.mp hvar
    exact h var i a hi ha

theorem Holds.length_eq {d : Domain α} {p : List α} (h : d.Holds p) : p.length = d.size :=
  h.1

theorem Holds.get {d : Domain α} {p : List α} (h : d.Holds p) {var : Nat} {i : Interval α}
    {a : α} (hi : d.get? var = some i) (ha : p[var]? = some a) : i.Holds a :=
  (holds_iff.mp h).2 var i a hi ha

/-- Two boxes that differ in one interval differ in the points whose coordinate is
in one of the two intervals only. -/
theorem holds_set?_iff {d d' : Domain α} {var : Nat} {old new : Interval α} {p : List α}
    {a : α} (hold : d.get? var = some old) (h : d.set? var new = some d')
    (ha : p[var]? = some a) :
    d'.Holds p ∧ old.Holds a ↔ d.Holds p ∧ new.Holds a := by
  simp only [holds_iff, size_set? h, get?_set? h]
  constructor
  · rintro ⟨⟨hlen, hall⟩, holdA⟩
    refine ⟨⟨hlen, ?_⟩, hall var new a (if_pos rfl) ha⟩
    intro j i b hi hb
    by_cases hj : j = var
    · subst hj
      obtain rfl := Option.some.inj (hold.symm.trans hi)
      obtain rfl := Option.some.inj (ha.symm.trans hb)
      exact holdA
    · exact hall j i b (by rwa [if_neg hj]) hb
  · rintro ⟨⟨hlen, hall⟩, hnewA⟩
    refine ⟨⟨hlen, ?_⟩, hall var old a hold ha⟩
    intro j i b hi hb
    by_cases hj : j = var
    · subst hj
      rw [if_pos rfl] at hi
      obtain rfl := Option.some.inj hi
      obtain rfl := Option.some.inj (ha.symm.trans hb)
      exact hnewA
    · rw [if_neg hj] at hi
      exact hall j i b hi hb

/-- Replacing an interval by one that is not empty does not make a box malformed. -/
theorem isMalformed_set? {d d' : Domain α} {var : Nat} {i : Interval α}
    (h : d.set? var i = some d') (hd : d.isMalformed = false) (hi : i.isEmpty = false) :
    d'.isMalformed = false := by
  rw [isMalformed, List.any_eq_false] at hd ⊢
  intro i' hi'
  rw [(set?_eq_some h).2] at hi'
  rcases List.mem_or_eq_of_mem_set hi' with hmem | rfl
  · exact hd i' hmem
  · simp [hi]

/-- A box with a point in it is not malformed. -/
theorem Holds.isMalformed_eq_false [LawfulScalar α] {d : Domain α} {p : List α}
    (h : d.Holds p) : d.isMalformed = false := by
  rw [← Bool.not_eq_true, isMalformed, List.any_eq_true]
  rintro ⟨i, hi, hempty⟩
  obtain ⟨var, hvar⟩ := List.mem_iff_getElem?.mp hi
  have hlt : var < p.length := by
    rw [h.length_eq]
    exact (List.getElem?_eq_some_iff.mp hvar).1
  obtain ⟨hlow, hhigh⟩ := h.get hvar (List.getElem?_eq_getElem hlt)
  have hbounds := Scalar.not_lt_of_le (Scalar.le_trans hlow hhigh)
  exact hbounds (by simpa [Interval.isEmpty] using hempty)

end Domain

namespace Problem

/-- A point with an integer in every integral coordinate. -/
def IsIntegerPoint (problem : Problem α) (p : List α) : Prop :=
  ∀ (var : Nat) (v : Variable α) (a : α), problem.vars[var]? = some v → p[var]? = some a →
    v.kind.isIntegral = true → Scalar.IsInteger a

/-- A point of the root box with an integer in every integral coordinate. -/
def IsLatticePoint (problem : Problem α) (p : List α) : Prop :=
  problem.rootDomain.Holds p ∧ problem.IsIntegerPoint p

end Problem

end BranchBound
