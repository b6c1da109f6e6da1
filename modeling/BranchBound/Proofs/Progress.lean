import BranchBound.Proofs.Binary64.Tolerances
import BranchBound.Proofs.LoopHeads

/-!
# Progress of branching

The two halves of a box are part of it, and differ from it in the split variable alone.
Whether they are smaller depends on how a widened bound was rounded: a half is the whole
box again exactly if the box ends at an integer and the value exceeds that end by more
than the tolerance, although the test with the rounded bound has let it pass.  In exact
arithmetic this does not happen; on floats it does.
-/

namespace BranchBound

namespace Scalar

variable {α : Type} [Scalar α] [LawfulScalar α] [NearestScalar α] {u l tol a : α} {r q : ℚ}

/-- The floor of a fractional value is below an upper bound, unless the bound is an integer
that the value exceeds by more than the tolerance. -/
theorem floor_lt_iff (h : a ≤ u + tol) (ha : value a = .finite r)
    (htol : value tol = .finite q) (hnonneg : 0 ≤ q) (hfrac : ∀ m : ℤ, q < |r - m|) :
    floor a < u ↔ (IsInteger u → value a ≤ value u + value tol) := by
  have hle := floor_le_of_le_add h ha htol hnonneg hfrac
  have hdist := hfrac r.floor
  rw [abs_of_nonneg (sub_nonneg.mpr (Rat.floor_le r))] at hdist
  rw [LawfulScalar.le_iff_value, value_floor_of_finite ha] at hle
  rw [LawfulScalar.lt_iff_value, value_floor_of_finite ha, ha, htol]
  constructor
  · rintro hlt ⟨n, hn⟩
    rw [hn, Exact.finite_lt_finite] at hlt
    rw [hn, Exact.finite_add_finite, Exact.finite_le_finite]
    have hlt' : r < n := Rat.floor_lt_iff.mp (by exact_mod_cast hlt)
    linarith
  · intro hexact
    rcases hu : value u with _ | (_ | _) | w
    · rw [hu] at hle
      exact hle.elim
    · exact rfl
    · rw [hu] at hle
      exact absurd hle Bool.noConfusion
    · rw [hu, Exact.finite_le_finite] at hle
      rw [Exact.finite_lt_finite]
      apply lt_of_le_of_ne hle
      rintro rfl
      have hle' := hexact ⟨r.floor, hu⟩
      rw [hu, Exact.finite_add_finite, Exact.finite_le_finite] at hle'
      linarith

/-- The ceiling of a fractional value is above a lower bound, unless the bound is an integer
that the value falls short of by more than the tolerance. -/
theorem lt_ceil_iff (h : l - tol ≤ a) (ha : value a = .finite r)
    (htol : value tol = .finite q) (hnonneg : 0 ≤ q) (hfrac : ∀ m : ℤ, q < |r - m|) :
    l < ceil a ↔ (IsInteger l → value l - value tol ≤ value a) := by
  have hle := le_ceil_of_sub_le h ha htol hnonneg hfrac
  have hdist := hfrac r.ceil
  rw [abs_of_nonpos (sub_nonpos.mpr Rat.le_ceil)] at hdist
  rw [LawfulScalar.le_iff_value, value_ceil_of_finite ha] at hle
  rw [LawfulScalar.lt_iff_value, value_ceil_of_finite ha, ha, htol]
  constructor
  · rintro hlt ⟨n, hn⟩
    rw [hn, Exact.finite_lt_finite] at hlt
    rw [hn, Exact.finite_sub_finite, Exact.finite_le_finite]
    have hlt' : n < r := Rat.lt_ceil_iff.mp (by exact_mod_cast hlt)
    linarith
  · intro hexact
    rcases hl : value l with _ | (_ | _) | w
    · rw [hl] at hle
      exact hle.elim
    · rw [hl] at hle
      exact absurd hle Bool.noConfusion
    · exact rfl
    · rw [hl, Exact.finite_le_finite] at hle
      rw [Exact.finite_lt_finite]
      apply lt_of_le_of_ne hle
      rintro rfl
      have hle' := hexact ⟨r.ceil, hl⟩
      rw [hl, Exact.finite_sub_finite, Exact.finite_le_finite] at hle'
      linarith

end Scalar

/-! ## Halves of a box -/

variable {α : Type} [Scalar α]

/-- A box inside another one that differs from it in one variable at most. -/
structure Domain.Narrows (d d' : Domain α) (var : Nat) : Prop where
  size_eq : d'.size = d.size
  subset : ∀ (j : Nat) (i i' : Interval α), d.get? j = some i → d'.get? j = some i' →
    i'.isSubsetOf i = true
  eq_of_ne : ∀ j, j ≠ var → d'.get? j = d.get? j

variable [LawfulScalar α]

/-- The bounds that a value was tested against are numbers. -/
theorem Interval.isNaN_of_contains {i : Interval α} {a tol : α}
    (h : i.contains a tol = true) :
    Scalar.isNaN i.lower = false ∧ Scalar.isNaN i.upper = false := by
  obtain ⟨hlow, hhigh⟩ := contains_iff.mp h
  rw [LawfulScalar.le_iff_value, LawfulScalar.value_sub] at hlow
  rw [LawfulScalar.le_iff_value, LawfulScalar.value_add] at hhigh
  constructor
  · rw [← Bool.not_eq_true, ← Scalar.value_eq_undefined_iff]
    intro hnan
    rw [hnan] at hlow
    exact hlow.elim
  · rw [← Bool.not_eq_true, ← Scalar.value_eq_undefined_iff]
    intro hnan
    rw [hnan] at hhigh
    cases ha : Scalar.value a <;> rw [ha] at hhigh <;> exact hhigh.elim

/-- Replacing an interval by a part of it narrows a box with a usable solution. -/
theorem Domain.Narrows.of_set? {r : Relaxation α} {d d' : Domain α} {tol : α} {var : Nat}
    {old new : Interval α} (husable : r.fault? d tol = none) (hold : d.get? var = some old)
    (h : d.set? var new = some d') (hnew : new.isSubsetOf old = true) : d.Narrows d' var := by
  refine ⟨Domain.size_set? h, ?_, ?_⟩
  · intro j i i' hi hi'
    rw [Domain.get?_set? h] at hi'
    split at hi'
    next hj =>
      obtain rfl := Option.some.inj hi'
      rw [hj, hold] at hi
      obtain rfl := Option.some.inj hi
      exact hnew
    next =>
      obtain rfl := Option.some.inj (hi.symm.trans hi')
      obtain ⟨hlength, -, hvalues⟩ := Relaxation.fault?_eq_none husable
      have hlt : j < r.values.length := by
        rw [hlength]
        exact (List.getElem?_eq_some_iff.mp hi).1
      have hcontains := (hvalues j i _ hi (List.getElem?_eq_getElem hlt)).2
      obtain ⟨hlow, hhigh⟩ := Interval.isNaN_of_contains hcontains
      exact Interval.isSubsetOf_iff.mpr ⟨Scalar.le_refl hlow, Scalar.le_refl hhigh⟩
  · intro j hj
    rw [Domain.get?_set? h, if_neg hj]

namespace Problem.Splits

variable {problem : Problem α} {tol : α} {d down up : Domain α} {r : Relaxation α}
  {f : Fractional α} {old : Interval α}

theorem contains (h : problem.Splits tol d r f old down up) :
    old.contains f.value tol = true :=
  ((Relaxation.fault?_eq_none h.usable).2.2 f.var old f.value h.get h.value_eq.1).2

/-- The value that a box is split at is farther than the tolerance from every integer,
and within the tolerance of its interval as far as the rounded test can tell. -/
theorem value_bounds (h : problem.Splits tol d r f old down up)
    (htol : Scalar.ofInt 0 ≤ tol) :
    ∃ x q : ℚ, Scalar.value f.value = .finite x ∧ Scalar.value tol = .finite q ∧ 0 ≤ q ∧
      (∀ m : ℤ, q < |x - m|) ∧ old.lower - tol ≤ f.value ∧ f.value ≤ old.upper + tol := by
  obtain ⟨-, hfrac, -, x, hx⟩ := h.value_eq
  obtain ⟨q, hq, htolq⟩ := Scalar.value_of_lt_fractionality hx htol hfrac
  refine ⟨x, q, hx, htolq, hq, ?_, Interval.contains_iff.mp h.contains⟩
  intro m
  exact Scalar.lt_abs_sub_of_lt_fractionality hx htolq hfrac m

variable [NearestScalar α]

theorem narrows (h : problem.Splits tol d r f old down up) (htol : Scalar.ofInt 0 ≤ tol) :
    d.Narrows down f.var ∧ d.Narrows up f.var := by
  obtain ⟨x, q, hx, htolq, hq, hfrac, hlow, hhigh⟩ := h.value_bounds htol
  obtain ⟨hlower, hupper⟩ := Interval.isNaN_of_contains h.contains
  constructor
  · apply Domain.Narrows.of_set? h.usable h.get h.down_eq
    exact Interval.isSubsetOf_iff.mpr
      ⟨Scalar.le_refl hlower, Scalar.floor_le_of_le_add hhigh hx htolq hq hfrac⟩
  · apply Domain.Narrows.of_set? h.usable h.get h.up_eq
    exact Interval.isSubsetOf_iff.mpr
      ⟨Scalar.le_ceil_of_sub_le hlow hx htolq hq hfrac, Scalar.le_refl hupper⟩

end Problem.Splits

/-! ## Children -/

omit [Scalar α] [LawfulScalar α] in
theorem Node.exists_child_of_lt {n : Node α} {old : Interval α} (id : Nat)
    (change : BoundChange α) (hold : n.domain.get? change.var = some old)
    (hdepth : n.depth < maxDepth) : ∃ c, n.child id change = .ok c := by
  have hlt : change.var < n.domain.size := (List.getElem?_eq_some_iff.mp hold).1
  unfold child Domain.set?
  rw [if_pos hlt]
  simp only [if_pos hdepth]
  exact ⟨_, rfl⟩

namespace Tree

/-- **Progress of branching.**  Let the tolerance be nonnegative.  The children of a node
under a decision at a usable solution have boxes inside the node's box, which differ from
it in the variable of the decision alone.  There the down child ends before the node
does, unless the node ends at an integer that the value exceeds by more than the
tolerance; and likewise for the up child at the other end. -/
theorem branch_narrows [NearestScalar α] {rule : BranchingRule} {problem : Problem α}
    {tol : α} {r : Relaxation α} {decision : Decision α} (t : Tree α) (node : Node α)
    (htol : Scalar.ofInt 0 ≤ tol) (husable : r.fault? node.domain tol = none)
    (hselect : rule.select problem node.domain r.values tol = .ok (some decision))
    (hdepth : node.depth < Node.maxDepth) :
    ∃ (down up : Node α) (grown : Tree α) (old low high : Interval α),
      t.branch node decision = .ok ((down, up), grown) ∧
      node.domain.Narrows down.domain decision.var ∧
      node.domain.Narrows up.domain decision.var ∧
      node.domain.get? decision.var = some old ∧
      down.domain.get? decision.var = some low ∧ up.domain.get? decision.var = some high ∧
      (low.upper < old.upper ↔ (Scalar.IsInteger old.upper →
        Scalar.value decision.value ≤ Scalar.value old.upper + Scalar.value tol)) ∧
      (old.lower < high.lower ↔ (Scalar.IsInteger old.lower →
        Scalar.value old.lower - Scalar.value tol ≤ Scalar.value decision.value)) := by
  obtain ⟨f, hf, old, hold, rfl⟩ := BranchingRule.select_eq_some hselect
  obtain ⟨down, hdown⟩ :=
    Node.exists_child_of_lt t.nextId (.down f.var old f.value) hold hdepth
  obtain ⟨up, hup⟩ :=
    Node.exists_child_of_lt (t.nextId + 1) (.up f.var old f.value) hold hdepth
  have hsplits : problem.Splits tol node.domain r f old down.domain up.domain :=
    ⟨husable, hf, hold, Node.child_domain hdown, Node.child_domain hup⟩
  obtain ⟨hnarrow, hnarrow'⟩ := hsplits.narrows htol
  obtain ⟨x, q, hx, htolq, hq, hfrac, hlow, hhigh⟩ := hsplits.value_bounds htol
  refine ⟨down, up, { t with nextId := t.nextId + 2 }, old, ⟨old.lower, Scalar.floor f.value⟩,
    ⟨Scalar.ceil f.value, old.upper⟩, ?_, hnarrow, hnarrow', hold, ?_, ?_, ?_, ?_⟩
  · simp only [branch, hdown, hup]
    rfl
  · rw [Domain.get?_set? hsplits.down_eq, if_pos rfl]
  · rw [Domain.get?_set? hsplits.up_eq, if_pos rfl]
  · exact Scalar.floor_lt_iff hhigh hx htolq hq hfrac
  · exact Scalar.lt_ceil_iff hlow hx htolq hq hfrac

/-- The sample box, split at `5 / 2`, has two halves inside it. -/
theorem branch_sample_narrows : ∃ (decision : Decision Float) (down up : Node Float)
    (grown : Tree Float),
    BranchingRule.mostFractional.select Problem.sample Problem.sample.rootDomain
      [Scalar.decimal 25 1] (Scalar.decimal 1 6) = .ok (some decision) ∧
    (create (Settings.sample 10)).branch (.root Problem.sample.rootDomain) decision =
      .ok ((down, up), grown) ∧
    Problem.sample.rootDomain.Narrows down.domain decision.var ∧
    Problem.sample.rootDomain.Narrows up.domain decision.var := by
  let decision : Decision Float :=
    { var := 0
      value := Scalar.decimal 25 1
      down := .down 0 ⟨Scalar.ofInt 0, Scalar.ofInt 3⟩ (Scalar.decimal 25 1)
      up := .up 0 ⟨Scalar.ofInt 0, Scalar.ofInt 3⟩ (Scalar.decimal 25 1) }
  have htol : (Scalar.ofInt 0 : Float) ≤ Scalar.decimal 1 6 := by decide +kernel
  have husable : (⟨Scalar.ofInt 0, [Scalar.decimal 25 1]⟩ : Relaxation Float).fault?
      (Node.root Problem.sample.rootDomain).domain (Scalar.decimal 1 6) = none := by
    decide +kernel
  have hselect : BranchingRule.mostFractional.select Problem.sample
      (Node.root Problem.sample.rootDomain).domain [Scalar.decimal 25 1]
      (Scalar.decimal 1 6) = .ok (some decision) := by
    decide +kernel
  obtain ⟨down, up, grown, _, _, _, hbranch, hdown, hup, -⟩ :=
    branch_narrows (create (Settings.sample 10)) (.root Problem.sample.rootDomain) htol
      husable hselect (by decide)
  exact ⟨decision, down, up, grown, hselect, hbranch, hdown, hup⟩

/-- The sum `2 + 1 / 1000000` is rounded up.  A search of the integers from `0` to `2`
accepts it as a value, splits there, and gets the whole box again for a down child. -/
theorem branch_keeps_box : ∃ (decision : Decision Float) (down up : Node Float)
    (grown : Tree Float),
    let problem : Problem Float :=
      .ofVariables [{ kind := .integer, bounds := ⟨Scalar.ofInt 0, Scalar.ofInt 2⟩ }]
    let tol : Float := Scalar.decimal 1 6
    let r : Relaxation Float := ⟨Scalar.ofInt 0, [Scalar.ofInt 2 + tol]⟩
    problem.fault? = none ∧ Scalar.ofInt 0 ≤ tol ∧ tol < Scalar.decimal 5 1 ∧
    r.fault? problem.rootDomain tol = none ∧
    BranchingRule.mostFractional.select problem problem.rootDomain r.values tol =
      .ok (some decision) ∧
    (create (Settings.sample 10)).branch (.root problem.rootDomain) decision =
      .ok ((down, up), grown) ∧
    down.domain = problem.rootDomain := by
  refine ⟨_, _, _, _, ?_, ?_, ?_, ?_, rfl, rfl, ?_⟩
  all_goals decide +kernel

end Tree

end BranchBound
