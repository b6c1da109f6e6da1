import BranchBound.Proofs.Counts
import BranchBound.Proofs.History
import BranchBound.Proofs.Progress

/-!
# Incumbents

Where the point of a search comes from.  It is a solution that the oracle gave in this
run, with the integral variables moved to their nearest integers, and its objective is
the one that the oracle gave.

That the point lies in the declared bounds takes the whole chain of boxes above it.  A
solution may exceed the box of its node by the tolerance; but the boxes are nested, they
end at integers if the declared bounds do, and less than a half beyond an integer no
other integer is nearest.
-/

namespace BranchBound

namespace Scalar

variable {α : Type} [Scalar α]

/-- A scalar that is the nearest integer of another one, no farther away than a
tolerance. -/
def IsNearestInteger (tol a b : α) : Prop :=
  ∃ (x q : ℚ) (n : ℤ), value a = .finite x ∧ value tol = .finite q ∧ value b = .finite n ∧
    (∀ m : ℤ, |x - n| ≤ |x - m|) ∧ |x - n| ≤ q

variable [LawfulScalar α] {u l tol a : α} {x q : ℚ}

theorem value_round_of_finite (h : value a = .finite x) :
    value (round a) = .finite (Exact.nearest x : ℤ) := by
  rw [LawfulScalar.value_round, h]
  rfl

theorem isNearestInteger_round (ha : value a = .finite x) (htol : value tol = .finite q)
    (h : fractionality a ≤ tol) : IsNearestInteger tol a (round a) := by
  refine ⟨x, q, Exact.nearest x, ha, htol, value_round_of_finite ha, ?_, ?_⟩
  · exact Exact.abs_sub_nearest_le x
  · rwa [LawfulScalar.le_iff_value, value_fractionality ha, htol, Exact.finite_le_finite] at h

omit [LawfulScalar α] in
theorem IsWhole.isNaN_eq_false (h : IsWhole a) : isNaN a = false := by
  rw [← Bool.not_eq_true, ← value_eq_undefined_iff]
  intro hnan
  rcases h with ⟨n, hn⟩ | ⟨negative, hinf⟩
  · rw [hnan] at hn
    cases hn
  · rw [hnan] at hinf
    cases hinf

variable [NearestScalar α]

/-- A value near an integer is not rounded beyond a bound that it exceeds by a tolerance. -/
theorem round_le_of_isWhole (hu : IsWhole u) (h : a ≤ u + tol) (ha : value a = .finite x)
    (htol : value tol = .finite q) (hhalf : q < 1 / 2) (hnear : fractionality a ≤ tol) :
    round a ≤ u := by
  rw [LawfulScalar.le_iff_value, value_fractionality ha, htol, Exact.finite_le_finite,
    abs_le] at hnear
  rcases hu with ⟨n, hn⟩ | ⟨negative, hinf⟩
  · have hle := le_add_half h ha hn htol hhalf
    rw [LawfulScalar.le_iff_value, value_round_of_finite ha, hn, Exact.finite_le_finite]
    have hlt : (Exact.nearest x : ℚ) < (n + 1 : ℤ) := by
      push_cast
      linarith
    exact_mod_cast Int.lt_add_one_iff.mp (Int.cast_lt.mp hlt)
  · rw [LawfulScalar.le_iff_value, value_round_of_finite ha, hinf]
    cases negative with
    | false => exact rfl
    | true =>
        rw [LawfulScalar.le_iff_value, LawfulScalar.value_add, ha, htol, hinf] at h
        exact absurd h Bool.noConfusion

/-- A value near an integer is not rounded beyond a bound that it falls short of by a
tolerance. -/
theorem le_round_of_isWhole (hl : IsWhole l) (h : l - tol ≤ a) (ha : value a = .finite x)
    (htol : value tol = .finite q) (hhalf : q < 1 / 2) (hnear : fractionality a ≤ tol) :
    l ≤ round a := by
  rw [LawfulScalar.le_iff_value, value_fractionality ha, htol, Exact.finite_le_finite,
    abs_le] at hnear
  rcases hl with ⟨n, hn⟩ | ⟨negative, hinf⟩
  · have hle := sub_half_le h ha hn htol hhalf
    rw [LawfulScalar.le_iff_value, value_round_of_finite ha, hn, Exact.finite_le_finite]
    have hlt : (n : ℚ) < (Exact.nearest x + 1 : ℤ) := by
      push_cast
      linarith
    exact_mod_cast Int.lt_add_one_iff.mp (Int.cast_lt.mp hlt)
  · rw [LawfulScalar.le_iff_value, value_round_of_finite ha, hinf]
    cases negative with
    | false =>
        rw [LawfulScalar.le_iff_value, LawfulScalar.value_sub, ha, htol, hinf] at h
        exact absurd h Bool.noConfusion
    | true => exact rfl

end Scalar

variable {α : Type} [Scalar α] {σ : Type}

/-! ## Boxes -/

/-- An interval that a search can reach for a variable: nothing is known of a bound that
was not declared as an integer. -/
structure Variable.Covers (v : Variable α) (i : Interval α) : Prop where
  continuous : v.kind.isIntegral = false → i = v.rootInterval
  lower : Scalar.IsWhole v.rootInterval.lower →
    Scalar.IsWhole i.lower ∧ v.rootInterval.lower ≤ i.lower
  upper : Scalar.IsWhole v.rootInterval.upper →
    Scalar.IsWhole i.upper ∧ i.upper ≤ v.rootInterval.upper

/-- A box that a search can reach. -/
structure Problem.Covers (problem : Problem α) (d : Domain α) : Prop where
  size_eq : d.size = problem.numVars
  interval : ∀ (j : Nat) (v : Variable α) (i : Interval α),
    problem.vars[j]? = some v → d.get? j = some i → v.Covers i

namespace Problem

variable [LawfulScalar α] {problem : Problem α} {d d' : Domain α} {old new : Interval α}
  {var : Nat}

theorem covers_rootDomain (problem : Problem α) : problem.Covers problem.rootDomain := by
  refine ⟨by simp [Domain.size, rootDomain, numVars], ?_⟩
  intro j v i hv hi
  obtain rfl : v.rootInterval = i := by
    simpa [Domain.get?, rootDomain, hv] using hi
  refine ⟨fun _ => rfl, ?_, ?_⟩
  · intro hwhole
    exact ⟨hwhole, Scalar.le_refl hwhole.isNaN_eq_false⟩
  · intro hwhole
    exact ⟨hwhole, Scalar.le_refl hwhole.isNaN_eq_false⟩

omit [LawfulScalar α] in
theorem Covers.set? (h : problem.Covers d) (hset : d.set? var new = some d')
    (hnew : ∀ v, problem.vars[var]? = some v → v.Covers new) : problem.Covers d' := by
  refine ⟨(Domain.size_set? hset).trans h.size_eq, ?_⟩
  intro j v i hv hi
  rw [Domain.get?_set? hset] at hi
  split at hi
  next hj =>
    obtain rfl := Option.some.inj hi
    exact hnew v (hj ▸ hv)
  next => exact h.interval j v i hv hi

end Problem

section

variable [LawfulScalar α] {v : Variable α} {old new : Interval α}

/-- A part of the interval of an integral variable that ends where the interval does, or
at integers. -/
theorem Variable.Covers.of_isSubsetOf (h : v.Covers old) (hkind : v.kind.isIntegral = true)
    (hsubset : new.isSubsetOf old = true)
    (hlower : Scalar.IsInteger new.lower ∨ new.lower = old.lower)
    (hupper : Scalar.IsInteger new.upper ∨ new.upper = old.upper) : v.Covers new := by
  obtain ⟨hle, hle'⟩ := Interval.isSubsetOf_iff.mp hsubset
  refine ⟨?_, ?_, ?_⟩
  · intro hcontinuous
    rw [hkind] at hcontinuous
    cases hcontinuous
  · intro hwhole
    obtain ⟨hold, hroot⟩ := h.lower hwhole
    refine ⟨?_, Scalar.le_trans hroot hle⟩
    rcases hlower with hinteger | heq
    · exact Or.inl hinteger
    · rwa [heq]
  · intro hwhole
    obtain ⟨hold, hroot⟩ := h.upper hwhole
    refine ⟨?_, Scalar.le_trans hle' hroot⟩
    rcases hupper with hinteger | heq
    · exact Or.inl hinteger
    · rwa [heq]

/-- The halves of a box that can be reached can be reached. -/
theorem Problem.Splits.covers [NearestScalar α] {problem : Problem α} {tol : α}
    {d down up : Domain α} {r : Relaxation α} {f : Fractional α}
    (h : problem.Splits tol d r f old down up) (htol : Scalar.ofInt 0 ≤ tol)
    (hcovers : problem.Covers d) : problem.Covers down ∧ problem.Covers up := by
  obtain ⟨hnarrow, hnarrow'⟩ := h.narrows htol
  obtain ⟨-, -, ⟨v, hv, hkind⟩, q, hq⟩ := h.value_eq
  have hold := hcovers.interval f.var v old hv h.get
  have hdown : down.get? f.var = some ⟨old.lower, Scalar.floor f.value⟩ := by
    rw [Domain.get?_set? h.down_eq, if_pos rfl]
  have hup : up.get? f.var = some ⟨Scalar.ceil f.value, old.upper⟩ := by
    rw [Domain.get?_set? h.up_eq, if_pos rfl]
  constructor
  · apply hcovers.set? h.down_eq
    intro w hw
    obtain rfl := Option.some.inj (hv.symm.trans hw)
    exact hold.of_isSubsetOf hkind (hnarrow.subset f.var _ _ h.get hdown) (Or.inr rfl)
      (Or.inl ⟨_, Scalar.value_floor_of_finite hq⟩)
  · apply hcovers.set? h.up_eq
    intro w hw
    obtain rfl := Option.some.inj (hv.symm.trans hw)
    exact hold.of_isSubsetOf hkind (hnarrow'.subset f.var _ _ h.get hup)
      (Or.inl ⟨_, Scalar.value_ceil_of_finite hq⟩) (Or.inr rfl)

end

/-! ## Rounded solutions -/

/-- What a coordinate of a solution becomes in the incumbent. -/
structure Variable.Rounds (v : Variable α) (tol a b : α) : Prop where
  nearest : v.kind.isIntegral = true → Scalar.IsNearestInteger tol a b
  lower_le : v.kind.isIntegral = true → Scalar.IsWhole v.rootInterval.lower →
    v.rootInterval.lower ≤ b
  le_upper : v.kind.isIntegral = true → Scalar.IsWhole v.rootInterval.upper →
    b ≤ v.rootInterval.upper
  unchanged : v.kind.isIntegral = false → b = a ∧ v.rootInterval.contains b tol = true

/-- A point with one coordinate for each variable, made from a solution. -/
structure Problem.IsRounding (problem : Problem α) (tol : α) (values point : List α) :
    Prop where
  length_eq : point.length = problem.numVars
  length_values : values.length = problem.numVars
  rounds : ∀ (j : Nat) (v : Variable α) (a b : α), problem.vars[j]? = some v →
    values[j]? = some a → point[j]? = some b → v.Rounds tol a b

variable [LawfulScalar α] [NearestScalar α] {tol : α}

/-- A usable value near an integer becomes that integer, inside the declared bounds. -/
theorem Variable.Covers.rounds {v : Variable α} {i : Interval α} {a : α} {x q : ℚ}
    (h : v.Covers i) (ha : Scalar.value a = .finite x) (hcontains : i.contains a tol = true)
    (htol : Scalar.value tol = .finite q) (hhalf : q < 1 / 2)
    (hnear : v.kind.isIntegral = true → fractionality a ≤ tol) :
    v.Rounds tol a (if v.kind.isIntegral then Scalar.round a else a) := by
  obtain ⟨hlow, hhigh⟩ := Interval.contains_iff.mp hcontains
  refine ⟨?_, ?_, ?_, ?_⟩
  · intro hkind
    rw [if_pos hkind]
    exact Scalar.isNearestInteger_round ha htol (hnear hkind)
  · intro hkind hwhole
    obtain ⟨hi, hroot⟩ := h.lower hwhole
    rw [if_pos hkind]
    exact Scalar.le_trans hroot (Scalar.le_round_of_isWhole hi hlow ha htol hhalf (hnear hkind))
  · intro hkind hwhole
    obtain ⟨hi, hroot⟩ := h.upper hwhole
    rw [if_pos hkind]
    exact Scalar.le_trans (Scalar.round_le_of_isWhole hi hhigh ha htol hhalf (hnear hkind)) hroot
  · intro hkind
    rw [if_neg (by simp [hkind])]
    rw [h.continuous hkind] at hcontains
    exact ⟨rfl, hcontains⟩

/-- The point made from a usable integral solution. -/
theorem Problem.isRounding_roundIntegers {vars : List (Variable α)} {d : Domain α}
    {r : Relaxation α} {q : ℚ} (hcovers : (Problem.ofVariables vars).Covers d)
    (husable : r.fault? d tol = none)
    (hintegral : (Problem.ofVariables vars).isIntegral r.values tol = true)
    (htol : Scalar.value tol = .finite q) (hhalf : q < 1 / 2) :
    (Problem.ofVariables vars).IsRounding tol r.values
      ((Problem.ofVariables vars).roundIntegers r.values) := by
  obtain ⟨hlength, -, hvalues⟩ := Relaxation.fault?_eq_none husable
  rw [hcovers.size_eq] at hlength
  refine ⟨?_, hlength, ?_⟩
  · rw [roundIntegers, List.length_zipWith, hlength]
    exact Nat.min_self _
  · intro j v a b hv ha hb
    obtain ⟨i, hi⟩ : ∃ i, d.get? j = some i := by
      have hlt : j < d.size := by
        rw [hcovers.size_eq]
        exact (List.getElem?_eq_some_iff.mp hv).1
      exact ⟨_, List.getElem?_eq_getElem hlt⟩
    obtain ⟨hfinite, hcontains⟩ := hvalues j i a hi ha
    obtain ⟨x, hx⟩ := Scalar.isFinite_iff.mp hfinite
    obtain rfl : (if v.kind.isIntegral then Scalar.round a else a) = b := by
      simpa [roundIntegers, List.getElem?_zipWith, hv, ha] using hb
    refine (hcovers.interval j v i hv hi).rounds hx hcontains htol hhalf ?_
    intro hkind
    have hmem : (v, a) ∈ List.zip vars r.values :=
      List.mem_of_getElem? (List.getElem?_zip_eq_some.mpr ⟨hv, ha⟩)
    have hentry := List.all_eq_true.mp hintegral (v, a) hmem
    simpa [hkind] using hentry

namespace Tree

variable {vars : List (Variable α)} {oracle : Oracle σ α} {clock : Clock} {t : Tree α} {s : σ}

/-- The incumbent of a search comes from a solution that was given in an earlier turn. -/
def IsTraced (vars : List (Variable α)) (oracle : Oracle σ α) (clock : Clock) (t : Tree α)
    (s : σ) (k : Nat) (tree : Tree α) : Prop :=
  ∀ point, tree.incumbent.assignment = some point →
    ∃ j < k, ∃ d r, AnsweredAt (.ofVariables vars) oracle clock t s j d (.optimal r) ∧
      tree.incumbent.objective = r.objective ∧
      (Problem.ofVariables vars).IsRounding t.settings.feasibilityTol r.values point

theorem covers_openNodes (htol : Scalar.ofInt 0 ≤ t.settings.feasibilityTol) (k : Nat) :
    ∀ n ∈ (after (.ofVariables vars) oracle clock t s k).tree.frontier.openNodes,
      (Problem.ofVariables vars).Covers n.domain := by
  apply openNodes_invariant _ (Problem.covers_rootDomain _)
  intro d r f old down up hcovers _ hsplits
  exact hsplits.covers htol hcovers

/-- A turn traces the incumbent that it finds. -/
theorem IsTraced.takes {k : Nat} {node : Node α} {rest : Tree α} {turn : Turn σ α}
    {outcome : Except (SearchError α) Disposition} {q : ℚ}
    (h : IsTraced vars oracle clock t s k (after (.ofVariables vars) oracle clock t s k).tree)
    (hk : (after (.ofVariables vars) oracle clock t s k).verdict = .running)
    (htakes : Takes (.ofVariables vars) oracle (clock (2 * k)) (clock (2 * k + 1))
      (after (.ofVariables vars) oracle clock t s k).tree
      (after (.ofVariables vars) oracle clock t s k).oracle node rest outcome turn)
    (htol : Scalar.ofInt 0 ≤ t.settings.feasibilityTol)
    (hq : Scalar.value t.settings.feasibilityTol = .finite q) (hhalf : q < 1 / 2) :
    IsTraced vars oracle clock t s (k + 1) turn.tree := by
  have hkept (hincumbent : turn.tree.incumbent = rest.incumbent) :
      IsTraced vars oracle clock t s (k + 1) turn.tree := by
    intro point hpoint
    rw [hincumbent, htakes.rest_eq.2.1] at hpoint ⊢
    obtain ⟨j, hj, htraced⟩ := h point hpoint
    exact ⟨j, Nat.lt_succ_of_lt hj, htraced⟩
  cases htakes.tally with
  | kept _ _ _ _ hincumbent => exact hkept hincumbent
  | split _ _ _ _ _ hincumbent => exact hkept hincumbent
  | @improved _ r s' hsolves hintegral himproves _ hincumbent =>
      intro point hpoint
      rw [hincumbent, Incumbent.consider_of_improves himproves] at hpoint ⊢
      obtain rfl := Option.some.inj hpoint
      have hsettings : rest.settings = t.settings :=
        htakes.rest_eq.1.trans (settings_and_explored_after hk).1
      have husable := hsolves.usable
      rw [hsettings] at husable hintegral
      have hnode := covers_openNodes htol k node
        (htakes.openNodes_perm.mem_iff.mpr List.mem_cons_self)
      refine ⟨k, Nat.lt_succ_self k, node.domain, r, ?_, rfl, ?_⟩
      · exact ⟨node, rest, s', hk, htakes.next, hsolves.asks, rfl, hsolves.answer⟩
      · exact Problem.isRounding_roundIntegers hnode husable hintegral hq hhalf

omit [NearestScalar α] in
/-- A tolerance below a half is finite. -/
theorem value_tol_of_lt_half (htol : Scalar.ofInt 0 ≤ t.settings.feasibilityTol)
    (hhalf : Scalar.value t.settings.feasibilityTol < .finite (1 / 2)) :
    ∃ q : ℚ, Scalar.value t.settings.feasibilityTol = .finite q ∧ q < 1 / 2 := by
  rcases Scalar.value_of_nonneg htol with ⟨q, -, hq⟩ | hinf
  · rw [hq, Exact.finite_lt_finite] at hhalf
    exact ⟨q, hq, hhalf⟩
  · rw [hinf] at hhalf
    exact absurd hhalf Bool.noConfusion

theorem isTraced_after (htol : Scalar.ofInt 0 ≤ t.settings.feasibilityTol)
    (hhalf : Scalar.value t.settings.feasibilityTol < .finite (1 / 2)) {k : Nat}
    (hk : (after (.ofVariables vars) oracle clock t s k).verdict = .running) :
    IsTraced vars oracle clock t s k (after (.ofVariables vars) oracle clock t s k).tree ∧
      IsTraced vars oracle clock t s (k + 1)
        (after (.ofVariables vars) oracle clock t s (k + 1)).tree := by
  obtain ⟨q, hq, hlt⟩ := value_tol_of_lt_half htol hhalf
  apply after_induction (fun k turn => IsTraced vars oracle clock t s k turn.tree) ?_ ?_ hk
  · intro point hpoint
    cases hpoint
  · intro k node rest outcome turn hk htraced htakes
    exact htraced.takes hk htakes htol hq hlt

/-- **Provenance of the incumbent.**  Let the tolerance be at least zero and less than a
half.  If there is an incumbent at a head of the loop, its objective and its point come
from one solution that the oracle gave in an earlier turn; if a result has a point, its
objective and its point come from one solution that the oracle gave in the run.  The
integral variables are moved to their nearest integers, no farther than the tolerance and
inside declared bounds that are integers or infinite; the other ones are as they were. -/
theorem run_incumbent_traced (vars : List (Variable α)) (oracle : Oracle σ α) (clock : Clock)
    (t : Tree α) (s : σ) (htol : Scalar.ofInt 0 ≤ t.settings.feasibilityTol)
    (hhalf : Scalar.value t.settings.feasibilityTol < .finite (1 / 2)) :
    (∀ k, (after (.ofVariables vars) oracle clock t s k).verdict = .running →
      (after (.ofVariables vars) oracle clock t s k).tree.incumbent.isPresent = true →
      ∃ point j d r, j < k ∧
        (after (.ofVariables vars) oracle clock t s k).tree.incumbent.assignment = some point ∧
        AnsweredAt (.ofVariables vars) oracle clock t s j d (.optimal r) ∧
        (after (.ofVariables vars) oracle clock t s k).tree.incumbent.objective = r.objective ∧
        (Problem.ofVariables vars).IsRounding t.settings.feasibilityTol r.values point) ∧
    (∀ result tree s', t.run (.ofVariables vars) oracle clock s = (.ok result, tree, s') →
      (result.bestObjective = none ∧ result.bestAssignment = none) ∨
      ∃ point d r, result.bestAssignment = some point ∧
        Answered (.ofVariables vars) oracle clock t s d (.optimal r) ∧
        result.bestObjective = some r.objective ∧
        (Problem.ofVariables vars).IsRounding t.settings.feasibilityTol r.values point) := by
  constructor
  · intro k hk hpresent
    obtain ⟨point, hpoint⟩ := Option.isSome_iff_exists.mp hpresent
    obtain ⟨j, hj, d, r, hanswered, hobjective, hrounding⟩ :=
      (isTraced_after htol hhalf hk).1 point hpoint
    exact ⟨point, j, d, r, hj, hpoint, hanswered, hobjective, hrounding⟩
  · intro result tree s' hrun
    obtain ⟨-, m, status, now, hm, -, rfl⟩ := run_eq_ok hrun
    obtain ⟨-, hobjective, -⟩ := conclude_eq
      (after (.ofVariables vars) oracle clock t s (m + 1)).tree status now
    obtain ⟨-, -, -, hassignment⟩ := conclude_counts
      (after (.ofVariables vars) oracle clock t s (m + 1)).tree status now
    rw [hobjective, hassignment]
    cases hpoint : (after (.ofVariables vars) oracle clock t s
      (m + 1)).tree.incumbent.assignment with
    | none =>
        left
        exact ⟨if_neg (by simp [Incumbent.isPresent, hpoint]), rfl⟩
    | some point =>
        right
        obtain ⟨j, -, d, r, ⟨node, rest, s'', hanswered⟩, hbest, hrounding⟩ :=
          (isTraced_after htol hhalf hm).2 point hpoint
        refine ⟨point, d, r, rfl, ⟨j, node, rest, s'', hanswered⟩, ?_, hrounding⟩
        rw [if_pos (by simp [Incumbent.isPresent, hpoint]), hbest]

/-- The sample search reports a point that its oracle gave. -/
theorem run_sample_traced : ∃ (result : Result Float) (point : List Float)
    (d : Domain Float) (r : Relaxation Float),
    ((create (Settings.sample 10)).run Problem.sample Oracle.halving .frozen ()).1 =
      .ok result ∧
    result.bestAssignment = some point ∧ result.bestObjective = some r.objective ∧
    Answered Problem.sample Oracle.halving .frozen (create (Settings.sample 10)) () d
      (.optimal r) ∧
    Problem.sample.IsRounding (Settings.sample 10).feasibilityTol r.values point := by
  have hevaluates : ((create (Settings.sample 10 : Settings Float)).run Problem.sample
      Oracle.halving .frozen ()).1.toOption.any (·.bestAssignment.isSome) = true := by
    decide +kernel
  obtain ⟨result, tree, s', hrun, hsome⟩ := exists_result_of_any hevaluates
  have htol : (Scalar.ofInt 0 : Float) ≤
      (create (Settings.sample 10)).settings.feasibilityTol := by
    decide +kernel
  have hhalf : Scalar.value (create (Settings.sample 10 : Settings Float)).settings.feasibilityTol <
      .finite (1 / 2) := by
    decide +kernel
  rcases (run_incumbent_traced _ _ _ _ _ htol hhalf).2 result tree s' hrun with
    ⟨-, hnone⟩ | ⟨point, d, r, hpoint, hanswered, hobjective, hrounding⟩
  · rw [hnone] at hsome
    cases hsome
  · exact ⟨result, point, d, r, congrArg Prod.fst hrun, hpoint, hobjective, hanswered,
      hrounding⟩

end Tree

end BranchBound
