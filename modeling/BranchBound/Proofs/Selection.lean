import Mathlib.Data.List.Induction
import BranchBound.Proofs.Binary64.Lawful
import BranchBound.Proofs.Splitting

/-!
# Selection of a variable

Which variable a box is split on.  The fractional variables of a point are listed by
increasing index, so the first of the list has the least index, and the first of those that
no other one exceeds has the least index among the farthest.  At finite values a variable that
is not fractional is within the tolerance of an integer; this makes the list empty exactly if
the point counts as integral.
-/

namespace BranchBound

variable {α : Type} [Scalar α]

/-! ## Fractional variables -/

namespace Problem

variable {problem : Problem α} {values : List α} {tol : α}

/-- The fractional variables of a point are listed by increasing index. -/
theorem pairwise_fractionalVars (problem : Problem α) (values : List α) (tol : α) :
    (problem.fractionalVars values tol).Pairwise fun f g => f.var < g.var := by
  unfold fractionalVars
  rw [List.pairwise_filterMap]
  have hindices : ((List.zip problem.vars values).zipIdx.map Prod.snd).Pairwise (· < ·) := by
    rw [List.zipIdx_map_snd, ← List.range_eq_range']
    exact List.pairwise_lt_range
  rw [List.pairwise_map] at hindices
  apply hindices.imp
  rintro ⟨⟨v, a⟩, j⟩ ⟨⟨w, b⟩, k⟩ hlt f hf g hg
  simp only at hf hg
  split at hf
  · split at hg
    · cases hf
      cases hg
      exact hlt
    · cases hg
  · cases hf

end Problem

/-! ## Integral points -/

section Integral

variable [LawfulScalar α] {problem : Problem α} {values : List α} {tol : α}

/-- At a finite value and a tolerance that is a number, one of the two tests holds. -/
theorem fractionality_le_iff_not_lt {a : α} (ha : Scalar.isFinite a = true)
    (htol : Scalar.isNaN tol = false) : fractionality a ≤ tol ↔ ¬tol < fractionality a := by
  obtain ⟨x, hx⟩ := Scalar.isFinite_iff.mp ha
  have hnumber : Scalar.isNaN (fractionality a) = false :=
    Scalar.isNaN_of_isFinite (Scalar.isFinite_iff.mpr ⟨_, Scalar.value_fractionality hx⟩)
  exact ⟨Scalar.not_lt_of_le, Scalar.le_of_not_lt htol hnumber⟩

/-- No variable of a point is fractional exactly if the point counts as integral. -/
theorem Problem.fractionalVars_eq_nil_iff (hfinite : ∀ a ∈ values, Scalar.isFinite a = true)
    (htol : Scalar.isNaN tol = false) : problem.fractionalVars values tol = [] ↔
      Variable.allIntegral problem.vars values tol = true := by
  have hentry : ∀ entry ∈ List.zip problem.vars values,
      ((!entry.1.kind.isIntegral || decide (fractionality entry.2 ≤ tol)) = true ↔
        ¬(entry.1.kind.isIntegral && decide (tol < fractionality entry.2)) = true) := by
    rintro ⟨v, a⟩ hmem
    have ha := hfinite a (List.of_mem_zip hmem).2
    rw [Bool.or_eq_true, Bool.and_eq_true, decide_eq_true_eq, decide_eq_true_eq,
      fractionality_le_iff_not_lt ha htol, not_and_or, Bool.not_eq_true']
    simp
  unfold fractionalVars Variable.allIntegral
  rw [List.filterMap_eq_nil_iff, List.all_eq_true]
  constructor
  · intro h entry hmem
    obtain ⟨j, hj⟩ := List.mem_iff_getElem?.mp hmem
    have hnone := h (entry, j) (List.mk_mem_zipIdx_iff_getElem?.mpr hj)
    rw [hentry entry hmem]
    intro hfractional
    rw [if_pos hfractional] at hnone
    cases hnone
  · rintro h ⟨entry, j⟩ hmem
    have hmem' := List.mem_of_getElem? (List.mk_mem_zipIdx_iff_getElem?.mp hmem)
    exact if_neg ((hentry entry hmem').mp (h entry hmem'))

end Integral

/-! ## The preferred variable -/

namespace BranchingRule

/-- What a rule asks of a fractional variable: that no other one is farther from an integer, if
the rule looks at distances, and that none with the same claim comes before it. -/
def Prefers (rule : BranchingRule) (problem : Problem α) (values : List α) (tol : α) (var : Nat)
    (a : α) : Prop :=
  ∀ (j : Nat) (b : α), problem.IsFractional values tol j b →
    match rule with
    | .firstFractional => var ≤ j
    | .mostFractional => fractionality b ≤ fractionality a ∧
        (fractionality a ≤ fractionality b → var ≤ j)

/-- The decision that a rule prescribes for a box and a point of it. -/
structure Decides (rule : BranchingRule) (problem : Problem α) (d : Domain α) (values : List α)
    (tol : α) (decision : Decision α) : Prop where
  fractional : problem.IsFractional values tol decision.var decision.value
  preferred : rule.Prefers problem values tol decision.var decision.value
  halves : ∃ old, d.get? decision.var = some old ∧
    decision.down = ⟨decision.var, old.lower, Scalar.floor decision.value⟩ ∧
    decision.up = ⟨decision.var, Scalar.ceil decision.value, old.upper⟩

variable {rule : BranchingRule} {problem : Problem α} {d : Domain α} {values : List α} {tol : α}

/-- A rule prefers one fractional variable. -/
theorem Prefers.unique {j k : Nat} {a b : α} (h : rule.Prefers problem values tol j a)
    (h' : rule.Prefers problem values tol k b) (hj : problem.IsFractional values tol j a)
    (hk : problem.IsFractional values tol k b) : j = k := by
  have hjk := h k b hk
  have hkj := h' j a hj
  cases rule with
  | firstFractional => exact le_antisymm hjk hkj
  | mostFractional => exact le_antisymm (hjk.2 hkj.1) (hkj.2 hjk.1)

/-- A rule prescribes one decision. -/
theorem Decides.unique {decision decision' : Decision α}
    (h : rule.Decides problem d values tol decision)
    (h' : rule.Decides problem d values tol decision') : decision = decision' := by
  obtain ⟨old, hold, hdown, hup⟩ := h.halves
  obtain ⟨old', hold', hdown', hup'⟩ := h'.halves
  have hvar : decision.var = decision'.var :=
    h.preferred.unique h'.preferred h.fractional h'.fractional
  have hvalue : decision.value = decision'.value := by
    have ha := h.fractional.2.1
    rw [hvar, h'.fractional.2.1] at ha
    exact (Option.some.inj ha).symm
  have hsame : old = old' := by
    rw [hvar, hold'] at hold
    exact (Option.some.inj hold).symm
  calc
    decision = ⟨decision.var, decision.value, decision.down, decision.up⟩ := rfl
    _ = ⟨decision'.var, decision'.value, decision'.down, decision'.up⟩ := by
      rw [hdown, hup, hdown', hup', hvar, hvalue, hsame]
    _ = decision' := rfl

variable [LawfulScalar α]

/-- The entry that is kept is the first of the farthest ones. -/
theorem mostDistant?_split {fractional : List (Fractional α)} {f : Fractional α}
    (hnumbers : ∀ g ∈ fractional, Scalar.isNaN g.distance = false)
    (h : mostDistant? fractional = some f) :
    ∃ before after, fractional = before ++ f :: after ∧
      (∀ g ∈ before, g.distance < f.distance) ∧ ∀ g ∈ after, g.distance ≤ f.distance := by
  cases fractional with
  | nil => cases h
  | cons first rest =>
      obtain rfl := Option.some.inj h
      clear h
      induction rest using List.reverseRecOn with
      | nil => exact ⟨[], [], rfl, by simp, by simp⟩
      | append_singleton rest next ih =>
          rw [← List.cons_append, List.forall_mem_append, List.forall_mem_singleton] at hnumbers
          obtain ⟨before, after, hsplit, hbefore, hafter⟩ := ih hnumbers.1
          rw [List.foldl_concat]
          generalize rest.foldl _ first = best at hsplit hbefore hafter ⊢
          have hbest : Scalar.isNaN best.distance = false := by
            apply hnumbers.1
            rw [hsplit]
            exact List.mem_append_right before List.mem_cons_self
          by_cases hfarther : best.distance < next.distance
          · rw [if_pos hfarther]
            refine ⟨first :: rest, [], by simp, ?_, by simp⟩
            rw [hsplit, List.forall_mem_append, List.forall_mem_cons]
            exact ⟨fun g hg => Scalar.lt_trans (hbefore g hg) hfarther, hfarther,
              fun g hg => Scalar.lt_of_le_of_lt (hafter g hg) hfarther⟩
          · rw [if_neg hfarther]
            refine ⟨before, after ++ [next], ?_, hbefore, ?_⟩
            · rw [← List.cons_append, hsplit, List.append_assoc, List.cons_append]
            · rw [List.forall_mem_append, List.forall_mem_singleton]
              exact ⟨hafter, Scalar.le_of_not_lt hbest hnumbers.2 hfarther⟩

/-- The variable that is chosen is fractional, and preferred by the rule. -/
theorem choose?_prefers (hfinite : ∀ a ∈ values, Scalar.isFinite a = true) {f : Fractional α}
    (h : rule.choose? (problem.fractionalVars values tol) = some f) :
    problem.IsFractional values tol f.var f.value ∧
      rule.Prefers problem values tol f.var f.value := by
  have hchosen := Problem.mem_fractionalVars_iff.mp (choose?_mem h)
  refine ⟨hchosen.1, ?_⟩
  intro j b hj
  have hmem : (⟨j, b, fractionality b⟩ : Fractional α) ∈ problem.fractionalVars values tol :=
    Problem.mem_fractionalVars_iff.mpr ⟨hj, rfl⟩
  have hordered := problem.pairwise_fractionalVars values tol
  cases rule with
  | firstFractional =>
      obtain ⟨rest, hrest⟩ := List.head?_eq_some_iff.mp h
      rw [hrest] at hmem hordered
      rcases List.mem_cons.mp hmem with rfl | hlater
      · exact le_rfl
      · exact ((List.pairwise_cons.mp hordered).1 _ hlater).le
  | mostFractional =>
      have hnumbers : ∀ g ∈ problem.fractionalVars values tol,
          Scalar.isNaN g.distance = false := by
        intro g hg
        obtain ⟨⟨-, ha, -⟩, hdistance⟩ := Problem.mem_fractionalVars_iff.mp hg
        obtain ⟨x, hx⟩ := Scalar.isFinite_iff.mp (hfinite _ (List.mem_of_getElem? ha))
        rw [hdistance]
        exact Scalar.isNaN_of_isFinite (Scalar.isFinite_iff.mpr ⟨_, Scalar.value_fractionality hx⟩)
      obtain ⟨before, after, hsplit, hbefore, hafter⟩ := mostDistant?_split hnumbers h
      rw [hsplit] at hmem hordered
      rw [← hchosen.2]
      rcases List.mem_append.mp hmem with hearlier | hnext
      · have hlt : fractionality b < f.distance := hbefore _ hearlier
        exact ⟨Scalar.le_of_lt hlt, fun hle => absurd hlt (Scalar.not_lt_of_le hle)⟩
      · rcases List.mem_cons.mp hnext with rfl | hlater
        · exact ⟨Scalar.le_refl (hnumbers _ (choose?_mem h)), fun _ => le_rfl⟩
        · refine ⟨hafter _ hlater, fun _ => ?_⟩
          have hafter := (List.pairwise_append.mp hordered).2.1
          exact ((List.pairwise_cons.mp hafter).1 _ hlater).le

/-- A point with a fractional variable has a prescribed decision, about an interval of a box that
has enough of them. -/
theorem exists_decides (rule : BranchingRule) (hfinite : ∀ a ∈ values, Scalar.isFinite a = true)
    (hsize : values.length ≤ d.size) (hfractional : problem.fractionalVars values tol ≠ []) :
    ∃ decision, rule.select problem d values tol = .ok (some decision) ∧
      rule.Decides problem d values tol decision := by
  obtain ⟨f, hf⟩ : ∃ f, rule.choose? (problem.fractionalVars values tol) = some f := by
    obtain ⟨first, rest, hcons⟩ := List.exists_cons_of_ne_nil hfractional
    rw [hcons]
    cases rule with
    | mostFractional => exact ⟨_, rfl⟩
    | firstFractional => exact ⟨first, rfl⟩
  obtain ⟨hchosen, hprefers⟩ := choose?_prefers hfinite hf
  have hlt : f.var < d.size := (List.getElem?_eq_some_iff.mp hchosen.2.1).1.trans_le hsize
  obtain ⟨old, hold⟩ : ∃ old, d.get? f.var = some old := ⟨_, List.getElem?_eq_getElem hlt⟩
  refine ⟨⟨f.var, f.value, .down f.var old f.value, .up f.var old f.value⟩, ?_,
    hchosen, hprefers, old, hold, rfl, rfl⟩
  simp only [select, hf, Decision.split, hold]
  rfl

/-- **Selection is exact.**  Let the values of a point be finite, let the box have an interval for
each of them, and let the tolerance be a number.  Then a rule always has an answer.  It decides
nothing exactly if every variable that is not continuous is within the tolerance of an integer;
otherwise its decision is the prescribed one, and no other. -/
theorem select_isExact (rule : BranchingRule) (problem : Problem α) (d : Domain α)
    (values : List α) (tol : α) (hfinite : ∀ a ∈ values, Scalar.isFinite a = true)
    (hsize : values.length ≤ d.size) (htol : Scalar.isNaN tol = false) :
    ∃ answer, rule.select problem d values tol = .ok answer ∧
      (answer = none ↔ Variable.allIntegral problem.vars values tol = true) ∧
      ∀ decision, answer = some decision ↔ rule.Decides problem d values tol decision := by
  rw [← Problem.fractionalVars_eq_nil_iff hfinite htol]
  by_cases hnil : problem.fractionalVars values tol = []
  · refine ⟨none, ?_, by simp [hnil], ?_⟩
    · rw [select, hnil]
      cases rule <;> rfl
    · intro decision
      simp only [reduceCtorEq, false_iff]
      intro hdecides
      have hmem : (⟨decision.var, decision.value, fractionality decision.value⟩ : Fractional α) ∈
          problem.fractionalVars values tol :=
        Problem.mem_fractionalVars_iff.mpr ⟨hdecides.fractional, rfl⟩
      rw [hnil] at hmem
      cases hmem
  · obtain ⟨chosen, hselect, hchosen⟩ := rule.exists_decides hfinite hsize hnil
    refine ⟨some chosen, hselect, by simp [hnil], ?_⟩
    intro decision
    rw [Option.some.injEq]
    constructor
    · rintro rfl
      exact hchosen
    · exact hchosen.unique

/-- Two integral variables with a continuous one between them. -/
def tied : Problem Float :=
  .ofVariables [.binary, { kind := .continuous, bounds := ⟨Scalar.ofInt 0, Scalar.posInf⟩ },
    { kind := .integer, bounds := ⟨Scalar.ofInt 0, Scalar.ofInt 5⟩ }]

/-- At `1 / 4`, `1 / 2` and `11 / 4` the two integral variables are equally far from an integer,
and the continuous one is farther.  The first of the two is split. -/
theorem select_tied_isExact : ∃ decision : Decision Float,
    BranchingRule.mostFractional.select tied tied.rootDomain
      [Scalar.decimal 25 2, Scalar.decimal 5 1, Scalar.decimal 275 2] (Scalar.decimal 1 6) =
        .ok (some decision) ∧
    BranchingRule.mostFractional.Decides tied tied.rootDomain
      [Scalar.decimal 25 2, Scalar.decimal 5 1, Scalar.decimal 275 2] (Scalar.decimal 1 6)
      decision ∧
    decision.var = 0 ∧ decision.down.interval = ⟨Scalar.ofInt 0, Scalar.ofInt 0⟩ ∧
    decision.up.interval = ⟨Scalar.ofInt 1, Scalar.ofInt 1⟩ := by
  let decision : Decision Float :=
    { var := 0
      value := Scalar.decimal 25 2
      down := ⟨0, Scalar.ofInt 0, Scalar.ofInt 0⟩
      up := ⟨0, Scalar.ofInt 1, Scalar.ofInt 1⟩ }
  have hdecision : BranchingRule.mostFractional.select tied tied.rootDomain
      [Scalar.decimal 25 2, Scalar.decimal 5 1, Scalar.decimal 275 2] (Scalar.decimal 1 6) =
        .ok (some decision) := by
    decide +kernel
  obtain ⟨answer, hanswer, -, hdecides⟩ := select_isExact .mostFractional tied tied.rootDomain
    [Scalar.decimal 25 2, Scalar.decimal 5 1, Scalar.decimal 275 2] (Scalar.decimal 1 6)
    (by decide +kernel) (by decide) (by decide +kernel)
  rw [hdecision] at hanswer
  have hsome : answer = some decision := (Except.ok.inj hanswer).symm
  exact ⟨decision, hdecision, (hdecides decision).mp hsome, rfl, rfl, rfl⟩

end BranchingRule

end BranchBound
