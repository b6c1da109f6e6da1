import BranchBound.Proofs.LatticePoints

/-!
# Splitting a box

What an accepted relaxation and a branching decision say about a box and its two
halves.  The decision is about an integral variable whose value is farther than
the tolerance from every integer.  Each lattice point of the box is in one of the
halves, and in one only if the tolerance is not negative.  The halves hold nothing else
as long as the value is not too far outside its interval.
-/

namespace BranchBound

variable {α : Type} [Scalar α]

/-! ## Accepted relaxations -/

namespace Relaxation

theorem valueFault?_eq_none {tol a : α} {var : Nat} {i : Interval α}
    (h : valueFault? tol var i a = none) :
    Scalar.isFinite a = true ∧ i.contains a tol = true := by
  unfold valueFault? at h
  split at h
  · cases h
  · split at h
    · cases h
    · simp_all

/-- An accepted relaxation has a finite objective and one finite value for each
interval, inside it up to the tolerance. -/
theorem fault?_eq_none {r : Relaxation α} {d : Domain α} {tol : α}
    (h : r.fault? d tol = none) :
    r.values.length = d.size ∧ Scalar.isFinite r.objective = true ∧
      ∀ (var : Nat) (i : Interval α) (a : α), d.get? var = some i → r.values[var]? = some a →
        Scalar.isFinite a = true ∧ i.contains a tol = true := by
  unfold fault? at h
  split at h
  · cases h
  · split at h
    · cases h
    next hlen hfin =>
      refine ⟨not_not.mp hlen, by simpa using hfin, ?_⟩
      intro var i a hi ha
      have hmem : ((i, a), var) ∈ (List.zip d.intervals r.values).zipIdx := by
        rw [List.mk_mem_zipIdx_iff_getElem?]
        exact List.getElem?_zip_eq_some.mpr ⟨hi, ha⟩
      exact valueFault?_eq_none (List.findSome?_eq_none_iff.mp h _ hmem)

end Relaxation

/-! ## Decisions -/

theorem VarKind.isIntegral_iff {kind : VarKind} :
    kind.isIntegral = true ↔ kind ≠ .continuous := by
  cases kind <;> simp [isIntegral]

namespace Problem

/-- A variable that can be branched on: it is not continuous, and its value is farther than the
tolerance from an integer. -/
def IsFractional (problem : Problem α) (values : List α) (tol : α) (var : Nat) (a : α) : Prop :=
  (∃ v, problem.vars[var]? = some v ∧ v.kind ≠ .continuous) ∧ values[var]? = some a ∧
    tol < fractionality a

variable {problem : Problem α} {values : List α} {tol : α} {f : Fractional α}

theorem mem_fractionalVars_iff : f ∈ problem.fractionalVars values tol ↔
    problem.IsFractional values tol f.var f.value ∧ f.distance = fractionality f.value := by
  unfold fractionalVars
  rw [List.mem_filterMap]
  constructor
  · rintro ⟨⟨⟨v, a⟩, var⟩, hmem, hf⟩
    rw [List.mk_mem_zipIdx_iff_getElem?, List.getElem?_zip_eq_some] at hmem
    simp only at hf
    split at hf
    next hcond =>
      obtain rfl := Option.some.inj hf
      rw [Bool.and_eq_true, VarKind.isIntegral_iff, decide_eq_true_eq] at hcond
      exact ⟨⟨⟨v, hmem.1, hcond.1⟩, hmem.2, hcond.2⟩, rfl⟩
    next => cases hf
  · rintro ⟨⟨⟨v, hv, hkind⟩, ha, hfar⟩, hdistance⟩
    obtain ⟨var, a, distance⟩ := f
    obtain rfl : distance = fractionality a := hdistance
    refine ⟨((v, a), var), ?_, if_pos ?_⟩
    · rw [List.mk_mem_zipIdx_iff_getElem?, List.getElem?_zip_eq_some]
      exact ⟨hv, ha⟩
    · rw [Bool.and_eq_true, VarKind.isIntegral_iff, decide_eq_true_eq]
      exact ⟨hkind, hfar⟩

/-- The fractional variables are the integral ones whose value is farther than the
tolerance from an integer. -/
theorem mem_fractionalVars (h : f ∈ problem.fractionalVars values tol) :
    ∃ v, problem.vars[f.var]? = some v ∧ values[f.var]? = some f.value ∧
      v.kind.isIntegral = true ∧ tol < fractionality f.value := by
  obtain ⟨⟨⟨v, hv, hkind⟩, ha, hfar⟩, -⟩ := mem_fractionalVars_iff.mp h
  exact ⟨v, hv, ha, VarKind.isIntegral_iff.mpr hkind, hfar⟩

end Problem

namespace BranchingRule

/-- The best entry of a fold is the one it began with or one it has met. -/
theorem foldl_farther_mem (l : List (Fractional α)) (best : Fractional α) :
    l.foldl (fun best next => if best.distance < next.distance then next else best) best ∈
      best :: l := by
  induction l generalizing best with
  | nil => simp
  | cons next l ih =>
      rw [List.foldl_cons]
      by_cases hfar : best.distance < next.distance
      · rw [if_pos hfar]
        exact List.mem_cons_of_mem best (ih next)
      · rw [if_neg hfar]
        rcases List.mem_cons.mp (ih best) with heq | hmem
        · rw [heq]
          exact List.mem_cons_self
        · exact List.mem_cons_of_mem best (List.mem_cons_of_mem next hmem)

theorem mostDistant?_mem {fractional : List (Fractional α)} {f : Fractional α}
    (h : mostDistant? fractional = some f) : f ∈ fractional := by
  cases fractional with
  | nil => cases h
  | cons first rest =>
      obtain rfl := Option.some.inj h
      exact foldl_farther_mem rest first

theorem choose?_mem {rule : BranchingRule} {fractional : List (Fractional α)}
    {f : Fractional α} (h : rule.choose? fractional = some f) : f ∈ fractional := by
  cases rule with
  | mostFractional => exact mostDistant?_mem h
  | firstFractional => exact List.mem_of_mem_head? h

/-- A decision splits the interval of a fractional variable at its value. -/
theorem select_eq_some {rule : BranchingRule} {problem : Problem α} {d : Domain α}
    {values : List α} {tol : α} {decision : Decision α}
    (h : rule.select problem d values tol = .ok (some decision)) :
    ∃ f ∈ problem.fractionalVars values tol, ∃ old, d.get? f.var = some old ∧
      decision = { var := f.var, value := f.value,
                   down := .down f.var old f.value, up := .up f.var old f.value } := by
  unfold select at h
  split at h
  · cases h
  next f hf =>
    refine ⟨f, choose?_mem hf, ?_⟩
    unfold Decision.split at h
    cases hold : d.get? f.var with
    | none => rw [hold] at h; cases h
    | some old =>
        rw [hold] at h
        exact ⟨old, rfl, (Option.some.inj (Except.ok.inj h)).symm⟩

end BranchingRule

/-! ## Halves -/

namespace Node

omit [Scalar α] in
/-- A child has the parent's box with one interval replaced, and inherits the
parent's bound. -/
theorem child_eq_ok {n c : Node α} {id : Nat} {change : BoundChange α}
    (h : n.child id change = .ok c) :
    ∃ d, n.domain.set? change.var change.interval = some d ∧ n.depth < maxDepth ∧
      c = { id, parent := some n.id, depth := n.depth + 1, domain := d,
            change := some change, estimate := n.bound, relaxation := none } := by
  unfold child at h
  split at h
  · cases h
  next d hd =>
    split at h
    next hdepth => exact ⟨d, hd, hdepth, (Except.ok.inj h).symm⟩
    next => cases h

omit [Scalar α] in
theorem child_domain {n c : Node α} {id : Nat} {change : BoundChange α}
    (h : n.child id change = .ok c) :
    n.domain.set? change.var change.interval = some c.domain := by
  obtain ⟨d, hd, -, rfl⟩ := child_eq_ok h
  exact hd

omit [Scalar α] in
theorem child_bound {n c : Node α} {id : Nat} {change : BoundChange α}
    (h : n.child id change = .ok c) : c.bound = n.bound := by
  obtain ⟨d, -, -, rfl⟩ := child_eq_ok h
  rfl

end Node

namespace Domain

variable [LawfulScalar α] {d down up : Domain α} {var : Nat} {old : Interval α} {v a : α}
  {r : ℚ} {p : List α}

/-- A point with an integer in the split coordinate stays in one of the halves. -/
theorem Holds.down_or_up (h : d.Holds p) (hold : d.get? var = some old)
    (hdown : d.set? var ⟨old.lower, Scalar.floor v⟩ = some down)
    (hup : d.set? var ⟨Scalar.ceil v, old.upper⟩ = some up)
    (ha : p[var]? = some a) (hint : Scalar.IsInteger a) (hv : Scalar.value v = .finite r) :
    down.Holds p ∨ up.Holds p := by
  obtain ⟨hlow, hhigh⟩ := h.get hold ha
  rcases Scalar.le_floor_or_ceil_le hint hv with hfloor | hceil
  · left
    exact ((holds_set?_iff hold hdown ha).mpr ⟨h, hlow, hfloor⟩).1
  · right
    exact ((holds_set?_iff hold hup ha).mpr ⟨h, hceil, hhigh⟩).1

omit [LawfulScalar α] in
/-- The split coordinate of a point in a half is in the half's interval. -/
theorem Holds.get_set? {new : Interval α} (h : down.Holds p)
    (hdown : d.set? var new = some down) : ∃ a, p[var]? = some a ∧ new.Holds a := by
  have hlt : var < p.length := by
    rw [h.length_eq, size_set? hdown]
    exact (set?_eq_some hdown).1
  refine ⟨p[var], List.getElem?_eq_getElem hlt, ?_⟩
  exact h.get (by rw [get?_set? hdown, if_pos rfl]) (List.getElem?_eq_getElem hlt)

/-- No point is in both halves unless the box is split at an integer. -/
theorem Holds.not_down_and_up (hdown : d.set? var ⟨old.lower, Scalar.floor v⟩ = some down)
    (hup : d.set? var ⟨Scalar.ceil v, old.upper⟩ = some up)
    (hv : Scalar.value v = .finite r) (hr : r.floor < r) (h : down.Holds p) : ¬up.Holds p := by
  intro h'
  obtain ⟨a, ha, -, hfloor⟩ := h.get_set? hdown
  obtain ⟨b, hb, hceil, -⟩ := h'.get_set? hup
  obtain rfl := Option.some.inj (ha.symm.trans hb)
  exact Scalar.not_le_floor_and_ceil_le hv hr hfloor hceil

/-- A lower half that does not reach beyond the box is in the box. -/
theorem Holds.of_down (hold : d.get? var = some old)
    (hdown : d.set? var ⟨old.lower, Scalar.floor v⟩ = some down)
    (hle : Scalar.floor v ≤ old.upper) (h : down.Holds p) : d.Holds p := by
  obtain ⟨a, ha, hlow, hfloor⟩ := h.get_set? hdown
  exact ((holds_set?_iff hold hdown ha).mp ⟨h, hlow, Scalar.le_trans hfloor hle⟩).1

/-- An upper half that does not reach beyond the box is in the box. -/
theorem Holds.of_up (hold : d.get? var = some old)
    (hup : d.set? var ⟨Scalar.ceil v, old.upper⟩ = some up)
    (hle : old.lower ≤ Scalar.ceil v) (h : up.Holds p) : d.Holds p := by
  obtain ⟨a, ha, hceil, hhigh⟩ := h.get_set? hup
  exact ((holds_set?_iff hold hup ha).mp ⟨h, Scalar.le_trans hle hceil, hhigh⟩).1

end Domain

/-! ## Values outside the box -/

namespace Interval

/-- A value inside an interval up to a tolerance, the widened bounds taken without
rounding. -/
def HoldsWithin (i : Interval α) (tol a : α) : Prop :=
  Scalar.value i.lower - Scalar.value tol ≤ Scalar.value a ∧
    Scalar.value a ≤ Scalar.value i.upper + Scalar.value tol

variable [LawfulScalar α] {i : Interval α} {tol a : α} {r : ℚ}

/-- A fractional value that exceeds a bound by no more than the tolerance has no
integer between itself and the bound. -/
theorem HoldsWithin.floor_le_and_le_ceil (h : i.HoldsWithin tol a)
    (ha : Scalar.value a = .finite r) (htol : Scalar.ofInt 0 ≤ tol)
    (hfrac : tol < fractionality a) : Scalar.floor a ≤ i.upper ∧ i.lower ≤ Scalar.ceil a := by
  obtain ⟨t, ht, htv⟩ := Scalar.value_of_lt_fractionality ha htol hfrac
  obtain ⟨hlow, hhigh⟩ := h
  rw [ha, htv] at hlow hhigh
  rw [LawfulScalar.le_iff_value (Scalar.floor a), LawfulScalar.le_iff_value i.lower,
    Scalar.value_floor_of_finite ha, Scalar.value_ceil_of_finite ha]
  constructor
  · rcases hu : Scalar.value i.upper with _ | (_ | _) | u
    · rw [hu] at hhigh
      exact hhigh.elim
    · exact rfl
    · rw [hu] at hhigh
      exact absurd hhigh Bool.noConfusion
    · rw [hu] at hhigh
      have hru : r ≤ u + t := hhigh
      rw [Exact.finite_le_finite]
      by_contra hlt
      have hdist := Scalar.lt_abs_sub_of_lt_fractionality ha htv hfrac r.floor
      rw [abs_of_nonneg (sub_nonneg.mpr (Rat.floor_le r))] at hdist
      linarith
  · rcases hl : Scalar.value i.lower with _ | (_ | _) | l
    · rw [hl] at hlow
      exact hlow.elim
    · rw [hl] at hlow
      exact absurd hlow Bool.noConfusion
    · exact rfl
    · rw [hl, Exact.finite_sub_finite, Exact.finite_le_finite] at hlow
      rw [Exact.finite_le_finite]
      by_contra hlt
      have hdist := Scalar.lt_abs_sub_of_lt_fractionality ha htv hfrac r.ceil
      rw [abs_of_nonpos (sub_nonpos.mpr Rat.le_ceil)] at hdist
      linarith

end Interval

/-! ## Splits -/

/-- A box is split in two at a fractional variable of an accepted solution. -/
structure Problem.Splits (problem : Problem α) (tol : α) (d : Domain α) (r : Relaxation α)
    (f : Fractional α) (old : Interval α) (down up : Domain α) : Prop where
  usable : r.fault? d tol = none
  mem : f ∈ problem.fractionalVars r.values tol
  get : d.get? f.var = some old
  down_eq : d.set? f.var ⟨old.lower, Scalar.floor f.value⟩ = some down
  up_eq : d.set? f.var ⟨Scalar.ceil f.value, old.upper⟩ = some up

namespace Problem.Splits

variable {problem : Problem α} {tol : α} {d down up : Domain α} {r : Relaxation α}
  {f : Fractional α} {old : Interval α} {p : List α}

theorem of_child {node low high : Node α} {id id' : Nat}
    (husable : r.fault? node.domain tol = none) (hf : f ∈ problem.fractionalVars r.values tol)
    (hold : node.domain.get? f.var = some old)
    (hlow : { node with relaxation := some r }.child id (.down f.var old f.value) = .ok low)
    (hhigh : { node with relaxation := some r }.child id' (.up f.var old f.value) = .ok high) :
    problem.Splits tol node.domain r f old low.domain high.domain :=
  ⟨husable, hf, hold, Node.child_domain hlow, Node.child_domain hhigh⟩

variable [LawfulScalar α]

/-- The box is split at a finite value of an integral variable. -/
theorem value_eq (h : problem.Splits tol d r f old down up) :
    r.values[f.var]? = some f.value ∧ tol < fractionality f.value ∧
      (∃ v, problem.vars[f.var]? = some v ∧ v.kind.isIntegral = true) ∧
      ∃ q, Scalar.value f.value = .finite q := by
  obtain ⟨v, hv, hvalue, hkind, hfrac⟩ := Problem.mem_fractionalVars h.mem
  have hfinite := ((Relaxation.fault?_eq_none h.usable).2.2 f.var old f.value h.get hvalue).1
  exact ⟨hvalue, hfrac, ⟨v, hv, hkind⟩, Scalar.isFinite_iff.mp hfinite⟩

/-- A lattice point of the box is in one of the halves. -/
theorem down_or_up (h : problem.Splits tol d r f old down up) (hp : d.Holds p)
    (hinteger : problem.IsIntegerPoint p) : down.Holds p ∨ up.Holds p := by
  obtain ⟨-, -, ⟨v, hv, hkind⟩, q, hq⟩ := h.value_eq
  have hlt : f.var < p.length := by
    rw [hp.length_eq]
    exact (Domain.set?_eq_some h.down_eq).1
  have ha := List.getElem?_eq_getElem hlt
  exact hp.down_or_up h.get h.down_eq h.up_eq ha (hinteger f.var v _ hv ha hkind) hq

/-- No point is in both halves. -/
theorem not_down_and_up (h : problem.Splits tol d r f old down up)
    (htol : Scalar.ofInt 0 ≤ tol) (hdown : down.Holds p) : ¬up.Holds p := by
  obtain ⟨-, hfrac, -, q, hq⟩ := h.value_eq
  exact hdown.not_down_and_up h.down_eq h.up_eq hq
    (Scalar.floor_lt_of_lt_fractionality hq htol hfrac)

/-- A point of a half is in the box if the value exceeds its interval by no more than the
tolerance. -/
theorem holds_of_down_or_up (h : problem.Splits tol d r f old down up)
    (htol : Scalar.ofInt 0 ≤ tol) (hwithin : old.HoldsWithin tol f.value)
    (hp : down.Holds p ∨ up.Holds p) : d.Holds p := by
  obtain ⟨-, hfrac, -, q, hq⟩ := h.value_eq
  obtain ⟨hfloor, hceil⟩ := hwithin.floor_le_and_le_ceil hq htol hfrac
  rcases hp with hdown | hup
  · exact hdown.of_down h.get h.down_eq hfloor
  · exact hup.of_up h.get h.up_eq hceil

end Problem.Splits

end BranchBound
