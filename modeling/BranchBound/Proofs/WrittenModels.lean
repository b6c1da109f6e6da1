import Mathlib.Algebra.Ring.Int.Defs
import BranchBound.Binary64
import BranchBound.Proofs.ModelFiles

/-!
# Written models

A model is built from what is written down: the terms of a row are checked one by one, then
sorted by column, and the coefficients of one column are added up.  Written down again, it is
read back as the same model if all those sums are finite.  A sum of finite coefficients can be
too large for the number system; such a model is built without complaint, and what it writes
down is refused.
-/

namespace BranchBound

variable {α : Type} [Scalar α]

/-! ## Bounds -/

/-- A bound that is written down only if it is finite is read back, if it is finite or the one
that stands for a missing bound. -/
theorem getD_ite_isFinite {bound : Option α} (h : ∀ a ∈ bound, Scalar.isFinite a = true)
    (free : α) :
    (if Scalar.isFinite (bound.getD free) then some (bound.getD free) else none).getD free =
      bound.getD free := by
  split
  next => rfl
  next hinfinite =>
    cases bound with
    | none => rfl
    | some a => exact absurd (h a rfl) hinfinite

/-- Bounds that are given are finite. -/
def VariableEntry.HasFiniteBounds (entry : VariableEntry α) : Prop :=
  (∀ a ∈ entry.lower, Scalar.isFinite a = true) ∧ ∀ a ∈ entry.upper, Scalar.isFinite a = true

instance instDecidableHasFiniteBounds (entry : VariableEntry α) :
    Decidable entry.HasFiniteBounds :=
  inferInstanceAs (Decidable (_ ∧ _))

theorem VariableEntry.HasFiniteBounds.toVariable_toEntry {entry : VariableEntry α}
    (h : entry.HasFiniteBounds) : entry.toVariable.toEntry.toVariable = entry.toVariable := by
  unfold VariableEntry.toVariable Variable.toEntry
  simp only
  rw [getD_ite_isFinite h.1, getD_ite_isFinite h.2]

namespace LinearModel

variable {file : ModelFile α} {m : LinearModel α}

/-- What is written down is read back, if nothing in it is refused. -/
theorem ofFile_toFile_of_fault? (h : ofFile file = .ok m)
    (hbounds : ∀ v ∈ file.vars, v.HasFiniteBounds)
    (hfault : m.toFile.fault? = none) : ofFile m.toFile = .ok m := by
  obtain ⟨-, hvalid, hm⟩ := ofFile_eq_ok_iff.mp h
  have hvars : m.toFile.vars.map VariableEntry.toVariable = m.vars := by
    rw [hm, toFile, List.map_map, List.map_map]
    exact List.map_congr_left fun v hv => (hbounds v hv).toVariable_toEntry
  have hrows : m.toFile.constraints.map Constraint.normalise = m.constraints := by
    rw [hm, toFile, List.map_map]
    exact List.map_congr_left fun c _ => c.normalise_normalise
  refine ofFile_eq_ok_iff.mpr ⟨hfault, hvalid, ?_⟩
  rw [hvars, hrows]
  rfl

/-- **Models that are written down and read back.**  Let the bounds that a file gives be finite,
and let a model be built from it.  A row of the model has increasing columns, each with the sum of
the coefficients that the file gives for it.  The model is read back from what it writes down
exactly if all those sums are finite; if one is not, what it writes down is refused for such a
coefficient.  The sums are finite if no row repeats a column, or if the finite numbers are closed
under addition. -/
theorem ofFile_toFile_eq_ok_iff (hbounds : ∀ v ∈ file.vars, v.HasFiniteBounds)
    (h : ofFile file = .ok m) :
    List.Forall₂ Constraint.Merges file.constraints m.constraints ∧
    (ofFile m.toFile = .ok m ↔ ∀ c ∈ m.constraints, c.HasFiniteTerms) ∧
    (ofFile m.toFile ≠ .ok m → ∃ row c, m.constraints[row]? = some c ∧ ∃ term ∈ c.terms,
      Scalar.isFinite term.2 = false ∧
        ofFile m.toFile = .error (.coefficientNotFinite row term.1)) ∧
    ((∀ c ∈ file.constraints, (c.terms.map Prod.fst).Nodup) → ofFile m.toFile = .ok m) ∧
    ((∀ a b : α, Scalar.isFinite a = true → Scalar.isFinite b = true →
      Scalar.isFinite (a + b) = true) → ofFile m.toFile = .ok m) := by
  have hread : ofFile m.toFile = .ok m ↔ ∀ c ∈ m.constraints, c.HasFiniteTerms := by
    constructor
    · intro hread
      exact (ModelFile.fault?_eq_none_iff.mp (ofFile_eq_ok_iff.mp hread).1).2
    · intro hterms
      exact ofFile_toFile_of_fault? h hbounds
        (ModelFile.fault?_eq_none_iff.mpr ⟨isFormed_toFile h, hterms⟩)
  refine ⟨forall₂_merges_of_ofFile h, hread, ?_, ?_, ?_⟩
  · intro hrefused
    have hfaulty : m.toFile.fault? ≠ none := fun hnone =>
      hrefused (ofFile_toFile_of_fault? h hbounds hnone)
    obtain ⟨fault, hfault⟩ := Option.ne_none_iff_exists'.mp hfaulty
    obtain ⟨row, c, hc, term, hterm, hinfinite, rfl⟩ := (isFormed_toFile h).fault?_eq_some hfault
    refine ⟨row, c, hc, term, hterm, hinfinite, ?_⟩
    rw [ofFile, hfault]
  · intro hnodup
    exact hread.mpr (forall_hasFiniteTerms h fun c hc stored hmerges =>
      hmerges.isFinite_of_nodup (hnodup c hc))
  · intro hclosed
    exact hread.mpr (forall_hasFiniteTerms h fun c hc stored hmerges =>
      hmerges.isFinite_of_closed hclosed)

/-- A file with columns out of order and repeated, and with bounds missing. -/
def scattered : ModelFile Float where
  objective := [Scalar.ofInt 1, Scalar.ofInt (-1)]
  vars := [{ kind := .binary }, { kind := .integer, lower := some (Scalar.ofInt 2) }]
  constraints := [⟨[(1, Scalar.ofInt 2), (0, Scalar.ofInt 5), (1, Scalar.ofInt 3)], .ge,
    Scalar.ofInt 7⟩]

/-- A model with scattered terms is read back, its two coefficients of one column added up. -/
theorem ofFile_toFile_scattered : ∃ m, ofFile scattered = .ok m ∧
    List.Forall₂ Constraint.Merges scattered.constraints m.constraints ∧
    m.constraints.map Constraint.terms = [[(0, Scalar.ofInt 5), (1, Scalar.ofInt 5)]] ∧
    ofFile m.toFile = .ok m := by
  obtain ⟨m, hfile, hterms, hfinite⟩ : ∃ m, ofFile scattered = .ok m ∧
      m.constraints.map Constraint.terms = [[(0, Scalar.ofInt 5), (1, Scalar.ofInt 5)]] ∧
      ∀ c ∈ m.constraints, c.HasFiniteTerms :=
    ⟨{ name := ""
       objective := [Scalar.ofInt 1, Scalar.ofInt (-1)]
       vars := [.binary, { kind := .integer, bounds := ⟨Scalar.ofInt 2, Scalar.posInf⟩ }]
       constraints := [⟨[(0, Scalar.ofInt 5), (1, Scalar.ofInt 5)], .ge, Scalar.ofInt 7⟩] },
      by decide +kernel, rfl, by decide +kernel⟩
  obtain ⟨hmerges, hread, -⟩ := ofFile_toFile_eq_ok_iff (by decide +kernel) hfile
  exact ⟨m, hfile, hmerges, hterms, hread.mpr hfinite⟩

/-- A file that names the only column of its row twice, with a coefficient of `10 ^ 308`. -/
def overflowing : ModelFile Float where
  objective := [Scalar.ofInt 1]
  vars := [{ kind := .integer, lower := some (Scalar.ofInt 0), upper := some (Scalar.ofInt 1) }]
  constraints := [⟨[(0, Scalar.ofInt (10 ^ 308)), (0, Scalar.ofInt (10 ^ 308))], .le,
    Scalar.ofInt 1⟩]

/-- All numbers of the file are finite, and a model is built from it.  A coefficient of the model
is not finite, and what the model writes down is refused for it. -/
theorem ofFile_toFile_overflowing :
    (∀ v ∈ overflowing.vars, v.HasFiniteBounds) ∧
    (∀ c ∈ overflowing.constraints, c.HasFiniteTerms) ∧
    ∃ m, ofFile overflowing = .ok m ∧ ¬(∀ c ∈ m.constraints, c.HasFiniteTerms) ∧
      ofFile m.toFile = .error (.coefficientNotFinite 0 0) := by
  refine ⟨by decide +kernel, by decide +kernel, ?_⟩
  exact ⟨{ name := ""
           objective := [Scalar.ofInt 1]
           vars := [{ kind := .integer, bounds := ⟨Scalar.ofInt 0, Scalar.ofInt 1⟩ }]
           constraints := [⟨[(0, Scalar.posInf)], .le, Scalar.ofInt 1⟩] },
    by decide +kernel, by decide +kernel, by decide +kernel⟩

end LinearModel

end BranchBound
