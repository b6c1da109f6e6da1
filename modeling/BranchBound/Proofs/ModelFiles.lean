import Mathlib.Data.List.Forall2
import Mathlib.Data.List.Induction
import Mathlib.Data.List.Nodup
import Mathlib.Order.Nat
import BranchBound.Model

/-!
# Files and their models

What a model is that was built from a file.  The numbers of the file were finite and its columns
in range.  A row of the model has increasing columns, each with the sum of the coefficients that
the file gives for it; nothing is known about these sums unless finite numbers are closed under
addition or no column is repeated.
-/

namespace BranchBound

variable {α : Type} [Scalar α]

/-! ## Sorted rows -/

namespace Constraint

/-- Coefficients of a column, in the order in which they are written down. -/
def coefficients (terms : List (Nat × α)) (column : Nat) : List α :=
  (terms.filter fun term => term.1 == column).map Prod.snd

/-- Sum of some coefficients, from left to right; there is none of no coefficients. -/
def total : List α → Option α
  | [] => none
  | a :: rest => some (rest.foldl (· + ·) a)

/-- A row with increasing columns, each named once. -/
def IsSorted (terms : List (Nat × α)) : Prop :=
  terms.Pairwise fun term later => term.1 < later.1

/-- Every coefficient of a row is finite. -/
def HasFiniteTerms (c : Constraint α) : Prop :=
  ∀ term ∈ c.terms, Scalar.isFinite term.2 = true

instance instDecidableHasFiniteTerms (c : Constraint α) : Decidable c.HasFiniteTerms :=
  inferInstanceAs (Decidable (∀ term ∈ c.terms, _))

/-- A row holds the sum of its coefficients for each column that is written down. -/
structure Merges (c stored : Constraint α) : Prop where
  sense_eq : stored.sense = c.sense
  rhs_eq : stored.rhs = c.rhs
  sorted : IsSorted stored.terms
  lookup_eq : ∀ column, stored.terms.lookup column = total (coefficients c.terms column)

variable {terms row : List (Nat × α)} {column : Nat} {a : α}

theorem total_concat (l : List α) (a : α) :
    total (l ++ [a]) = some ((total l).elim a (· + a)) := by
  cases l with
  | nil => rfl
  | cons b rest => simp [total]

omit [Scalar α] in
theorem coefficients_concat (terms : List (Nat × α)) (term : Nat × α) (column : Nat) :
    coefficients (terms ++ [term]) column =
      coefficients terms column ++ if term.1 = column then [term.2] else [] := by
  unfold coefficients
  rw [List.filter_append, List.map_append]
  split <;> simp_all

/-- What holds of a column and of the columns of a row holds of the columns of the row with
a term added. -/
theorem forall_insertTerm {P : Nat → Prop} (hcolumn : P column) (hrow : ∀ term ∈ row, P term.1) :
    ∀ term ∈ insertTerm column a row, P term.1 := by
  induction row with
  | nil => simpa [insertTerm] using hcolumn
  | cons first rest ih =>
      obtain ⟨j, b⟩ := first
      obtain ⟨hfirst, hrest⟩ := List.forall_mem_cons.mp hrow
      unfold insertTerm
      split
      · exact List.forall_mem_cons.mpr ⟨hcolumn, hrow⟩
      · split
        · exact List.forall_mem_cons.mpr ⟨hfirst, hrest⟩
        · exact List.forall_mem_cons.mpr ⟨hfirst, ih hrest⟩

theorem IsSorted.insertTerm (h : IsSorted row) :
    IsSorted (Constraint.insertTerm column a row) := by
  induction row with
  | nil => exact List.pairwise_singleton _ _
  | cons first rest ih =>
      obtain ⟨j, b⟩ := first
      obtain ⟨hfirst, hrest⟩ := List.pairwise_cons.mp h
      unfold Constraint.insertTerm
      split
      next hlt =>
        refine List.pairwise_cons.mpr ⟨List.forall_mem_cons.mpr ⟨hlt, ?_⟩, h⟩
        exact fun term hterm => hlt.trans (hfirst term hterm)
      next hge =>
        split
        next => exact List.pairwise_cons.mpr ⟨hfirst, hrest⟩
        next hne =>
          have hlt : j < column := lt_of_le_of_ne (not_lt.mp hge) (Ne.symm hne)
          exact List.pairwise_cons.mpr ⟨forall_insertTerm hlt hfirst, ih hrest⟩

omit [Scalar α] in
theorem lookup_cons_eq_ite (k j : Nat) (b : α) (rest : List (Nat × α)) :
    ((k, b) :: rest).lookup j = if k = j then some b else rest.lookup j := by
  by_cases h : k = j
  · simp [h]
  · rw [if_neg h, List.lookup_cons, beq_false_of_ne (Ne.symm h)]

omit [Scalar α] in
theorem lookup_eq_none_of_forall_lt (h : ∀ term ∈ row, column < term.1) :
    row.lookup column = none := by
  rw [List.lookup_eq_none_iff]
  intro term hterm
  simpa using (h term hterm).ne

/-- A term that is added changes its own column only. -/
theorem IsSorted.lookup_insertTerm (h : IsSorted row) (j : Nat) :
    (Constraint.insertTerm column a row).lookup j =
      if column = j then some ((row.lookup j).elim a (· + a)) else row.lookup j := by
  induction row with
  | nil => rw [Constraint.insertTerm, lookup_cons_eq_ite, List.lookup_nil, Option.elim_none]
  | cons first rest ih =>
      obtain ⟨k, b⟩ := first
      obtain ⟨hfirst, hrest⟩ := List.pairwise_cons.mp h
      unfold Constraint.insertTerm
      split
      next hlt =>
        rw [lookup_cons_eq_ite]
        split
        next heq =>
          have hnone : ((k, b) :: rest).lookup j = none := by
            apply lookup_eq_none_of_forall_lt
            rw [← heq, List.forall_mem_cons]
            exact ⟨hlt, fun term hterm => hlt.trans (hfirst term hterm)⟩
          rw [hnone, Option.elim_none]
        next => rfl
      next hge =>
        split
        next heq =>
          rw [lookup_cons_eq_ite, lookup_cons_eq_ite, heq]
          split <;> rfl
        next hne =>
          rw [lookup_cons_eq_ite, ih hrest, lookup_cons_eq_ite]
          by_cases hkj : k = j
          · rw [if_pos hkj, if_pos hkj, if_neg (hkj ▸ hne)]
          · rw [if_neg hkj, if_neg hkj]

theorem insertTerm_of_forall_lt (h : ∀ term ∈ row, term.1 < column) :
    insertTerm column a row = row ++ [(column, a)] := by
  induction row with
  | nil => rfl
  | cons first rest ih =>
      rw [List.forall_mem_cons] at h
      rw [insertTerm, if_neg h.1.not_gt, if_neg h.1.ne', ih h.2, List.cons_append]

theorem normalTerms_concat (terms : List (Nat × α)) (term : Nat × α) :
    normalTerms (terms ++ [term]) = insertTerm term.1 term.2 (normalTerms terms) := by
  rw [normalTerms, List.foldl_concat, ← normalTerms]

theorem isSorted_normalTerms (terms : List (Nat × α)) : IsSorted (normalTerms terms) := by
  induction terms using List.reverseRecOn with
  | nil => exact List.Pairwise.nil
  | append_singleton terms term ih =>
      rw [normalTerms_concat]
      exact ih.insertTerm

/-- The coefficient of a column is the sum of those that are written down. -/
theorem lookup_normalTerms (terms : List (Nat × α)) (column : Nat) :
    (normalTerms terms).lookup column = total (coefficients terms column) := by
  induction terms using List.reverseRecOn with
  | nil => rfl
  | append_singleton terms term ih =>
      rw [normalTerms_concat, (isSorted_normalTerms terms).lookup_insertTerm, ih,
        coefficients_concat]
      split
      · rw [total_concat]
      · rw [List.append_nil]

/-- A sorted row is in normal form. -/
theorem IsSorted.normalTerms_eq (h : IsSorted terms) : normalTerms terms = terms := by
  induction terms using List.reverseRecOn with
  | nil => rfl
  | append_singleton terms term ih =>
      obtain ⟨hsorted, -, hlast⟩ := List.pairwise_append.mp h
      rw [normalTerms_concat, ih hsorted, insertTerm_of_forall_lt]
      intro old hold
      exact hlast old hold term (List.mem_singleton_self term)

theorem merges_normalise (c : Constraint α) : c.Merges c.normalise :=
  ⟨rfl, rfl, isSorted_normalTerms c.terms, lookup_normalTerms c.terms⟩

omit [Scalar α] in
theorem IsSorted.lookup_of_mem (h : IsSorted terms) {term : Nat × α} (hterm : term ∈ terms) :
    terms.lookup term.1 = some term.2 := by
  induction terms with
  | nil => cases hterm
  | cons first rest ih =>
      obtain ⟨k, b⟩ := first
      obtain ⟨hfirst, hrest⟩ := List.pairwise_cons.mp h
      rw [lookup_cons_eq_ite]
      rcases List.mem_cons.mp hterm with rfl | hmem
      · rw [if_pos rfl]
      · rw [if_neg (hfirst term hmem).ne, ih hrest hmem]

theorem normalise_normalise (c : Constraint α) : c.normalise.normalise = c.normalise :=
  congrArg (fun terms => { c with terms }) (isSorted_normalTerms c.terms).normalTerms_eq

/-! ## Finite sums -/

theorem isFinite_total (hclosed : ∀ a b : α, Scalar.isFinite a = true → Scalar.isFinite b = true →
      Scalar.isFinite (a + b) = true) {l : List α} (hl : ∀ b ∈ l, Scalar.isFinite b = true)
    (h : total l = some a) : Scalar.isFinite a = true := by
  induction l using List.reverseRecOn generalizing a with
  | nil => cases h
  | append_singleton l b ih =>
      rw [List.forall_mem_append, List.forall_mem_singleton] at hl
      rw [total_concat, Option.some.injEq] at h
      rw [← h]
      cases htotal : total l with
      | none => exact hl.2
      | some sum => exact hclosed sum b (ih hl.1 htotal) hl.2

theorem mem_of_total (l : List α) (hlength : l.length ≤ 1) (h : total l = some a) : a ∈ l := by
  match l, hlength with
  | [b], _ => exact List.mem_singleton.mpr (Option.some.inj h).symm

omit [Scalar α] in
theorem exists_of_mem_coefficients (h : a ∈ coefficients terms column) :
    ∃ term ∈ terms, term.2 = a := by
  obtain ⟨term, hterm, rfl⟩ := List.mem_map.mp h
  exact ⟨term, List.mem_of_mem_filter hterm, rfl⟩

omit [Scalar α] in
/-- A column that is named once has one coefficient. -/
theorem length_coefficients_le_one (h : (terms.map Prod.fst).Nodup) (column : Nat) :
    (coefficients terms column).length ≤ 1 := by
  have hnodup : ((terms.filter fun term => term.1 == column).map Prod.fst).Nodup :=
    h.sublist (List.filter_sublist.map Prod.fst)
  have hsame : (terms.filter fun term => term.1 == column).map Prod.fst =
      List.replicate (coefficients terms column).length column := by
    rw [List.eq_replicate_iff]
    refine ⟨by simp [coefficients], ?_⟩
    intro j hj
    obtain ⟨term, hterm, rfl⟩ := List.mem_map.mp hj
    exact beq_iff_eq.mp (List.mem_filter.mp hterm).2
  rw [hsame, List.nodup_replicate] at hnodup
  exact hnodup

namespace Merges

variable {c stored : Constraint α}

theorem total_eq (h : c.Merges stored) {term : Nat × α} (hterm : term ∈ stored.terms) :
    total (coefficients c.terms term.1) = some term.2 := by
  rw [← h.lookup_eq, h.sorted.lookup_of_mem hterm]

theorem isFinite_of_nodup (h : c.Merges stored) (hnodup : (c.terms.map Prod.fst).Nodup)
    (hfinite : c.HasFiniteTerms) : stored.HasFiniteTerms := by
  intro term hterm
  obtain ⟨old, hold, heq⟩ := exists_of_mem_coefficients
    (mem_of_total _ (length_coefficients_le_one hnodup term.1) (h.total_eq hterm))
  exact heq ▸ hfinite old hold

theorem isFinite_of_closed (h : c.Merges stored)
    (hclosed : ∀ a b : α, Scalar.isFinite a = true → Scalar.isFinite b = true →
      Scalar.isFinite (a + b) = true)
    (hfinite : c.HasFiniteTerms) : stored.HasFiniteTerms := by
  intro term hterm
  apply isFinite_total hclosed _ (h.total_eq hterm)
  intro b hb
  obtain ⟨old, hold, heq⟩ := exists_of_mem_coefficients hb
  exact heq ▸ hfinite old hold

/-- Merging names no new column. -/
theorem exists_fst_eq (h : c.Merges stored) {term : Nat × α} (hterm : term ∈ stored.terms) :
    ∃ old ∈ c.terms, old.1 = term.1 := by
  have htotal := h.total_eq hterm
  cases hcoefficients : coefficients c.terms term.1 with
  | nil =>
      rw [hcoefficients] at htotal
      cases htotal
  | cons a rest =>
      have ha : a ∈ coefficients c.terms term.1 := by
        rw [hcoefficients]
        exact List.mem_cons_self
      obtain ⟨old, hold, -⟩ := List.mem_map.mp ha
      exact ⟨old, List.mem_of_mem_filter hold, beq_iff_eq.mp (List.mem_filter.mp hold).2⟩

end Merges

end Constraint

/-! ## Files -/

namespace Constraint

variable {n row : Nat} {c : Constraint α}

theorem termFault?_eq_none_iff {term : Nat × α} :
    termFault? n row term = none ↔ term.1 < n ∧ Scalar.isFinite term.2 = true := by
  unfold termFault?
  split
  next hrange => simp [hrange.not_gt]
  next hrange =>
    rw [not_le] at hrange
    split <;> simp_all

theorem fault?_eq_none_iff : c.fault? n row = none ↔ Scalar.isFinite c.rhs = true ∧
    ∀ term ∈ c.terms, term.1 < n ∧ Scalar.isFinite term.2 = true := by
  unfold fault?
  split
  next hrhs => simp_all
  next hrhs => simp_all [List.findSome?_eq_none_iff, termFault?_eq_none_iff]

/-- In a row with a finite right-hand side and columns in range only a coefficient can be
wrong. -/
theorem fault?_eq_some {fault : ModelFault α} (hrhs : Scalar.isFinite c.rhs = true)
    (hcolumns : ∀ term ∈ c.terms, term.1 < n) (h : c.fault? n row = some fault) :
    ∃ term ∈ c.terms, Scalar.isFinite term.2 = false ∧
      fault = .coefficientNotFinite row term.1 := by
  rw [fault?, if_neg (by simp [hrhs])] at h
  obtain ⟨term, hterm, hfault⟩ := List.exists_of_findSome?_eq_some h
  rw [termFault?, if_neg (hcolumns term hterm).not_ge] at hfault
  split at hfault
  next hinfinite =>
    exact ⟨term, hterm, by simpa using hinfinite, (Option.some.inj hfault).symm⟩
  next => cases hfault

end Constraint

namespace ModelFile

/-- A file in which at most coefficients are wrong. -/
structure IsFormed (file : ModelFile α) : Prop where
  length_objective : file.objective.length = file.vars.length
  isFinite_objective : ∀ a ∈ file.objective, Scalar.isFinite a = true
  isFinite_rhs : ∀ c ∈ file.constraints, Scalar.isFinite c.rhs = true
  columns : ∀ c ∈ file.constraints, ∀ term ∈ c.terms, term.1 < file.vars.length

variable {file : ModelFile α}

/-- Once the costs are in order, the first wrong row is what is wrong. -/
theorem fault?_of_objective (hlength : file.objective.length = file.vars.length)
    (hfinite : ∀ a ∈ file.objective, Scalar.isFinite a = true) :
    file.fault? = file.constraints.zipIdx.findSome? fun row =>
      row.1.fault? file.vars.length row.2 := by
  have hnone : (file.objective.findIdx? fun cost => !Scalar.isFinite cost) = none := by
    rw [List.findIdx?_eq_none_iff]
    intro a ha
    simp [hfinite a ha]
  simp only [fault?, hlength, ne_eq, not_true_eq_false, if_false, hnone]

theorem fault?_eq_none_iff : file.fault? = none ↔
    file.IsFormed ∧ ∀ c ∈ file.constraints, c.HasFiniteTerms := by
  constructor
  · intro h
    have hlength : file.objective.length = file.vars.length := by
      by_contra hne
      simp [fault?, hne] at h
    have hfinite : ∀ a ∈ file.objective, Scalar.isFinite a = true := by
      simp only [fault?, hlength, ne_eq, not_true_eq_false, if_false] at h
      split at h
      next => cases h
      next hnone =>
        rw [List.findIdx?_eq_none_iff] at hnone
        simpa using hnone
    rw [fault?_of_objective hlength hfinite, List.findSome?_eq_none_iff] at h
    have hrows : ∀ c ∈ file.constraints, Scalar.isFinite c.rhs = true ∧
        ∀ term ∈ c.terms, term.1 < file.vars.length ∧ Scalar.isFinite term.2 = true := by
      intro c hc
      obtain ⟨i, hi⟩ := List.mem_iff_getElem?.mp hc
      exact Constraint.fault?_eq_none_iff.mp
        (h (c, i) (List.mk_mem_zipIdx_iff_getElem?.mpr hi))
    exact ⟨⟨hlength, hfinite, fun c hc => (hrows c hc).1,
      fun c hc term hterm => ((hrows c hc).2 term hterm).1⟩,
      fun c hc term hterm => ((hrows c hc).2 term hterm).2⟩
  · rintro ⟨hformed, hterms⟩
    rw [fault?_of_objective hformed.length_objective hformed.isFinite_objective,
      List.findSome?_eq_none_iff]
    rintro ⟨c, i⟩ hrow
    have hc := List.mem_of_getElem? (List.mk_mem_zipIdx_iff_getElem?.mp hrow)
    exact Constraint.fault?_eq_none_iff.mpr ⟨hformed.isFinite_rhs c hc,
      fun term hterm => ⟨hformed.columns c hc term hterm, hterms c hc term hterm⟩⟩

theorem IsFormed.fault?_eq_some (h : file.IsFormed) {fault : ModelFault α}
    (hfault : file.fault? = some fault) :
    ∃ row c, file.constraints[row]? = some c ∧ ∃ term ∈ c.terms,
      Scalar.isFinite term.2 = false ∧ fault = .coefficientNotFinite row term.1 := by
  rw [fault?_of_objective h.length_objective h.isFinite_objective] at hfault
  obtain ⟨⟨c, i⟩, hrow, hc⟩ := List.exists_of_findSome?_eq_some hfault
  have hget := List.mk_mem_zipIdx_iff_getElem?.mp hrow
  have hmem := List.mem_of_getElem? hget
  exact ⟨i, c, hget, Constraint.fault?_eq_some (h.isFinite_rhs c hmem) (h.columns c hmem) hc⟩

end ModelFile

namespace LinearModel

variable {file : ModelFile α} {m : LinearModel α}

theorem ofFile_eq_ok_iff : ofFile file = .ok m ↔
    file.fault? = none ∧ m.problem.fault? = none ∧ m =
      { name := file.name
        objective := file.objective
        vars := file.vars.map VariableEntry.toVariable
        constraints := file.constraints.map Constraint.normalise } := by
  unfold ofFile Problem.validate
  cases hfault : file.fault? with
  | some fault => simp
  | none =>
      simp only
      constructor
      · intro h
        split at h
        next => cases h
        next hvalid =>
          split at hvalid
          next => cases hvalid
          next hnone =>
            obtain rfl := Except.ok.inj h
            exact ⟨trivial, hnone, rfl⟩
      · rintro ⟨-, hvalid, rfl⟩
        simp [hvalid]

section Built

variable (h : ofFile file = .ok m)

include h

theorem forall₂_merges_of_ofFile :
    List.Forall₂ Constraint.Merges file.constraints m.constraints := by
  obtain ⟨-, -, rfl⟩ := ofFile_eq_ok_iff.mp h
  rw [List.forall₂_map_right_iff, List.forall₂_same]
  exact fun c _ => c.merges_normalise

theorem isFormed_toFile : m.toFile.IsFormed := by
  obtain ⟨hfault, -, rfl⟩ := ofFile_eq_ok_iff.mp h
  obtain ⟨⟨hlength, hobjective, hrhs, hcolumns⟩, -⟩ := ModelFile.fault?_eq_none_iff.mp hfault
  refine ⟨by simpa [toFile] using hlength, hobjective, ?_, ?_⟩
  · intro c hc
    obtain ⟨c', hc', rfl⟩ := List.mem_map.mp hc
    exact hrhs c' hc'
  · intro c hc term hterm
    obtain ⟨c', hc', rfl⟩ := List.mem_map.mp hc
    obtain ⟨old, hold, heq⟩ := c'.merges_normalise.exists_fst_eq hterm
    have hlt := hcolumns c' hc' old hold
    simpa [toFile, heq] using hlt

theorem forall_hasFiniteTerms
    (hrow : ∀ c ∈ file.constraints, ∀ stored, c.Merges stored → c.HasFiniteTerms →
      stored.HasFiniteTerms) : ∀ c ∈ m.constraints, c.HasFiniteTerms := by
  obtain ⟨hfault, -, rfl⟩ := ofFile_eq_ok_iff.mp h
  obtain ⟨-, hterms⟩ := ModelFile.fault?_eq_none_iff.mp hfault
  intro stored hstored
  obtain ⟨c, hc, rfl⟩ := List.mem_map.mp hstored
  exact hrow c hc _ c.merges_normalise (hterms c hc)

end Built

end LinearModel

end BranchBound
