import BranchBound.Proofs.Binary64.Lawful
import BranchBound.Proofs.Thresholds

/-!
# Offers

An incumbent to which points are offered one after the other.  A point is accepted if its
objective is below the threshold of the incumbent, and then the threshold falls below that
objective.  So thresholds only fall, and an offer that was too close to the incumbent of its
time is too close to every later one: near ties do not add up to a drift.
-/

namespace BranchBound
namespace Incumbent

variable {α : Type} [Scalar α]

/-- The incumbent after some objectives were offered, each with its point. -/
def offerAll (i : Incumbent α) (offers : List (α × List α)) : Incumbent α :=
  offers.foldl (fun i offer => i.consider offer.1 offer.2) i

/-- The offers that are accepted. -/
def accepted (i : Incumbent α) : List (α × List α) → List (α × List α)
  | [] => []
  | offer :: later =>
      let others := accepted (i.consider offer.1 offer.2) later
      if i.improves offer.1 then offer :: others else others

theorem offerAll_concat (i : Incumbent α) (offers : List (α × List α)) (offer : α × List α) :
    i.offerAll (offers ++ [offer]) = (i.offerAll offers).consider offer.1 offer.2 :=
  List.foldl_concat _ _ _ _

theorem accepted_concat (i : Incumbent α) (offers : List (α × List α)) (offer : α × List α) :
    i.accepted (offers ++ [offer]) = i.accepted offers ++
      if (i.offerAll offers).improves offer.1 then [offer] else [] := by
  induction offers generalizing i with
  | nil => rfl
  | cons first later ih =>
      have hfold : i.offerAll (first :: later) =
          (i.consider first.1 first.2).offerAll later := rfl
      rw [List.cons_append, accepted, accepted, ih, hfold]
      split
      · rfl
      · rfl

theorem consider_of_not_improves {i : Incumbent α} {objective : α}
    (h : i.improves objective = false) (values : List α) : i.consider objective values = i := by
  rw [consider, if_neg (by simp [h])]

/-- An incumbent that records the last of the accepted offers, and on which no offer
improves. -/
structure IsRecord (tol : α) (offers taken : List (α × List α)) (i : Incumbent α) : Prop where
  tol_eq : i.tol = tol
  isNaN_objective : Scalar.isNaN i.objective = false
  updates_eq : i.updates = taken.length
  objective_eq : i.objective = (taken.getLast?.map Prod.fst).getD Scalar.posInf
  assignment_eq : i.assignment = taken.getLast?.map Prod.snd
  taken_sublist : taken.Sublist offers
  not_improves : ∀ offer ∈ offers, i.improves offer.1 = false

variable [LawfulScalar α] {tol : α} {offers taken : List (α × List α)} {i : Incumbent α}

theorem isRecord_none (tol : α) : IsRecord tol [] [] (none tol) where
  tol_eq := rfl
  isNaN_objective := Scalar.isNaN_posInf
  updates_eq := rfl
  objective_eq := rfl
  assignment_eq := rfl
  taken_sublist := .slnil
  not_improves offer hoffer := by cases hoffer

namespace IsRecord

omit [LawfulScalar α] in
theorem tol_nonneg (h : IsRecord tol offers taken i) (htol : Scalar.ofInt 0 ≤ tol) :
    Scalar.ofInt 0 ≤ i.tol := by
  rw [h.tol_eq]
  exact htol

/-- An offer that improves becomes the record, and no earlier offer improves on it. -/
theorem consider_of_improves (h : IsRecord tol offers taken i) (htol : Scalar.ofInt 0 ≤ tol)
    (hnum : ∀ offer ∈ offers, Scalar.isNaN offer.1 = false) {offer : α × List α}
    (hoffer : Scalar.isNaN offer.1 = false) (himproves : i.improves offer.1 = true) :
    IsRecord tol (offers ++ [offer]) (taken ++ [offer]) (i.consider offer.1 offer.2) := by
  have hnew := Incumbent.consider_of_improves himproves offer.2
  constructor
  case tol_eq => rw [hnew, ← h.tol_eq]
  case isNaN_objective => rw [hnew]; exact hoffer
  case updates_eq =>
    rw [hnew, List.length_append, ← h.updates_eq]
    rfl
  case objective_eq => rw [hnew, List.getLast?_concat]; rfl
  case assignment_eq => rw [hnew, List.getLast?_concat]; rfl
  case taken_sublist => exact h.taken_sublist.append (.refl _)
  case not_improves =>
    rw [List.forall_mem_append, List.forall_mem_singleton]
    constructor
    · intro old hold
      exact not_improves_consider (h.tol_nonneg htol) himproves _ (hnum old hold)
        (h.not_improves old hold)
    · rw [hnew]
      exact not_improves_of_le (h.tol_nonneg htol) (Scalar.le_refl hoffer)

omit [LawfulScalar α] in
theorem consider_of_not_improves (h : IsRecord tol offers taken i) {offer : α × List α}
    (himproves : i.improves offer.1 = false) :
    IsRecord tol (offers ++ [offer]) taken (i.consider offer.1 offer.2) := by
  rw [Incumbent.consider_of_not_improves himproves]
  exact
    { h with
      taken_sublist := h.taken_sublist.trans (List.sublist_append_left _ _)
      not_improves := by
        rw [List.forall_mem_append, List.forall_mem_singleton]
        exact ⟨h.not_improves, himproves⟩ }

theorem objective_mem (h : IsRecord tol offers taken i)
    (hfin : Scalar.isFinite i.objective = true) : i.objective ∈ offers.map Prod.fst := by
  have hobjective := h.objective_eq
  cases hlast : taken.getLast? with
  | none =>
      rw [hlast] at hobjective
      rw [hobjective] at hfin
      exact absurd hfin (by simp [Scalar.isFinite_posInf])
  | some last =>
      rw [hlast] at hobjective
      rw [hobjective]
      exact List.mem_map_of_mem (h.taken_sublist.subset (List.mem_of_getLast? hlast))

end IsRecord

/-- What offers to a new incumbent lead to. -/
theorem isRecord_offerAll (htol : Scalar.ofInt 0 ≤ tol)
    (hnum : ∀ offer ∈ offers, Scalar.isNaN offer.1 = false) :
    IsRecord tol offers ((none tol).accepted offers) ((none tol).offerAll offers) := by
  induction offers using List.reverseRecOn with
  | nil => exact isRecord_none tol
  | append_singleton offers offer ih =>
      rw [List.forall_mem_append, List.forall_mem_singleton] at hnum
      rw [offerAll_concat, accepted_concat]
      cases himproves : ((none tol).offerAll offers).improves offer.1 with
      | true => exact (ih hnum.1).consider_of_improves htol hnum.1 hnum.2 himproves
      | false =>
          rw [if_neg Bool.false_ne_true, List.append_nil]
          exact (ih hnum.1).consider_of_not_improves himproves

/-- **Incumbents do not drift.**  Offer numbers as objectives to a new incumbent with a
nonnegative tolerance.  No offer raises the objective, and each that is accepted lowers it.
The incumbent counts the accepted offers and is the last one of them.  At the end no offer
improves on it, whether it was accepted or not: a finite objective is one of the offers, and
none of them is below it by more than the tolerance. -/
theorem offerAll_without_drift (htol : Scalar.ofInt 0 ≤ tol)
    (hnum : ∀ offer ∈ offers, Scalar.isNaN offer.1 = false) :
    (∀ earlier offer later, offers = earlier ++ offer :: later →
      ((none tol).offerAll (earlier ++ [offer])).objective ≤
          ((none tol).offerAll earlier).objective ∧
        (((none tol).offerAll earlier).improves offer.1 = true →
          ((none tol).offerAll (earlier ++ [offer])).objective <
            ((none tol).offerAll earlier).objective)) ∧
    ((none tol).offerAll offers).updates = ((none tol).accepted offers).length ∧
    ((none tol).offerAll offers).objective =
      (((none tol).accepted offers).getLast?.map Prod.fst).getD Scalar.posInf ∧
    ((none tol).offerAll offers).assignment =
      ((none tol).accepted offers).getLast?.map Prod.snd ∧
    (∀ offer ∈ offers, ((none tol).offerAll offers).improves offer.1 = false) ∧
    (Scalar.isFinite ((none tol).offerAll offers).objective = true →
      ((none tol).offerAll offers).objective ∈ offers.map Prod.fst ∧
      ∀ offer ∈ offers, ((none tol).offerAll offers).objective -
        tol * Scalar.maximum (Scalar.abs ((none tol).offerAll offers).objective)
          (Scalar.ofInt 1) ≤ offer.1) := by
  have hrecord := isRecord_offerAll htol hnum
  refine ⟨?_, hrecord.updates_eq, hrecord.objective_eq, hrecord.assignment_eq,
    hrecord.not_improves, ?_⟩
  · rintro earlier offer later rfl
    rw [List.forall_mem_append] at hnum
    have hbefore := isRecord_offerAll htol hnum.1
    rw [offerAll_concat]
    cases himproves : ((none tol).offerAll earlier).improves offer.1 with
    | true =>
        have hlt := lt_objective_of_improves (hbefore.tol_nonneg htol) hbefore.isNaN_objective
          himproves
        rw [Incumbent.consider_of_improves himproves]
        exact ⟨Scalar.le_of_lt hlt, fun _ => hlt⟩
    | false =>
        rw [Incumbent.consider_of_not_improves himproves]
        exact ⟨Scalar.le_refl hbefore.isNaN_objective, fun h => Bool.noConfusion h⟩
  · intro hfin
    refine ⟨hrecord.objective_mem hfin, ?_⟩
    intro offer hoffer
    have hworse := improves_eq_false_iff.mp (hrecord.not_improves offer hoffer)
    have hthreshold := threshold_le (hrecord.tol_nonneg htol) hrecord.isNaN_objective
    have hle := Scalar.le_of_not_lt (hnum offer hoffer) (Scalar.isNaN_left_of_le hthreshold)
      hworse
    rwa [threshold_of_isFinite hfin, hrecord.tol_eq] at hle

/-- Offers that come down in small steps. -/
def nearTies : List (Float × List Float) :=
  [100, 95, 91, 89, 85].map fun n => (Scalar.ofInt n, [Scalar.ofInt n])

/-- With a tolerance of a tenth, `95` and `91` are too close to `100`, and `85` is too close
to `89`, which is a better offer. -/
theorem offerAll_nearTies :
    Scalar.ofInt 0 ≤ (Scalar.decimal 1 1 : Float) ∧
    (∀ offer ∈ nearTies, Scalar.isNaN offer.1 = false) ∧
    ((none (Scalar.decimal 1 1)).offerAll nearTies).objective = Scalar.ofInt 89 ∧
    ((none (Scalar.decimal 1 1)).offerAll nearTies).updates = 2 ∧
    ∀ offer ∈ nearTies,
      ((none (Scalar.decimal 1 1)).offerAll nearTies).improves offer.1 = false := by
  have htol : Scalar.ofInt 0 ≤ (Scalar.decimal 1 1 : Float) := by decide +kernel
  have hnum : ∀ offer ∈ nearTies, Scalar.isNaN offer.1 = false := by decide +kernel
  have htaken : (none (Scalar.decimal 1 1)).accepted nearTies =
      [(Scalar.ofInt 100, [Scalar.ofInt 100]), (Scalar.ofInt 89, [Scalar.ofInt 89])] := by
    decide +kernel
  obtain ⟨-, hupdates, hobjective, -, hworse, -⟩ := offerAll_without_drift htol hnum
  rw [htaken] at hupdates hobjective
  exact ⟨htol, hnum, hobjective, hupdates, hworse⟩

end Incumbent
end BranchBound
