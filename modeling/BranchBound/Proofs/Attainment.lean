import BranchBound.Proofs.Counts
import BranchBound.Proofs.Soundness

/-!
# Attained objectives

The two halves of an optimality proof, read off the end of a run.  The reported
objective is the value of a solution that the oracle gave and the search accepted as
integral; and no point that the run accounts for improves on it.  Nothing here depends
on the order in which the nodes were explored.
-/

namespace BranchBound

variable {α : Type} [Scalar α] {σ : Type}

theorem Status.eq_infeasible_of_isProven
    {status : Status} (h : status.isProven = true) (hnot : status ≠ .optimal) :
    status = .infeasible := by
  cases status with
  | infeasible => rfl
  | optimal => exact absurd rfl hnot
  | timeLimit => cases h
  | nodeLimit => cases h

/-- The values of a usable solution are finite. -/
theorem Relaxation.isFinite_of_mem
    {r : Relaxation α} {d : Domain α} {tol a : α} (h : r.fault? d tol = none)
    (ha : a ∈ r.values) : Scalar.isFinite a = true := by
  obtain ⟨hlength, -, hvalues⟩ := fault?_eq_none h
  obtain ⟨var, hvar⟩ := List.mem_iff_getElem?.mp ha
  have hlt : var < d.size := hlength ▸ (List.getElem?_eq_some_iff.mp hvar).1
  exact (hvalues var _ a (List.getElem?_eq_getElem hlt) hvar).1

namespace Tree

variable {problem : Problem α} {oracle : Oracle σ α} {clock : Clock} {t : Tree α} {s : σ}

/-- The oracle is asked about the boxes of open nodes only. -/
theorem Answered.of_openNodes
    (Inv : Domain α → Prop) {d : Domain α} {answer : RelaxationOutcome α}
    (hopen : ∀ k, ∀ n ∈ (after problem oracle clock t s k).tree.frontier.openNodes,
      Inv n.domain)
    (h : Answered problem oracle clock t s d answer) : Inv d := by
  obtain ⟨k, node, rest, s', -, hnext, -, rfl, -⟩ := h
  apply hopen k
  exact (Frontier.pop?_perm (nextNode?_eq_some hnext).1).mem_iff.mpr List.mem_cons_self

/-- An objective and a point that come from a solution which the oracle gave in a run and
the search accepted as integral. -/
structure IsAccepted (problem : Problem α) (oracle : Oracle σ α) (clock : Clock) (t : Tree α)
    (s : σ) (objective : α) (assignment : Option (List α)) (d : Domain α) (r : Relaxation α) :
    Prop where
  answered : Answered problem oracle clock t s d (.optimal r)
  usable : r.fault? d t.settings.feasibilityTol = none
  integral : problem.isIntegral r.values t.settings.feasibilityTol = true
  objective_eq : objective = r.objective
  assignment_eq : assignment = some (problem.roundIntegers r.values)

theorem incumbent_isAccepted (k : Nat) :
    (after problem oracle clock t s k).tree.incumbent.isPresent = true →
      ∃ d r, IsAccepted problem oracle clock t s
        (after problem oracle clock t s k).tree.incumbent.objective
        (after problem oracle clock t s k).tree.incumbent.assignment d r := by
  apply after_invariant (fun turn => turn.tree.incumbent.isPresent = true →
    ∃ d r, IsAccepted problem oracle clock t s turn.tree.incumbent.objective
      turn.tree.incumbent.assignment d r)
  · intro hpresent
    cases hpresent
  · intro k node rest outcome turn hk hinv htakes hpresent
    obtain ⟨hsettings, hrest, -⟩ := htakes.rest_eq
    cases htakes.tally with
    | kept _ _ _ _ hincumbent =>
        rw [hincumbent, hrest] at hpresent ⊢
        exact hinv hpresent
    | split _ _ _ _ _ hincumbent =>
        rw [hincumbent, hrest] at hpresent ⊢
        exact hinv hpresent
    | @improved _ r _ hsolves hintegral himproves _ hincumbent =>
        have husable := hsolves.usable
        rw [hsettings, (settings_and_explored_after hk).1] at husable hintegral
        have hanswered := htakes.answered hk hsolves.asks hsolves.answer
        rw [hincumbent, Incumbent.consider_of_improves himproves]
        exact ⟨node.domain, r, hanswered, husable, hintegral, rfl, rfl⟩

/-- A reported objective is the value of a solution that the search accepted. -/
theorem run_isAccepted
    {result : Result α} {tree : Tree α} {s' : σ} {z : α}
    (hrun : t.run problem oracle clock s = (.ok result, tree, s'))
    (hz : result.bestObjective = some z) :
    ∃ d r, IsAccepted problem oracle clock t s z result.bestAssignment d r := by
  obtain ⟨-, m, status, now, -, -, rfl⟩ := run_eq_ok hrun
  obtain ⟨-, hobjective, -⟩ :=
    conclude_eq (after problem oracle clock t s (m + 1)).tree status now
  obtain ⟨-, -, -, hassignment⟩ :=
    conclude_counts (after problem oracle clock t s (m + 1)).tree status now
  rw [hobjective] at hz
  rw [hassignment]
  split at hz
  next hpresent =>
    obtain rfl := Option.some.inj hz
    exact incumbent_isAccepted (m + 1) hpresent
  next => cases hz

theorem run_optimal_objective
    {result : Result α} {tree : Tree α} {s' : σ}
    (hrun : t.run problem oracle clock s = (.ok result, tree, s'))
    (hstatus : result.status = .optimal) : ∃ z, result.bestObjective = some z := by
  obtain ⟨-, m, status, now, hm, hended, rfl⟩ := run_eq_ok hrun
  obtain ⟨hresult, hobjective, -⟩ :=
    conclude_eq (after problem oracle clock t s (m + 1)).tree status now
  rw [hresult] at hstatus
  subst hstatus
  obtain ⟨node, rest, outcome, htakes⟩ := after_takes hm
  have hverdict := htakes.verdict_eq
  rw [hended] at hverdict
  rcases verdict_eq_ended hverdict.symm with ⟨-, htime⟩ | ⟨-, ⟨-, hstatus⟩ | ⟨-, hlimit⟩⟩
  · cases htime
  · refine ⟨_, hobjective.trans (if_pos ?_)⟩
    exact exhaustedStatus_eq_optimal.mp hstatus.symm
  · cases hlimit

variable [LawfulScalar α] {S : Set (List α)} {c : List α → α}

/-- If a run with sound answers proves its status although there is a point, it reports an
objective on which the point does not improve. -/
theorem run_not_improved
    (htarget : problem.IsTarget S c) (htol : Scalar.ofInt 0 ≤ t.settings.improvementTol)
    (hsound : ∀ d answer, Answered problem oracle clock t s d answer → answer.IsSound S c d)
    {result : Result α} {tree : Tree α} {s' : σ}
    (hrun : t.run problem oracle clock s = (.ok result, tree, s'))
    (hproven : result.status.isProven = true) {p : List α} (hp : p ∈ S) :
    result.status = .optimal ∧ ∃ z, result.bestObjective = some z ∧
      ¬c p < z - t.settings.improvementTol *
        Scalar.maximum (Scalar.abs z) (Scalar.ofInt 1) := by
  obtain ⟨final, status, now, htidy, hsettings, haccounts, rfl, hend⟩ :=
    run_accounts htarget htol hsound hrun
  obtain ⟨hstatus, hobjective, -⟩ := final.conclude_eq status now
  rw [hstatus] at hproven ⊢
  rw [hobjective, ← hsettings]
  rcases hend with ⟨rfl, hopen, hresolved⟩ | ⟨hlimit, -⟩
  · obtain ⟨hpresent, hworse⟩ := (haccounts p hp).not_improves hopen hresolved
    refine ⟨exhaustedStatus_eq_optimal.mpr hpresent, final.incumbent.objective,
      if_pos hpresent, ?_⟩
    exact (htidy.improves_eq_false_iff hpresent).mp hworse
  · cases status <;> cases hlimit <;> cases hproven

end Tree

end BranchBound
