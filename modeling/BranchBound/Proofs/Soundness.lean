import BranchBound.Proofs.Accounting
import BranchBound.Proofs.Binary64.Lawful

/-!
# Soundness of results

A run whose oracle gives sound answers reports the truth about a set of lattice
points with costs.  If it claims optimality, no point improves on the reported
objective; if it claims infeasibility, there is no point.  If a limit ends it, the
reported bound is at most the cost of every point that improves on what is
reported, and at most the reported objective.

All of this holds over every lawful number system, and so for searches on floats: the
rounding of the pruning threshold is part of the statements.
-/

namespace BranchBound
namespace Tree

variable {α : Type} [Scalar α] [LawfulScalar α] {σ : Type} {problem : Problem α}
  {oracle : Oracle σ α} {clock : Clock} {t : Tree α} {s : σ} {S : Set (List α)}
  {c : List α → α}

/-- A turn after which the search, unless it failed, accounts for every point; only an
interruption leaves a bound unresolved. -/
structure IsAccountable (S : Set (List α)) (c : List α → α) (turn : Turn σ α) : Prop where
  tidy : turn.tree.IsTidy
  accounts : (∀ e, turn.verdict ≠ .failed e) → ∀ p ∈ S, turn.tree.Accounts p (c p)
  resolved : turn.tree.unresolvedBound = none ∨ turn.verdict = .ended .timeLimit

/-- A turn with sound answers keeps the accounts. -/
theorem Takes.isAccountable {before after : Duration} {rest : Tree α} {node : Node α}
    {outcome : Except (SearchError α) Disposition} {turn turn' : Turn σ α}
    (h : Takes problem oracle before after turn.tree s node rest outcome turn')
    (hrunning : turn.verdict = .running) (htarget : problem.IsTarget S c)
    (hsound : ∀ answer s', rest.Asks node →
      oracle.solve s node.domain (rest.remainingTime before) = (.ok answer, s') →
      answer.IsSound S c node.domain)
    (hturn : IsAccountable S c turn) : IsAccountable S c turn' := by
  have hnone : turn.tree.unresolvedBound = none := by
    rcases hturn.resolved with hnone | hended
    · exact hnone
    · rw [hrunning] at hended
      cases hended
  obtain ⟨-, hincumbent, hunresolved, -⟩ := h.rest_eq
  rw [hnone] at hunresolved
  have hvalid : rest.incumbent.IsValid := hincumbent ▸ hturn.tidy.valid
  refine ⟨h.isTidy hturn.tidy, ?_, ?_⟩
  · intro hfine p hp
    have hcost := htarget.isNaN_cost p hp
    obtain ⟨disposition, rfl⟩ : ∃ disposition, outcome = .ok disposition := by
      cases outcome with
      | error e => exact absurd h.verdict_eq (hfine e)
      | ok disposition => exact ⟨disposition, rfl⟩
    rcases hturn.accounts (by simp [hrunning]) p hp with
      ⟨n, hn, hholds, hbound⟩ | hworse | ⟨b, hb, -⟩
    · rcases List.mem_cons.mp (h.openNodes_perm.mem_iff.mp hn) with rfl | hrest
      · obtain ⟨tree, journal, hsettles, htree⟩ := h.settled
        have hnode := accounts_of_settles S c hsettles hvalid hsound hp
          (htarget.isLatticePoint p hp).2 hholds hbound
        rw [htree]
        exact hnode
      · exact h.effect.accounts hvalid hcost hunresolved (Or.inl ⟨n, hrest, hholds, hbound⟩)
    · exact h.effect.accounts hvalid hcost hunresolved
        (Or.inr (Or.inl (hincumbent ▸ hworse)))
    · rw [hnone] at hb
      cases hb
  · cases h.effect with
    | kept _ _ _ _ _ hu => exact Or.inl (hu.trans hunresolved)
    | interrupted => exact Or.inr h.verdict_eq
    | improved _ _ _ _ hu => exact Or.inl (hu.trans hunresolved)
    | split _ _ _ _ _ _ hu => exact Or.inl (hu.trans hunresolved)

/-- The accounts are kept throughout a run with sound answers. -/
theorem after_isAccountable (htarget : problem.IsTarget S c)
    (htol : Scalar.ofInt 0 ≤ t.settings.improvementTol)
    (hsound : ∀ d answer, Answered problem oracle clock t s d answer → answer.IsSound S c d)
    (k : Nat) : IsAccountable S c (after problem oracle clock t s k) := by
  refine after_invariant (IsAccountable S c) ?_ ?_ k
  · refine ⟨isTidy_restart htol _ _, ?_, Or.inl rfl⟩
    intro _ p hp
    exact accounts_restart t _ (htarget.isLatticePoint p hp).1 (htarget.isNaN_cost p hp)
  · intro k node rest outcome turn hrunning hinv htakes
    refine htakes.isAccountable hrunning htarget ?_ hinv
    intro answer s' hasks hanswer
    exact hsound node.domain answer (htakes.answered hrunning hasks hanswer)

/-- A run with a result ends in a search that accounts for every point.  Either no
node is open and none unresolved, or a limit ended the run and there is such a node. -/
theorem run_accounts (htarget : problem.IsTarget S c)
    (htol : Scalar.ofInt 0 ≤ t.settings.improvementTol)
    (hsound : ∀ d answer, Answered problem oracle clock t s d answer → answer.IsSound S c d)
    {result : Result α} {tree : Tree α} {s' : σ}
    (hrun : t.run problem oracle clock s = (.ok result, tree, s')) :
    ∃ (final : Tree α) (status : Status) (now : Duration),
      final.IsTidy ∧ final.settings = t.settings ∧ (∀ p ∈ S, final.Accounts p (c p)) ∧
      result = (final.conclude status now).1 ∧
      ((status = final.exhaustedStatus ∧ final.frontier.openNodes = [] ∧
          final.unresolvedBound = none) ∨
        status.isLimit = true ∧
          (final.frontier.openNodes ≠ [] ∨ final.unresolvedBound ≠ none)) := by
  obtain ⟨-, m, status, now, hm, hended, hresult⟩ := run_eq_ok hrun
  have hinv := after_isAccountable htarget htol hsound (m + 1)
  obtain ⟨node, rest, outcome, htakes⟩ := after_takes hm
  refine ⟨_, status, now, hinv.tidy, ?_, hinv.accounts (by simp [hended]), hresult, ?_⟩
  · rw [htakes.settings_and_explored.1, (settings_and_explored_after hm).1]
  · have hverdict := htakes.verdict_eq
    rw [hended] at hverdict
    rcases verdict_eq_ended hverdict.symm with ⟨rfl, rfl⟩ | ⟨hresolved, hopen⟩
    · refine Or.inr ⟨rfl, Or.inr ?_⟩
      cases htakes.effect with
      | kept _ hresolved => exact absurd rfl hresolved
      | interrupted _ _ hu => simp [hu]
    · rcases hopen with ⟨hempty, hstatus⟩ | ⟨hopen, hlimit⟩
      · refine Or.inl ⟨hstatus, hempty, ?_⟩
        rcases hinv.resolved with hnone | htime
        · exact hnone
        · rw [hended, Verdict.ended.injEq] at htime
          rw [htime, exhaustedStatus] at hstatus
          split at hstatus <;> cases hstatus
      · exact Or.inr ⟨hlimit, Or.inl hopen⟩

/-! ## Proven results -/

omit [Scalar α] [LawfulScalar α] in
theorem exhaustedStatus_eq_optimal {t : Tree α} :
    t.exhaustedStatus = .optimal ↔ t.incumbent.isPresent = true := by
  unfold exhaustedStatus
  split <;> simp_all

omit [Scalar α] [LawfulScalar α] in
theorem isLimit_exhaustedStatus (t : Tree α) : t.exhaustedStatus.isLimit = false := by
  unfold exhaustedStatus
  split <;> rfl

omit [LawfulScalar α] in
/-- With no node open or unresolved, only points that do not improve on the incumbent
are accounted for. -/
theorem Accounts.not_improves {t : Tree α} {p : List α} {cost : α} (h : t.Accounts p cost)
    (hopen : t.frontier.openNodes = []) (hresolved : t.unresolvedBound = none) :
    t.incumbent.isPresent = true ∧ t.incumbent.improves cost = false := by
  rcases h with ⟨n, hn, -⟩ | hworse | ⟨b, hb, -⟩
  · rw [hopen] at hn
    cases hn
  · exact hworse
  · rw [hresolved] at hb
    cases hb

omit [LawfulScalar α] in
/-- A tidy search tests for improvement by its settings' tolerance. -/
theorem IsTidy.improves_eq_false_iff {t : Tree α} (ht : t.IsTidy)
    (hpresent : t.incumbent.isPresent = true) {a : α} :
    t.incumbent.improves a = false ↔ ¬a < t.incumbent.objective - t.settings.improvementTol *
      Scalar.maximum (Scalar.abs t.incumbent.objective) (Scalar.ofInt 1) := by
  rw [Incumbent.improves_eq_false_iff,
    Incumbent.threshold_of_isFinite (ht.valid.present hpresent), ht.tol_eq]

/-- **Soundness of a proven status.**  Let the oracle give sound answers about a set of
lattice points with costs whenever the run asks it.  If the run reports an optimum, no
point is better than that by more than the tolerance; if it reports infeasibility, there
is no point. -/
theorem run_proven_status_sound (htarget : problem.IsTarget S c)
    (htol : Scalar.ofInt 0 ≤ t.settings.improvementTol)
    (hsound : ∀ d answer, Answered problem oracle clock t s d answer → answer.IsSound S c d)
    {result : Result α} {tree : Tree α} {s' : σ}
    (hrun : t.run problem oracle clock s = (.ok result, tree, s')) :
    (result.status = .optimal → ∃ z, result.bestObjective = some z ∧
      ∀ p ∈ S, ¬c p < z - t.settings.improvementTol *
        Scalar.maximum (Scalar.abs z) (Scalar.ofInt 1)) ∧
    (result.status = .infeasible → S = ∅) := by
  obtain ⟨final, status, now, htidy, hsettings, haccounts, rfl, hend⟩ :=
    run_accounts htarget htol hsound hrun
  obtain ⟨hstatus, hobjective, -⟩ := final.conclude_eq status now
  rw [hstatus, hobjective, ← hsettings]
  rcases hend with ⟨rfl, hopen, hresolved⟩ | ⟨hlimit, -⟩
  · constructor
    · intro hoptimal
      have hpresent := exhaustedStatus_eq_optimal.mp hoptimal
      refine ⟨final.incumbent.objective, if_pos hpresent, ?_⟩
      intro p hp
      exact (htidy.improves_eq_false_iff hpresent).mp
        ((haccounts p hp).not_improves hopen hresolved).2
    · intro hinfeasible
      rw [Set.eq_empty_iff_forall_notMem]
      intro p hp
      have hpresent := ((haccounts p hp).not_improves hopen hresolved).1
      rw [exhaustedStatus_eq_optimal.mpr hpresent] at hinfeasible
      cases hinfeasible
  · constructor
    · rintro rfl
      cases hlimit
    · rintro rfl
      cases hlimit

/-- The sample search reports an optimum on which no lattice point improves. -/
theorem run_sample_optimal : ∃ (result : Result Float) (z : Float),
    ((create (Settings.sample 10)).run Problem.sample Oracle.halving .frozen ()).1 =
      .ok result ∧
    result.status = .optimal ∧ result.bestObjective = some z ∧
    ∀ p, Problem.sample.IsLatticePoint p → ¬coordinate p < z -
      (Settings.sample 10).improvementTol * Scalar.maximum (Scalar.abs z) (Scalar.ofInt 1) := by
  have hevaluates : ((create (Settings.sample 10 : Settings Float)).run Problem.sample
      Oracle.halving .frozen ()).1.toOption.any (·.status == .optimal) = true := by
    decide +kernel
  obtain ⟨result, tree, s', hrun, htest⟩ := exists_result_of_any hevaluates
  have hstatus := eq_of_beq htest
  have htol : (Scalar.ofInt 0 : Float) ≤
      (create (Settings.sample 10)).settings.improvementTol := by
    decide +kernel
  obtain ⟨z, hz, hbest⟩ := (run_proven_status_sound isTarget_sample htol
    (fun d answer h => h.isSound_halving) hrun).1 hstatus
  exact ⟨result, z, congrArg Prod.fst hrun, hstatus, hz, hbest⟩

/-! ## Bounds under a limit -/

/-- The bound of a search with an open or unresolved node is at most the bound of each
such node, and at most the objective of the incumbent. -/
theorem IsTidy.bestBound_le {t : Tree α} (ht : t.IsTidy)
    (hopen : t.frontier.openNodes ≠ [] ∨ t.unresolvedBound ≠ none) :
    t.bestBound ≤ t.incumbent.objective ∧
      (∀ n ∈ t.frontier.openNodes, t.bestBound ≤ n.bound) ∧
      ∀ b, t.unresolvedBound = some b → t.bestBound ≤ b := by
  have hobjective : Scalar.isNaN t.incumbent.objective = false := by
    cases hpresent : t.incumbent.isPresent with
    | true => exact Scalar.isNaN_of_isFinite (ht.valid.present hpresent)
    | false =>
        rw [ht.valid.absent hpresent]
        exact Scalar.isNaN_posInf
  have hfrontier := Frontier.isNaN_bestBound ht.ordered ht.isNaN_bound
  unfold bestBound
  cases hu : t.unresolvedBound with
  | some b =>
      have hb := ht.isNaN_unresolved b hu
      have hleast := Scalar.isNaN_minimum hb hfrontier
      refine ⟨Scalar.minimum_le_right hleast hobjective, ?_, ?_⟩
      · intro n hn
        exact Scalar.le_trans (Scalar.minimum_le_left hleast)
          (Scalar.le_trans (Scalar.minimum_le_right hb hfrontier)
            (Frontier.bestBound_le ht.ordered ht.isNaN_bound hn))
      · intro b' hb'
        obtain rfl := Option.some.inj hb'
        exact Scalar.le_trans (Scalar.minimum_le_left hleast) (Scalar.minimum_le_left hb)
  | none =>
      have hnonempty : t.frontier.isEmpty = false := by
        rw [← Bool.not_eq_true, Frontier.isEmpty_iff]
        exact hopen.resolve_right (not_not.mpr hu)
      simp only [hnonempty, Bool.false_eq_true, if_false]
      refine ⟨Scalar.minimum_le_right hfrontier hobjective, ?_, fun b hb => by cases hb⟩
      intro n hn
      exact Scalar.le_trans (Scalar.minimum_le_left hfrontier)
        (Frontier.bestBound_le ht.ordered ht.isNaN_bound hn)

/-- **Validity of the bound reported under a limit.**  Let the oracle give sound answers
about a set of lattice points with costs whenever the run asks it.  If a limit ends the
run, then the reported bound is at most the cost of every point that is better than what
is reported by more than the tolerance: of every point, if nothing is reported.  It
is at most the reported objective. -/
theorem run_bestBound_valid (htarget : problem.IsTarget S c)
    (htol : Scalar.ofInt 0 ≤ t.settings.improvementTol)
    (hsound : ∀ d answer, Answered problem oracle clock t s d answer → answer.IsSound S c d)
    {result : Result α} {tree : Tree α} {s' : σ}
    (hrun : t.run problem oracle clock s = (.ok result, tree, s'))
    (hlimit : result.status = .timeLimit ∨ result.status = .nodeLimit) :
    (∀ p ∈ S, result.bestBound ≤ c p ∨ ∃ z, result.bestObjective = some z ∧
      ¬c p < z - t.settings.improvementTol *
        Scalar.maximum (Scalar.abs z) (Scalar.ofInt 1)) ∧
    (result.bestObjective = none → ∀ p ∈ S, result.bestBound ≤ c p) ∧
    (∀ z, result.bestObjective = some z → result.bestBound ≤ z) := by
  obtain ⟨final, status, now, htidy, hsettings, haccounts, rfl, hend⟩ :=
    run_accounts htarget htol hsound hrun
  obtain ⟨hstatus, hobjective, hbound, -⟩ := final.conclude_eq status now
  rw [hstatus] at hlimit
  have hisLimit : status.isLimit = true := by
    rcases hlimit with rfl | rfl <;> rfl
  rw [hobjective, hbound hisLimit, ← hsettings]
  rcases hend with ⟨rfl, -⟩ | ⟨-, hopen⟩
  · rw [isLimit_exhaustedStatus] at hisLimit
    cases hisLimit
  obtain ⟨hcap, hnodes, hunresolved⟩ := htidy.bestBound_le hopen
  have hpoint : ∀ p ∈ S, final.bestBound ≤ c p ∨
      (final.incumbent.isPresent = true ∧ final.incumbent.improves (c p) = false) := by
    intro p hp
    rcases haccounts p hp with ⟨n, hn, -, hle⟩ | hworse | ⟨b, hb, hle⟩
    · exact Or.inl (Scalar.le_trans (hnodes n hn) hle)
    · exact Or.inr hworse
    · exact Or.inl (Scalar.le_trans (hunresolved b hb) hle)
  refine ⟨?_, ?_, ?_⟩
  · intro p hp
    rcases hpoint p hp with hle | ⟨hpresent, hworse⟩
    · exact Or.inl hle
    · exact Or.inr ⟨_, if_pos hpresent, (htidy.improves_eq_false_iff hpresent).mp hworse⟩
  · intro hnone p hp
    rcases hpoint p hp with hle | ⟨hpresent, -⟩
    · exact hle
    · rw [if_pos hpresent] at hnone
      cases hnone
  · intro z hz
    split at hz
    · obtain rfl := Option.some.inj hz
      exact hcap
    · cases hz

/-- The sample search, cut after two nodes, reports a bound for every lattice point. -/
theorem run_sample_nodeLimit : ∃ result : Result Float,
    ((create (Settings.sample 2)).run Problem.sample Oracle.halving .frozen ()).1 =
      .ok result ∧
    result.status = .nodeLimit ∧
    ∀ p, Problem.sample.IsLatticePoint p → result.bestBound ≤ coordinate p := by
  have hevaluates : ((create (Settings.sample 2 : Settings Float)).run Problem.sample
      Oracle.halving .frozen ()).1.toOption.any
        (fun r => r.status == .nodeLimit && r.bestObjective.isNone) = true := by
    decide +kernel
  obtain ⟨result, tree, s', hrun, htest⟩ := exists_result_of_any hevaluates
  rw [Bool.and_eq_true, beq_iff_eq, Option.isNone_iff_eq_none] at htest
  obtain ⟨hstatus, hnone⟩ := htest
  have htol : (Scalar.ofInt 0 : Float) ≤
      (create (Settings.sample 2)).settings.improvementTol := by
    decide +kernel
  obtain ⟨-, hbound, -⟩ := run_bestBound_valid isTarget_sample htol
    (fun d answer h => h.isSound_halving) hrun (Or.inr hstatus)
  exact ⟨result, congrArg Prod.fst hrun, hstatus, hbound hnone⟩

end Tree
end BranchBound
