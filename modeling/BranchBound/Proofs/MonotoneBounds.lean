import BranchBound.Proofs.BestFirst
import BranchBound.Proofs.Lineage
import BranchBound.Proofs.Progress

/-!
# Monotone bounds

A *floor* of a search is at most the bound of every open or unresolved node and at most
the objective of the incumbent.  If the oracle answers no node below the bound that the
node has inherited, then a floor stays one: the halves of a node, and the incumbent it may
bring, take their values from a node that was not below the floor.

Two floors are of interest.  The value of the root relaxation is one once it is known.  In
a search by bound, the bound of every node taken is one, since no open node has a lower
bound and the incumbent has not dominated the node.  The bound that a run reports is at
least each of its floors.
-/

namespace BranchBound

variable {α : Type} [Scalar α] {σ : Type}

/-! ## Root bounds -/

namespace Tree

omit [Scalar α] in
theorem noteBound_rootBound (t : Tree α) (node : Node α) (objective : α) :
    (t.noteBound node objective).stats.rootBound = t.stats.rootBound ∨
      node.isRoot = true ∧ (t.noteBound node objective).stats.rootBound = some objective := by
  unfold noteBound
  split
  next hroot =>
    unfold Statistics.recordRootBound
    split
    · exact Or.inr ⟨hroot, rfl⟩
    · exact Or.inl rfl
  next => exact Or.inl rfl

theorem updateIncumbent_rootBound (t : Tree α) (values : List α) (objective : α) :
    (t.updateIncumbent values objective).2.stats.rootBound = t.stats.rootBound := by
  by_cases himproves : t.incumbent.improves objective = true
  · obtain ⟨journal, hupdate⟩ := updateIncumbent_of_improves himproves values
    rw [hupdate]
  · rw [updateIncumbent_of_not_improves (Bool.not_eq_true _ ▸ himproves)]

end Tree

/-- Settling a node changes the root bound only if the node is a root and is solved. -/
theorem Settles.rootBound_eq {problem : Problem α} {oracle : Oracle σ α} {now : Duration}
    {t tree : Tree α} {s s' : σ} {node : Node α} {outcome : Except (SearchError α) Disposition}
    (h : Settles problem oracle now t s node outcome tree s') :
    tree.stats.rootBound = t.stats.rootBound ∨ node.isRoot = true ∧
      ∃ r, t.Solves oracle now s node r s' ∧ tree.stats.rootBound = some r.objective := by
  have hnoted {r : Relaxation α} (hsolves : t.Solves oracle now s node r s')
      (htree : tree.stats.rootBound = (t.noteBound node r.objective).stats.rootBound) :
      tree.stats.rootBound = t.stats.rootBound ∨ node.isRoot = true ∧
        ∃ r, t.Solves oracle now s node r s' ∧ tree.stats.rootBound = some r.objective := by
    rcases t.noteBound_rootBound node r.objective with hsame | ⟨hroot, hsome⟩
    · exact Or.inl (htree.trans hsame)
    · exact Or.inr ⟨hroot, r, hsolves, htree.trans hsome⟩
  cases h with
  | dominated => exact Or.inl rfl
  | malformed => exact Or.inl rfl
  | refused => exact Or.inl rfl
  | infeasible => exact Or.inl rfl
  | interrupted => exact Or.inl rfl
  | rejected => exact Or.inl rfl
  | bounded hsolves => exact hnoted hsolves rfl
  | integral hsolves => exact hnoted hsolves (Tree.updateIncumbent_rootBound _ _ _)
  | stuck hsolves => exact hnoted hsolves rfl
  | branched hsolves => exact hnoted hsolves rfl

namespace Tree

/-! ## Floors -/

/-- A value that is at most the bound of every open or unresolved node, and at most the
objective of the incumbent. -/
structure IsFloor (t : Tree α) (b : α) : Prop where
  openNodes : ∀ n ∈ t.frontier.openNodes, b ≤ n.bound
  unresolved : ∀ u, t.unresolvedBound = some u → b ≤ u
  incumbent : b ≤ t.incumbent.objective

variable [LawfulScalar α] {problem : Problem α} {oracle : Oracle σ α} {clock : Clock}
  {t rest : Tree α} {s : σ} {b : α} {k m : Nat} {node : Node α}
  {outcome : Except (SearchError α) Disposition}

theorem IsFloor.isNaN (h : t.IsFloor b) : Scalar.isNaN b = false :=
  Scalar.isNaN_left_of_le h.incumbent

theorem IsFloor.le_bestBound (h : t.IsFloor b)
    (hopen : t.frontier.openNodes ≠ [] ∨ t.unresolvedBound ≠ none) : b ≤ t.bestBound := by
  have hfrontier := Frontier.le_bestBound h.isNaN h.openNodes
  unfold bestBound
  cases hu : t.unresolvedBound with
  | some u =>
      exact Scalar.le_minimum (Scalar.le_minimum (h.unresolved u hu) hfrontier) h.incumbent
  | none =>
      have hnonempty : t.frontier.isEmpty = false := by
        rw [← Bool.not_eq_true, Frontier.isEmpty_iff]
        exact hopen.resolve_right (not_not.mpr hu)
      simp only [hnonempty, Bool.false_eq_true, if_false]
      exact Scalar.le_minimum hfrontier h.incumbent

/-- Whatever its status, a result reports a bound that is not below a floor. -/
theorem IsFloor.le_conclude (h : t.IsFloor b) {status : Status} (now : Duration)
    (hopen : status.isLimit = true → t.frontier.openNodes ≠ [] ∨ t.unresolvedBound ≠ none) :
    b ≤ (t.conclude status now).1.bestBound := by
  obtain ⟨-, -, hlimit, -⟩ := t.conclude_eq status now
  cases status with
  | optimal =>
      unfold conclude stop
      cases t.stats.finish <;> exact h.incumbent
  | infeasible => exact Scalar.le_posInf h.isNaN
  | timeLimit =>
      rw [hlimit rfl]
      exact h.le_bestBound (hopen rfl)
  | nodeLimit =>
      rw [hlimit rfl]
      exact h.le_bestBound (hopen rfl)

section

variable {before after : Duration} {turn : Turn σ α}

omit [LawfulScalar α] in
theorem Takes.isFloor_rest
    (h : Takes problem oracle before after t s node rest outcome turn) (hfloor : t.IsFloor b) :
    b ≤ node.bound ∧ rest.IsFloor b := by
  obtain ⟨-, hincumbent, hunresolved, -⟩ := h.rest_eq
  have hall : ∀ n ∈ node :: rest.frontier.openNodes, b ≤ n.bound := fun n hn =>
    hfloor.openNodes n (h.openNodes_perm.mem_iff.mpr hn)
  refine ⟨hall node List.mem_cons_self, fun n hn => hall n (List.mem_cons_of_mem node hn), ?_, ?_⟩
  · rw [hunresolved]
    exact hfloor.unresolved
  · rw [hincumbent]
    exact hfloor.incumbent

omit [LawfulScalar α] in
/-- A floor of the search without the node taken is one after the turn, unless the node is
solved with a lower value or left unresolved with a lower bound. -/
theorem Takes.isFloor (h : Takes problem oracle before after t s node rest outcome turn)
    (hfloor : rest.IsFloor b)
    (hsolved : ∀ r s', rest.Solves oracle before s node r s' → b ≤ r.objective)
    (hinterrupted : outcome = .ok .interrupted → b ≤ node.bound) : turn.tree.IsFloor b := by
  obtain ⟨hrest, hresolved, hobjective⟩ := hfloor
  cases h.effect with
  | kept _ _ _ hf hi hu => exact ⟨hf ▸ hrest, hu ▸ hresolved, hi ▸ hobjective⟩
  | interrupted hf hi hu =>
      refine ⟨hf ▸ hrest, ?_, hi ▸ hobjective⟩
      intro u hsome
      rw [hu] at hsome
      exact Option.some.inj hsome ▸ hinterrupted rfl
  | improved hsolves himproves hf hi hu =>
      refine ⟨?_, hu ▸ hresolved, ?_⟩
      · intro n hn
        rw [hf, (Frontier.prune_perm _ _).mem_iff] at hn
        exact hrest n (List.mem_of_mem_filter hn)
      · rw [hi, Incumbent.consider_of_improves himproves]
        exact hsolved _ _ hsolves
  | split hsolves _ hdown hup hf hi hu =>
      refine ⟨?_, hu ▸ hresolved, hi ▸ hobjective⟩
      intro n hn
      rw [hf, (Frontier.push_push_perm _ _ _).mem_iff, List.mem_cons, List.mem_cons] at hn
      rcases hn with rfl | rfl | hn
      · rw [hdown]
        exact hsolved _ _ hsolves
      · rw [hup]
        exact hsolved _ _ hsolves
      · exact hrest n hn

end

/-! ## Runs -/

variable (problem oracle clock t s) in
/-- Whenever the run asks the oracle about a node, the value that it gets is not below the
bound that the node has inherited. -/
def AnswersAbove : Prop :=
  ∀ k node rest r s', (after problem oracle clock t s k).verdict = .running →
    (after problem oracle clock t s k).tree.nextNode? = some (node, rest) → rest.Asks node →
    oracle.solve (after problem oracle clock t s k).oracle node.domain
      (rest.remainingTime (clock (2 * k))) = (.ok (.optimal r), s') →
    ¬r.objective < node.estimate

omit [LawfulScalar α] in
/-- As long as a search goes on, it leaves nothing unresolved. -/
theorem unresolvedBound_of_running (hk : (after problem oracle clock t s k).verdict = .running) :
    (after problem oracle clock t s k).tree.unresolvedBound = none := by
  induction k with
  | zero => rfl
  | succ k ih =>
      have hbefore := running_of_running_succ hk
      obtain ⟨node, rest, outcome, h⟩ := exists_takesAt hbefore
      have hrest := h.takes.rest_eq.2.2.1.trans (ih hbefore)
      cases h.takes.effect with
      | kept _ _ _ _ _ hu => exact hu.trans hrest
      | interrupted =>
          rw [h.takes.verdict_eq] at hk
          cases hk
      | improved _ _ _ _ hu => exact hu.trans hrest
      | split _ _ _ _ _ _ hu => exact hu.trans hrest

theorem AnswersAbove.bound_le (habove : AnswersAbove problem oracle clock t s)
    (htol : Scalar.ofInt 0 ≤ t.settings.improvementTol)
    (h : TakesAt problem oracle clock t s k node rest outcome) {r : Relaxation α} {s' : σ}
    (hsolves : rest.Solves oracle (clock (2 * k)) (after problem oracle clock t s k).oracle
      node r s') : node.bound ≤ r.objective := by
  have hnode := h.takes.openNodes_perm.mem_iff.mpr List.mem_cons_self
  have hnot := habove k node rest r s' h.running h.takes.next hsolves.asks hsolves.answer
  rw [← bound_eq_estimate hnode] at hnot
  have hnumber := (isTidy_after htol k).isNaN_bound node hnode
  refine Scalar.le_of_not_lt ?_ hnumber hnot
  exact Scalar.isNaN_of_isFinite (Relaxation.fault?_eq_none hsolves.usable).2.1

/-- A floor stays one for the rest of the run. -/
theorem AnswersAbove.isFloor_of_le (habove : AnswersAbove problem oracle clock t s)
    (htol : Scalar.ofInt 0 ≤ t.settings.improvementTol)
    (hfloor : (after problem oracle clock t s k).tree.IsFloor b) (hle : k ≤ m) :
    (after problem oracle clock t s m).tree.IsFloor b := by
  induction m, hle using Nat.le_induction with
  | base => exact hfloor
  | succ m _ ih =>
      by_cases hm : (after problem oracle clock t s m).verdict = .running
      · obtain ⟨node, rest, outcome, h⟩ := exists_takesAt hm
        obtain ⟨hnode, hrest⟩ := h.takes.isFloor_rest ih
        apply h.takes.isFloor hrest
        · intro r s' hsolves
          exact Scalar.le_trans hnode (habove.bound_le htol h hsolves)
        · exact fun _ => hnode
      · rwa [after_succ_of_not_running hm]

/-- The value of the root relaxation is a floor after the first turn. -/
theorem TakesAt.isFloor_of_isRoot (h : TakesAt problem oracle clock t s k node rest outcome)
    (hroot : node.isRoot = true) {r : Relaxation α} {s' : σ}
    (hsolves : rest.Solves oracle (clock (2 * k)) (after problem oracle clock t s k).oracle
      node r s') : (after problem oracle clock t s (k + 1)).tree.IsFloor r.objective := by
  have hopen := h.takes.openNodes_perm
  have hfinite := (Relaxation.fault?_eq_none hsolves.usable).2.1
  rcases openNodes_eq_root_or_isHalf problem oracle clock t s k node
    (hopen.mem_iff.mpr List.mem_cons_self) with ⟨rfl, -⟩ | ⟨p, hhalf⟩
  · obtain ⟨-, hincumbent, hunresolved, -⟩ := h.takes.rest_eq
    have hrest : rest.IsFloor r.objective := by
      rw [after, openNodes_restart] at hopen
      refine ⟨?_, ?_, ?_⟩
      · rw [← List.tail_eq_of_cons_eq (List.singleton_perm.mp hopen)]
        simp
      · rw [hunresolved]
        intro u hu
        cases hu
      · rw [hincumbent]
        exact Scalar.le_posInf (Scalar.isNaN_of_isFinite hfinite)
    apply h.takes.isFloor hrest
    · intro r' s'' hsolves'
      cases hsolves.answer.symm.trans hsolves'.answer
      exact Scalar.le_refl (Scalar.isNaN_of_isFinite hfinite)
    · intro houtcome
      obtain ⟨tree, journal, hsettles, -⟩ := h.takes.settled
      rw [houtcome] at hsettles
      cases hsettles with
      | interrupted _ hanswer => cases hsolves.answer.symm.trans hanswer
  · rw [Node.isRoot, hhalf.fields.1] at hroot
    cases hroot

/-- The root bound is a floor from the turn on that writes it down. -/
theorem AnswersAbove.isFloor_rootBound (habove : AnswersAbove problem oracle clock t s)
    (htol : Scalar.ofInt 0 ≤ t.settings.improvementTol)
    (hroot : (after problem oracle clock t s k).tree.stats.rootBound = some b) :
    (after problem oracle clock t s k).tree.IsFloor b := by
  induction k with
  | zero => cases hroot
  | succ k ih =>
      by_cases hk : (after problem oracle clock t s k).verdict = .running
      · obtain ⟨node, rest, outcome, h⟩ := exists_takesAt hk
        obtain ⟨tree, journal, hsettles, htree⟩ := h.takes.settled
        have hrest : rest.stats.rootBound =
            (after problem oracle clock t s k).tree.stats.rootBound := by
          rw [(nextNode?_eq_some h.takes.next).2]
        rw [htree] at hroot
        rcases hsettles.rootBound_eq with hsame | ⟨hnode, r, hsolves, hsome⟩
        · exact habove.isFloor_of_le htol (ih (hrest ▸ hsame ▸ hroot)) (Nat.le_succ k)
        · rw [hsome] at hroot
          obtain rfl := Option.some.inj hroot
          exact h.isFloor_of_isRoot hnode hsolves
      · rw [after_succ_of_not_running hk] at hroot ⊢
        exact ih hroot

/-- The bound of the node that a search by bound takes is a floor. -/
theorem TakesAt.isFloor_bound (h : TakesAt problem oracle clock t s k node rest outcome)
    (htol : Scalar.ofInt 0 ≤ t.settings.improvementTol)
    (hselection : t.settings.nodeSelection = .bestBound) :
    (after problem oracle clock t s k).tree.IsFloor node.bound := by
  have htidy : (after problem oracle clock t s k).tree.IsTidy := isTidy_after htol k
  obtain ⟨hpop, -⟩ := nextNode?_eq_some h.takes.next
  have hnode := h.takes.openNodes_perm.mem_iff.mpr List.mem_cons_self
  refine ⟨?_, ?_, ?_⟩
  · intro n hn
    exact Frontier.pop?_bound_le ((selection_after k).trans hselection) htidy.ordered
      htidy.isNaN_bound hpop hn
  · intro u hu
    rw [unresolvedBound_of_running h.running] at hu
    cases hu
  · have hkeep := isSwept_after k node hnode
    cases hpresent : (after problem oracle clock t s k).tree.incumbent.isPresent with
    | true =>
        have himproves : (after problem oracle clock t s k).tree.incumbent.improves node.bound =
            true := by
          simpa [Node.canPrune, Incumbent.dominates, hpresent] using hkeep
        rw [Incumbent.improves_eq_true_iff] at himproves
        exact Scalar.le_of_lt (Scalar.lt_of_lt_of_le himproves htidy.valid.threshold_le)
    | false =>
        rw [htidy.valid.absent hpresent]
        exact Scalar.le_posInf (htidy.isNaN_bound node hnode)

theorem AnswersAbove.isFloor_takenNodes (habove : AnswersAbove problem oracle clock t s)
    (htol : Scalar.ofInt 0 ≤ t.settings.improvementTol)
    (hselection : t.settings.nodeSelection = .bestBound) (k : Nat) :
    ∀ n ∈ takenNodes problem oracle clock t s k,
      (after problem oracle clock t s k).tree.IsFloor n.bound := by
  induction k with
  | zero =>
      intro n hn
      cases hn
  | succ k ih =>
      by_cases hk : (after problem oracle clock t s k).verdict = .running
      · obtain ⟨node, rest, outcome, h⟩ := exists_takesAt hk
        intro n hn
        rw [takenNodes_succ h, List.mem_append, List.mem_singleton] at hn
        rcases hn with hn | rfl
        · exact habove.isFloor_of_le htol (ih n hn) (Nat.le_succ k)
        · exact habove.isFloor_of_le htol (h.isFloor_bound htol hselection) (Nat.le_succ k)
      · rw [takenNodes, gather_succ_of_not_running hk, after_succ_of_not_running hk]
        exact ih

/-- A search by bound takes its nodes in the order of their bounds. -/
theorem AnswersAbove.takenNodes_pairwise (habove : AnswersAbove problem oracle clock t s)
    (htol : Scalar.ofInt 0 ≤ t.settings.improvementTol)
    (hselection : t.settings.nodeSelection = .bestBound) (k : Nat) :
    (takenNodes problem oracle clock t s k).Pairwise fun a b => a.bound ≤ b.bound := by
  induction k with
  | zero => exact List.Pairwise.nil
  | succ k ih =>
      by_cases hk : (after problem oracle clock t s k).verdict = .running
      · obtain ⟨node, rest, outcome, h⟩ := exists_takesAt hk
        rw [takenNodes_succ h, List.pairwise_append]
        refine ⟨ih, List.pairwise_singleton _ node, ?_⟩
        intro a ha b hb
        rw [List.mem_singleton.mp hb]
        have hfloor := habove.isFloor_takenNodes htol hselection k a ha
        exact (h.takes.isFloor_rest hfloor).1
      · rw [takenNodes, gather_succ_of_not_running hk]
        exact ih

/-! ## Results -/

omit [LawfulScalar α] in
theorem EndsAt.rootBound_eq {result : Result α} {tree : Tree α}
    (h : EndsAt problem oracle clock t s m result tree) :
    result.rootBound = (after problem oracle clock t s (m + 1)).tree.stats.rootBound := by
  obtain ⟨now, hconclude⟩ := h.concluded
  have hresult := congrArg (fun concluded => concluded.1.rootBound) hconclude
  simp only [conclude, stop] at hresult
  rw [← hresult]
  cases (after problem oracle clock t s (m + 1)).tree.stats.finish <;> rfl

omit [LawfulScalar α] in
/-- A limit ends a run only while a node is open or unresolved. -/
theorem openNodes_or_unresolved_of_isLimit {status : Status}
    (hm : (after problem oracle clock t s m).verdict = .running)
    (hend : (after problem oracle clock t s (m + 1)).verdict = .ended status)
    (hlimit : status.isLimit = true) :
    (after problem oracle clock t s (m + 1)).tree.frontier.openNodes ≠ [] ∨
      (after problem oracle clock t s (m + 1)).tree.unresolvedBound ≠ none := by
  obtain ⟨node, rest, outcome, h⟩ := after_takes hm
  rw [h.verdict_eq] at hend
  rcases verdict_eq_ended hend with ⟨rfl, -⟩ | ⟨-, ⟨-, rfl⟩ | ⟨hopen, -⟩⟩
  · right
    cases h.effect with
    | kept _ hresolved => exact absurd rfl hresolved
    | interrupted _ _ hu => simp [hu]
  · rw [isLimit_exhaustedStatus] at hlimit
    cases hlimit
  · exact Or.inl hopen

/-- What is a floor when a run ends is at most what the run reports. -/
theorem IsFloor.le_result {result : Result α} {tree : Tree α}
    (hfloor : (after problem oracle clock t s (m + 1)).tree.IsFloor b)
    (hends : EndsAt problem oracle clock t s m result tree) :
    b ≤ result.bestBound ∧ ∀ z, result.bestObjective = some z → b ≤ z := by
  obtain ⟨now, hconclude⟩ := hends.concluded
  have hle := hfloor.le_conclude now
    (openNodes_or_unresolved_of_isLimit hends.running hends.ended)
  rw [hconclude] at hle
  refine ⟨hle, ?_⟩
  intro z hz
  rw [hends.bestObjective_eq] at hz
  split at hz
  · exact Option.some.inj hz ▸ hfloor.incumbent
  · cases hz

/-- **Monotone bounds.**  Let the improvement tolerance be nonnegative, and let the oracle
answer no node below the bound that the node has inherited.  Once the root bound is known,
every open node has inherited at least that, and every result reports a bound and an
objective that are at least that.  A search by bound takes its nodes in the order of their
bounds, and reports a bound that is not below any of them. -/
theorem run_bounds_monotone (habove : AnswersAbove problem oracle clock t s)
    (htol : Scalar.ofInt 0 ≤ t.settings.improvementTol) :
    (∀ k r, (after problem oracle clock t s k).tree.stats.rootBound = some r →
      ∀ j, k ≤ j → ∀ n ∈ (after problem oracle clock t s j).tree.frontier.openNodes,
        r ≤ n.estimate) ∧
    (∀ result tree s', t.run problem oracle clock s = (.ok result, tree, s') →
      ∀ r, result.rootBound = some r →
        r ≤ result.bestBound ∧ ∀ z, result.bestObjective = some z → r ≤ z) ∧
    (t.settings.nodeSelection = .bestBound →
      (∀ k, (takenNodes problem oracle clock t s k).Pairwise fun a b => a.bound ≤ b.bound) ∧
      ∀ result tree s', t.run problem oracle clock s = (.ok result, tree, s') →
        ∀ n ∈ takenNodes problem oracle clock t s result.nodesExplored,
          n.bound ≤ result.bestBound) := by
  refine ⟨?_, ?_, ?_⟩
  · intro k r hr j hkj n hn
    have hfloor := habove.isFloor_of_le htol (habove.isFloor_rootBound htol hr) hkj
    rw [← bound_eq_estimate hn]
    exact hfloor.openNodes n hn
  · intro result tree s' hrun r hr
    obtain ⟨m, hends⟩ := exists_endsAt hrun
    exact (habove.isFloor_rootBound htol (hends.rootBound_eq ▸ hr)).le_result hends
  · intro hselection
    refine ⟨habove.takenNodes_pairwise htol hselection, ?_⟩
    intro result tree s' hrun n hn
    obtain ⟨m, hends⟩ := exists_endsAt hrun
    rw [hends.nodesExplored_eq] at hn
    exact ((habove.isFloor_takenNodes htol hselection (m + 1) n hn).le_result hends).1

/-- The halving oracle gives the lower end of an interval, and the halves of an interval
have no lower one. -/
theorem answersAbove_halving [NearestScalar α]
    (htol : Scalar.ofInt 0 ≤ t.settings.feasibilityTol) :
    AnswersAbove problem Oracle.halving clock t () := by
  intro k node rest r s' hk hnext hasks hanswer hlt
  have h := takesAt_of_next hk hnext
  rcases openNodes_eq_root_or_isHalf problem Oracle.halving clock t () k node
    (h.takes.openNodes_perm.mem_iff.mpr List.mem_cons_self) with
    ⟨-, rfl⟩ | ⟨p, j, down, up, rest', hsplits, hhalf⟩
  · have hnumber := Scalar.isNaN_left_of_le (Scalar.le_of_lt hlt)
    exact Scalar.not_lt_of_le (Scalar.negInf_le hnumber) hlt
  · obtain ⟨r', s'', f, old, hsolves, hf, hold, hdown, hup⟩ := hsplits.halves
    have hsplit := Problem.Splits.of_child hsolves.usable hf hold hdown hup
    rw [hsplits.takes.takes.rest_eq.1,
      (settings_and_explored_after hsplits.takes.running).1] at hsplit
    obtain ⟨hlower, hupper⟩ := hsplit.narrows htol
    have hnarrows : p.domain.Narrows node.domain f.var ∧ node.estimate = r'.objective := by
      rcases hhalf with rfl | rfl
      · obtain ⟨d, -, -, rfl⟩ := Node.child_eq_ok hdown
        exact ⟨hlower, rfl⟩
      · obtain ⟨d, -, -, rfl⟩ := Node.child_eq_ok hup
        exact ⟨hupper, rfl⟩
    rw [hnarrows.2] at hlt
    rcases (h.takes.answered hk hasks hanswer).halving with hnone | ⟨i, middle, hi, -, hr⟩
    · cases hnone
    · rcases (hsplits.takes.takes.answered hsplits.takes.running hsolves.asks
        hsolves.answer).halving with hnone | ⟨i', middle', hi', -, hr'⟩
      · cases hnone
      · cases hr
        cases hr'
        have hsubset := hnarrows.1.subset 0 i' i (by rw [Domain.get?, hi']; rfl)
          (by rw [Domain.get?, hi]; rfl)
        exact Scalar.not_lt_of_le (Interval.isSubsetOf_iff.mp hsubset).1 hlt

/-- The sample search by bound knows its root bound, takes four nodes in the order of their
bounds, and reports a bound that is not below any of them. -/
theorem run_sample_monotone :
    let start : Tree Float := create { Settings.sample 10 with nodeSelection := .bestBound }
    ∃ (result : Result Float) (r : Float),
      (start.run Problem.sample Oracle.halving .frozen ()).1 = .ok result ∧
      result.rootBound = some r ∧ r ≤ result.bestBound ∧ result.nodesExplored = 4 ∧
      (takenNodes Problem.sample Oracle.halving .frozen start () 4).Pairwise
        (fun a b => a.bound ≤ b.bound) ∧
      ∀ n ∈ takenNodes Problem.sample Oracle.halving .frozen start () 4,
        n.bound ≤ result.bestBound := by
  intro start
  have hfeasibility : (Scalar.ofInt 0 : Float) ≤ start.settings.feasibilityTol := by
    decide +kernel
  have himprovement : (Scalar.ofInt 0 : Float) ≤ start.settings.improvementTol := by
    decide +kernel
  have hevaluates : (start.run Problem.sample Oracle.halving .frozen ()).1.toOption.any
      (fun result => result.rootBound.isSome && result.nodesExplored == 4) = true := by
    decide +kernel
  obtain ⟨result, tree, s', hrun, htest⟩ := exists_result_of_any hevaluates
  rw [Bool.and_eq_true, beq_iff_eq, Option.isSome_iff_exists] at htest
  obtain ⟨⟨r, hr⟩, hexplored⟩ := htest
  obtain ⟨-, hroot, hbest⟩ := run_bounds_monotone (answersAbove_halving hfeasibility) himprovement
  obtain ⟨hsorted, hreported⟩ := hbest rfl
  refine ⟨result, r, congrArg Prod.fst hrun, hr, (hroot result tree s' hrun r hr).1, hexplored,
    hsorted 4, ?_⟩
  rw [← hexplored]
  exact hreported result tree s' hrun

end Tree
end BranchBound
