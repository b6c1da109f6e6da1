import BranchBound.Proofs.Binary64.Lawful
import BranchBound.Proofs.Numbering

/-!
# Conservation of nodes

A node that was opened is open, was split, or is counted once among the pruned nodes and
the replacements of the incumbent.  Hence the counts of a search determine each other.
The only node that no count mentions is one whose relaxation was interrupted or failed,
and a search does not go on after that.

An integral node is never without effect: before there is an incumbent every finite
objective improves, and afterwards the test for pruning is the test for improvement.
-/

namespace BranchBound

variable {α : Type} [Scalar α] {σ : Type}

/-- Counts that fit together when some nodes are open and some were taken but not
settled. -/
structure Counts.Balanced (c : Counts) (openNodes unsettled : Nat) : Prop where
  balance : c.pruned + c.updates + openNodes + unsettled = c.branched + 1
  explored_le : c.explored ≤ 2 * c.branched + 1
  infeasible_le : c.infeasible ≤ c.pruned
  maxDepth_le : c.maxDepth ≤ c.branched

namespace Tree

/-- Every node that was opened is open, was split or is counted, except for a number of
them that were taken but not settled. -/
def IsBalanced (t : Tree α) (unsettled : Nat) : Prop :=
  t.stats.pruned + t.stats.updates + t.frontier.size + unsettled = t.stats.branched + 1

/-- As long as there is no incumbent, no node is pruned by its bound. -/
def AwaitsIncumbent (t : Tree α) : Prop :=
  t.incumbent.isPresent = false →
    t.incumbent.objective = Scalar.posInf ∧ t.stats.updates = 0 ∧
      t.stats.pruned = t.stats.infeasible

/-! ## Settling a node -/

namespace Tally

variable {problem : Problem α} {oracle : Oracle σ α} {now : Duration} {t tree : Tree α}
  {s : σ} {node : Node α} {outcome : Except (SearchError α) Disposition}

/-- A node that was settled is counted once. -/
theorem isBalanced (h : t.Tally problem oracle now s node outcome tree)
    (himproved : outcome ≠ .ok (.integral false)) (hbalance : t.IsBalanced 1) :
    tree.IsBalanced (Counts.unsettled outcome) := by
  unfold IsBalanced at hbalance ⊢
  cases h with
  | kept hsplit hworse _ hfrontier _ _ hcounts =>
      obtain ⟨-, hpruned, hbranched, -, hupdates, -⟩ := Counts.mk.inj hcounts
      have hone := Counts.discarded_add_unsettled hsplit hworse himproved
      rw [hfrontier, hpruned, hbranched, hupdates]
      simp only [Statistics.counts]
      omega
  | improved _ _ _ hfrontier _ _ hcounts =>
      obtain ⟨-, hpruned, hbranched, -, hupdates, -⟩ := Counts.mk.inj hcounts
      have hle := t.frontier.size_prune_le tree.incumbent
      rw [← hfrontier] at hle
      rw [hpruned, hbranched, hupdates]
      simp only [Counts.unsettled, Statistics.counts]
      omega
  | split _ _ _ _ hfrontier _ _ hcounts =>
      obtain ⟨-, hpruned, hbranched, -, hupdates, -⟩ := Counts.mk.inj hcounts
      rw [hfrontier, Frontier.size_push_push, hpruned, hbranched, hupdates]
      simp only [Counts.unsettled, Statistics.counts]
      omega

theorem infeasible_le (h : t.Tally problem oracle now s node outcome tree)
    (hle : t.stats.infeasible ≤ t.stats.pruned) :
    tree.stats.infeasible ≤ tree.stats.pruned := by
  cases h with
  | kept _ _ _ _ _ _ hcounts =>
      obtain ⟨-, hpruned, -, hinfeasible, -, -⟩ := Counts.mk.inj hcounts
      rw [hpruned, hinfeasible]
      exact Nat.add_le_add hle (Counts.foundInfeasible_le_discarded outcome)
  | improved _ _ _ _ _ _ hcounts =>
      obtain ⟨-, hpruned, -, hinfeasible, -, -⟩ := Counts.mk.inj hcounts
      rw [hpruned, hinfeasible]
      exact Nat.le_add_right_of_le hle
  | split _ _ _ _ _ _ _ hcounts =>
      obtain ⟨-, hpruned, -, hinfeasible, -, -⟩ := Counts.mk.inj hcounts
      rw [hpruned, hinfeasible]
      exact hle

/-- The incumbent is not lost, and without it a node is pruned for being infeasible
only. -/
theorem awaitsIncumbent (h : t.Tally problem oracle now s node outcome tree)
    (hawaits : t.AwaitsIncumbent) : tree.AwaitsIncumbent := by
  intro habsent
  cases h with
  | kept _ _ hpresent _ hincumbent _ hcounts =>
      obtain ⟨-, hpruned, -, hinfeasible, hupdates, -⟩ := Counts.mk.inj hcounts
      rw [hincumbent] at habsent ⊢
      obtain ⟨hobjective, hnone, heq⟩ := hawaits habsent
      refine ⟨hobjective, hupdates.trans hnone, ?_⟩
      have hnotPruned : outcome ≠ .ok .pruned := by
        intro houtcome
        rw [hpresent houtcome] at habsent
        cases habsent
      rw [hpruned, hinfeasible, Counts.discarded_eq_foundInfeasible hnotPruned]
      exact congrArg (· + Counts.foundInfeasible outcome) heq
  | improved _ _ himproves _ hincumbent _ _ =>
      rw [hincumbent, Incumbent.consider_of_improves himproves] at habsent
      cases habsent
  | split _ _ _ _ _ hincumbent _ hcounts =>
      obtain ⟨-, hpruned, -, hinfeasible, hupdates, -⟩ := Counts.mk.inj hcounts
      rw [hincumbent] at habsent ⊢
      rw [hpruned, hinfeasible, hupdates]
      exact hawaits habsent

end Tally

/-! ## Turns -/

namespace Takes

variable {problem : Problem α} {oracle : Oracle σ α} {before after : Duration}
  {t rest : Tree α} {s : σ} {node : Node α} {outcome : Except (SearchError α) Disposition}
  {turn : Turn σ α}

theorem rest_awaitsIncumbent
    (h : Takes problem oracle before after t s node rest outcome turn)
    (hawaits : t.AwaitsIncumbent) : rest.AwaitsIncumbent := by
  obtain ⟨-, hpruned, -, hinfeasible, hupdates, -⟩ := Counts.mk.inj h.rest_counts.1
  unfold AwaitsIncumbent
  rw [h.rest_eq.2.1, hpruned, hinfeasible, hupdates]
  exact hawaits

/-- An integral node improves on the incumbent. -/
theorem integral_improves [LawfulScalar α]
    (h : Takes problem oracle before after t s node rest outcome turn)
    (hawaits : t.AwaitsIncumbent) {improved : Bool}
    (houtcome : outcome = .ok (.integral improved)) : improved = true := by
  obtain ⟨tree, journal, hsettles, -⟩ := h.settled
  have habsent := h.rest_awaitsIncumbent hawaits
  rw [houtcome] at hsettles
  cases hsettles with
  | integral hsolves hopen hintegral =>
      have hfinite := (Relaxation.fault?_eq_none hsolves.usable).2.1
      exact Incumbent.improves_of_not_dominates (fun h => (habsent h).1) hfinite hopen

/-- A turn counts the node it takes, unless it leaves it unsettled. -/
theorem isBalanced [LawfulScalar α]
    (h : Takes problem oracle before after t s node rest outcome turn)
    (hawaits : t.AwaitsIncumbent) (hbalance : t.IsBalanced 0) :
    turn.tree.IsBalanced (Counts.unsettled outcome) := by
  apply h.tally.isBalanced
  · intro houtcome
    cases h.integral_improves hawaits houtcome
  · obtain ⟨-, hpruned, hbranched, -, hupdates, -⟩ := Counts.mk.inj h.rest_counts.1
    have hsize : t.frontier.size = rest.frontier.size + 1 := h.openNodes_perm.length_eq
    unfold IsBalanced at hbalance ⊢
    rw [hsize] at hbalance
    rw [hpruned, hbranched, hupdates]
    exact hbalance

end Takes

variable {problem : Problem α} {oracle : Oracle σ α} {clock : Clock} {t : Tree α} {s : σ}
  {k : Nat}

theorem awaitsIncumbent_after (k : Nat) :
    (after problem oracle clock t s k).tree.AwaitsIncumbent := by
  apply after_invariant (fun turn => turn.tree.AwaitsIncumbent)
  · intro _
    exact ⟨rfl, rfl, rfl⟩
  · intro k node rest outcome turn _ hawaits htakes
    exact htakes.tally.awaitsIncumbent (htakes.rest_awaitsIncumbent hawaits)

theorem infeasible_le_after (k : Nat) :
    (after problem oracle clock t s k).tree.stats.infeasible ≤
      (after problem oracle clock t s k).tree.stats.pruned := by
  apply after_invariant (fun turn => turn.tree.stats.infeasible ≤ turn.tree.stats.pruned)
  · exact le_rfl
  · intro k node rest outcome turn _ hle htakes
    obtain ⟨-, hpruned, -, hinfeasible, -, -⟩ := Counts.mk.inj htakes.rest_counts.1
    apply htakes.tally.infeasible_le
    rw [hpruned, hinfeasible]
    exact hle

omit [Scalar α] in
/-- A search goes on only after a node that was settled. -/
theorem unsettled_eq_zero_of_running {tree : Tree α}
    {outcome : Except (SearchError α) Disposition} {now : Duration}
    (h : tree.verdict outcome now = .running) : Counts.unsettled outcome = 0 := by
  rcases outcome with e | d
  · cases h
  · cases d with
    | interrupted => cases h
    | _ => rfl

omit [Scalar α] in
theorem unsettled_eq_zero_of_ended {tree : Tree α}
    {outcome : Except (SearchError α) Disposition} {now : Duration} {status : Status}
    (h : tree.verdict outcome now = .ended status) (hresolved : outcome ≠ .ok .interrupted) :
    Counts.unsettled outcome = 0 := by
  rcases outcome with e | d
  · cases h
  · cases d with
    | interrupted => contradiction
    | _ => rfl

theorem isBalanced_of_running [LawfulScalar α]
    (hk : (after problem oracle clock t s k).verdict = .running) :
    (after problem oracle clock t s k).tree.IsBalanced 0 := by
  induction k with
  | zero =>
      have hsize : (after problem oracle clock t s 0).tree.frontier.size = 1 :=
        congrArg List.length (openNodes_restart t problem.rootDomain (clock 0))
      rw [IsBalanced, hsize]
      rfl
  | succ k ih =>
      have hk' := running_of_running_succ hk
      obtain ⟨node, rest, outcome, htakes⟩ := after_takes hk'
      have hbalance := htakes.isBalanced (awaitsIncumbent_after k) (ih hk')
      rw [htakes.verdict_eq] at hk
      rwa [unsettled_eq_zero_of_running hk] at hbalance

/-- A turn leaves at most the node that it takes uncounted. -/
theorem TakesAt.isBalanced [LawfulScalar α] {node : Node α} {rest : Tree α}
    {outcome : Except (SearchError α) Disposition}
    (h : TakesAt problem oracle clock t s k node rest outcome) :
    (after problem oracle clock t s (k + 1)).tree.IsBalanced (Counts.unsettled outcome) :=
  h.takes.isBalanced (awaitsIncumbent_after k) (isBalanced_of_running h.running)

/-! ## Runs -/

theorem balanced_of_isBalanced {unsettled : Nat}
    (hbalance : (after problem oracle clock t s k).tree.IsBalanced unsettled) :
    (after problem oracle clock t s k).tree.stats.counts.Balanced
      (after problem oracle clock t s k).tree.frontier.size unsettled := by
  refine ⟨hbalance, ?_, infeasible_le_after k, (isShallow_after k).1⟩
  have hcount := explored_add_swept_add_open problem oracle clock t s k
  simp only [Statistics.counts]
  omega

/-- A run that has ended was interrupted in its last turn or not at all. -/
theorem interrupted_iff {m : Nat} {status : Status} {node : Node α} {rest : Tree α}
    {outcome : Except (SearchError α) Disposition}
    (h : TakesAt problem oracle clock t s m node rest outcome)
    (hend : (after problem oracle clock t s (m + 1)).verdict = .ended status) :
    outcome = .ok .interrupted ↔ ∃ d, Answered problem oracle clock t s d .interrupted := by
  constructor
  · intro houtcome
    obtain ⟨tree, journal, hsettles, -⟩ := h.takes.settled
    rw [houtcome] at hsettles
    cases hsettles with
    | interrupted hasks hanswer => exact ⟨_, h.takes.answered h.running hasks hanswer⟩
  · rintro ⟨d, j, node', rest', s', hj, hnext, hasks, hd, hanswer⟩
    have hat : AnsweredAt problem oracle clock t s j d .interrupted :=
      ⟨node', rest', s', hj, hnext, hasks, hd, hanswer⟩
    obtain rfl : j = m := eq_of_running_of_not_running hj (by simp [hat.verdict_eq]) h.running
      (by simp [hend])
    obtain ⟨node'', rest'', h'⟩ := hat.takesAt
    exact h.outcome_unique h'

/-- A run with a result reports the counts of its last turn, and leaves the nodes open that
this turn left open. -/
theorem run_eq_ok_counts {result : Result α} {tree : Tree α} {s' : σ}
    (h : t.run problem oracle clock s = (.ok result, tree, s')) :
    ∃ m, (after problem oracle clock t s m).verdict = .running ∧
      (after problem oracle clock t s (m + 1)).verdict = .ended result.status ∧
      result.counts = (after problem oracle clock t s (m + 1)).tree.stats.counts ∧
      tree.stats.counts = result.counts ∧
      tree.frontier = (after problem oracle clock t s (m + 1)).tree.frontier := by
  obtain ⟨m, final, hm, rfl, ⟨status, now, hend, -, hrun⟩ | ⟨e, -, hrun⟩⟩ :=
    run_eq_after oracle clock t s (run_eq_ok h).1
  · rw [h] at hrun
    obtain ⟨hresult, htail⟩ := Prod.mk.inj hrun
    obtain ⟨rfl, -⟩ := Prod.mk.inj htail
    obtain rfl := Except.ok.inj hresult
    obtain ⟨hcounts, hcounts', hfrontier, -⟩ :=
      (after problem oracle clock t s (m + 1)).tree.conclude_counts status now
    rw [← (conclude_eq (after problem oracle clock t s (m + 1)).tree status now).1] at hend
    exact ⟨m, hm, hend, hcounts, hcounts'.trans hcounts.symm, hfrontier⟩
  · rw [h] at hrun
    cases (Prod.mk.inj hrun).1

variable [LawfulScalar α]

/-- A run that has ended left a node uncounted exactly if it was interrupted. -/
theorem run_ok_balanced {result : Result α} {tree : Tree α} {s' : σ}
    (h : t.run problem oracle clock s = (.ok result, tree, s')) :
    ((∃ d, Answered problem oracle clock t s d .interrupted) →
      result.counts.Balanced tree.frontier.size 1) ∧
    ((¬∃ d, Answered problem oracle clock t s d .interrupted) →
      result.counts.Balanced tree.frontier.size 0) := by
  obtain ⟨m, hm, hend, hcounts, -, hfrontier⟩ := run_eq_ok_counts h
  obtain ⟨node, rest, outcome, htakes⟩ := exists_takesAt hm
  have hbalanced := balanced_of_isBalanced htakes.isBalanced
  rw [← interrupted_iff htakes hend, hcounts, hfrontier]
  constructor
  · intro hinterrupted
    rwa [hinterrupted] at hbalanced
  · intro hresolved
    rw [htakes.takes.verdict_eq] at hend
    rwa [unsettled_eq_zero_of_ended hend hresolved] at hbalanced

/-- A run that finds nothing prunes infeasible nodes only, and explores every node that it
opens. -/
theorem run_infeasible_counts {result : Result α} {tree : Tree α} {s' : σ}
    (h : t.run problem oracle clock s = (.ok result, tree, s'))
    (hstatus : result.status = .infeasible) :
    result.nodesPruned = result.nodesInfeasible ∧
      result.nodesExplored = result.nodesBranched + result.nodesPruned ∧
      result.nodesExplored = 2 * result.nodesBranched + 1 := by
  obtain ⟨m, hm, hend, hcounts, -, -⟩ := run_eq_ok_counts h
  obtain ⟨node, rest, outcome, htakes⟩ := exists_takesAt hm
  obtain ⟨hexplored, hpruned, hbranched, hinfeasible, -⟩ := Counts.mk.inj hcounts
  have hbalance := htakes.isBalanced
  rw [htakes.takes.verdict_eq, hstatus] at hend
  rcases verdict_eq_ended hend with ⟨-, hlimit⟩ | ⟨hresolved, ⟨hopen, hexhausted⟩ | ⟨-, hlimit⟩⟩
  · cases hlimit
  · have habsent : (after problem oracle clock t s (m + 1)).tree.incumbent.isPresent = false := by
      by_contra hpresent
      rw [exhaustedStatus, if_pos (by simpa using hpresent)] at hexhausted
      cases hexhausted
    have hsize : (after problem oracle clock t s (m + 1)).tree.frontier.size = 0 :=
      congrArg List.length hopen
    obtain ⟨-, hupdates, heq⟩ := awaitsIncumbent_after (m + 1) habsent
    have hcount := explored_add_swept_add_open problem oracle clock t s (m + 1)
    rw [sweptNodes_eq_nil habsent, hsize] at hcount
    rw [unsettled_eq_zero_of_ended hend hresolved, IsBalanced, hupdates, hsize] at hbalance
    rw [hexplored, hpruned, hbranched, hinfeasible]
    simp only [List.length_nil] at hcount
    omega
  · cases hlimit

/-- A run that fails leaves one node uncounted. -/
theorem run_error_balanced {e : SearchError α} {tree : Tree α} {s' : σ}
    (hvalid : problem.fault? = none)
    (h : t.run problem oracle clock s = (.error e, tree, s')) :
    tree.stats.counts.Balanced tree.frontier.size 1 ∧
      Numbered problem oracle clock t s tree.stats.explored tree := by
  obtain ⟨m, final, hm, rfl, ⟨status, now, -, -, hrun⟩ | ⟨e', hfailed, hrun⟩⟩ :=
    run_eq_after oracle clock t s hvalid
  · rw [h] at hrun
    cases (Prod.mk.inj hrun).1
  · rw [h] at hrun
    obtain ⟨rfl, -⟩ := Prod.mk.inj (Prod.mk.inj hrun).2
    obtain ⟨node, rest, outcome, htakes⟩ := exists_takesAt hm
    have hbalance := htakes.isBalanced
    rw [htakes.takes.verdict_eq] at hfailed
    rw [verdict_eq_failed hfailed] at hbalance
    refine ⟨balanced_of_isBalanced hbalance, ?_⟩
    rw [explored_after_succ hm]
    exact numbered_after problem oracle clock t s (m + 1)

/-- **Conservation of nodes.**  At every head of the loop and at the end of a run, every
node but the root was opened by a split, and every node that is not open was split, pruned
or replaced the incumbent.  The identifiers given are consecutive, and no node is taken
twice.  A run that is interrupted or fails leaves one node uncounted. -/
theorem run_conserves_nodes (problem : Problem α) (oracle : Oracle σ α) (clock : Clock)
    (t : Tree α) (s : σ) :
    (∀ k, (after problem oracle clock t s k).verdict = .running →
      (after problem oracle clock t s k).tree.stats.counts.Balanced
        (after problem oracle clock t s k).tree.frontier.size 0 ∧
      Numbered problem oracle clock t s k (after problem oracle clock t s k).tree) ∧
    (∀ k node rest improved, (after problem oracle clock t s k).verdict = .running →
      (after problem oracle clock t s k).tree.nextNode? = some (node, rest) →
      (processNode problem oracle (clock (2 * k)) rest (after problem oracle clock t s k).oracle
        node).outcome = .ok (.integral improved) → improved = true) ∧
    (∀ result tree s', t.run problem oracle clock s = (.ok result, tree, s') →
      ((∃ d, Answered problem oracle clock t s d .interrupted) →
        result.counts.Balanced tree.frontier.size 1) ∧
      ((¬∃ d, Answered problem oracle clock t s d .interrupted) →
        result.counts.Balanced tree.frontier.size 0) ∧
      tree.stats.counts = result.counts ∧
      Numbered problem oracle clock t s result.nodesExplored tree ∧
      (result.status = .infeasible → result.nodesPruned = result.nodesInfeasible ∧
        result.nodesExplored = result.nodesBranched + result.nodesPruned ∧
        result.nodesExplored = 2 * result.nodesBranched + 1)) ∧
    (∀ e tree s', problem.fault? = none → t.run problem oracle clock s = (.error e, tree, s') →
      tree.stats.counts.Balanced tree.frontier.size 1 ∧
      Numbered problem oracle clock t s tree.stats.explored tree) := by
  refine ⟨?_, ?_, ?_, ?_⟩
  · intro k hk
    exact ⟨balanced_of_isBalanced (isBalanced_of_running hk),
      numbered_after problem oracle clock t s k⟩
  · intro k node rest improved hk hnext houtcome
    exact (takesAt_of_next hk hnext).takes.integral_improves (awaitsIncumbent_after k) houtcome
  · intro result tree s' hrun
    obtain ⟨m, hm, -, hcounts, hcounts', hfrontier⟩ := run_eq_ok_counts hrun
    obtain ⟨hinterrupted, hresolved⟩ := run_ok_balanced hrun
    refine ⟨hinterrupted, hresolved, hcounts', ?_, run_infeasible_counts hrun⟩
    have hexplored : result.nodesExplored = m + 1 := by
      rw [← explored_after_succ hm]
      exact congrArg Counts.explored hcounts
    have hbranched := congrArg Counts.branched (hcounts'.trans hcounts)
    rw [hexplored]
    exact (numbered_after problem oracle clock t s (m + 1)).congr hfrontier hbranched
  · intro e tree s' hvalid hrun
    exact run_error_balanced hvalid hrun

/-- The sample search splits two nodes, prunes two and finds one point. -/
theorem run_sample_conserves : ∃ (result : Result Float) (tree : Tree Float),
    (create (Settings.sample 10)).run Problem.sample Oracle.halving .frozen () =
      (.ok result, tree, ()) ∧
    result.counts = ⟨3, 2, 2, 0, 1, 2⟩ ∧ result.counts.Balanced 0 0 ∧
    Numbered Problem.sample Oracle.halving .frozen (create (Settings.sample 10)) () 3 tree := by
  have hevaluates : (((create (Settings.sample 10 : Settings Float)).run Problem.sample
      Oracle.halving .frozen ()).1.toOption.map Result.counts,
    ((create (Settings.sample 10 : Settings Float)).run Problem.sample
      Oracle.halving .frozen ()).2.1.frontier.size) = (some ⟨3, 2, 2, 0, 1, 2⟩, 0) := by
    decide +kernel
  rcases hrun : (create (Settings.sample 10 : Settings Float)).run Problem.sample
    Oracle.halving .frozen () with ⟨e | result, tree, s'⟩
  · rw [hrun] at hevaluates
    cases (Prod.mk.inj hevaluates).1
  · rw [hrun] at hevaluates
    obtain ⟨hcounts, hsize⟩ := Prod.mk.inj hevaluates
    have hcounts' : result.counts = ⟨3, 2, 2, 0, 1, 2⟩ := Option.some.inj hcounts
    obtain ⟨-, -, hend, -⟩ := run_conserves_nodes (Problem.sample : Problem Float)
      Oracle.halving .frozen (create (Settings.sample 10)) ()
    obtain ⟨hinterrupted, hresolved, -, hnumbered, -⟩ := hend result tree s' hrun
    have hnone : ¬∃ d, Answered Problem.sample Oracle.halving .frozen
        (create (Settings.sample 10 : Settings Float)) () d .interrupted := by
      intro h
      have hbalance := (hinterrupted h).balance
      rw [hcounts', hsize] at hbalance
      simp at hbalance
    have hbalanced := hresolved hnone
    rw [show result.nodesExplored = 3 from congrArg Counts.explored hcounts'] at hnumbered
    rw [hsize] at hbalanced
    exact ⟨result, tree, rfl, hcounts', hbalanced, hnumbered⟩

/-- A run that fails at its root is not interrupted.  Still its root is neither open nor
counted. -/
theorem run_failing_loses_root :
    let oracle : Oracle Unit Float := .ofFunction fun _ => .error (.oracle (.reported "no answer"))
    (Problem.sample : Problem Float).fault? = none ∧
    (¬∃ d, Answered Problem.sample oracle .frozen (create (Settings.sample 10)) () d
      .interrupted) ∧
    ∃ tree, (create (Settings.sample 10)).run Problem.sample oracle .frozen () =
        (.error (.oracle (.reported "no answer")), tree, ()) ∧
      tree.stats.explored = 1 ∧ ¬tree.stats.counts.Balanced tree.frontier.size 0 := by
  intro oracle
  refine ⟨by decide +kernel, ?_, _, rfl, by decide +kernel, ?_⟩
  · rintro ⟨d, k, node, rest, s', -, -, -, -, hanswer⟩
    cases hanswer
  · intro hbalanced
    have hbalance := hbalanced.balance
    revert hbalance
    decide +kernel

end Tree
end BranchBound
