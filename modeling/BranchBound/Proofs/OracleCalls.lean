import BranchBound.Proofs.Counts
import BranchBound.Proofs.History

/-!
# Calls of the oracle

No open node is dominated by the incumbent: a new incumbent sweeps the frontier, and the
children of a node inherit a bound that was tested before they were opened.  Hence a node
is never discarded for its inherited bound, and the oracle is called once for every node
taken whose box is not malformed, in the order in which the nodes are taken.

Calls are observed through an oracle that records them.  It gives the same answers, so
the search is the same.
-/

namespace BranchBound
namespace Tree

variable {α : Type} [Scalar α] {σ : Type}

/-! ## Dominated nodes -/

/-- No open node is dominated by the incumbent. -/
def IsSwept (t : Tree α) : Prop :=
  ∀ n ∈ t.frontier.openNodes, n.canPrune t.incumbent = false

variable {problem : Problem α} {oracle : Oracle σ α} {clock : Clock} {t : Tree α} {s : σ}

theorem isSwept_restart (t : Tree α) (root : Domain α) (now : Duration) :
    (t.restart root now).IsSwept :=
  fun _ _ => rfl

section

variable {before after : Duration} {rest : Tree α} {node : Node α}
  {outcome : Except (SearchError α) Disposition} {turn : Turn σ α}

/-- The node taken from a swept search is not dominated, and no other one is. -/
theorem Takes.canPrune_eq_false
    (h : Takes problem oracle before after t s node rest outcome turn) (ht : t.IsSwept) :
    node.canPrune rest.incumbent = false ∧ rest.IsSwept := by
  have hall : ∀ n ∈ node :: rest.frontier.openNodes, n.canPrune rest.incumbent = false := by
    intro n hn
    rw [h.rest_eq.2.1]
    exact ht n (h.openNodes_perm.mem_iff.mpr hn)
  exact ⟨hall node List.mem_cons_self, fun n hn => hall n (List.mem_cons_of_mem node hn)⟩

/-- A turn leaves a swept search swept. -/
theorem Takes.isSwept (h : Takes problem oracle before after t s node rest outcome turn)
    (ht : t.IsSwept) : turn.tree.IsSwept := by
  obtain ⟨-, hrest⟩ := h.canPrune_eq_false ht
  intro n hn
  cases h.tally with
  | kept _ _ _ hfrontier hincumbent =>
      rw [hfrontier] at hn
      rw [hincumbent]
      exact hrest n hn
  | improved _ _ _ hfrontier =>
      rw [hfrontier, (Frontier.prune_perm _ _).mem_iff, List.mem_filter] at hn
      simpa using hn.2
  | split _ hopen hdown hup hfrontier hincumbent =>
      rw [hfrontier, (Frontier.push_push_perm _ _ _).mem_iff, List.mem_cons, List.mem_cons] at hn
      rw [hincumbent]
      rcases hn with rfl | rfl | hn
      · rw [Node.canPrune, Node.child_bound hdown]
        exact hopen
      · rw [Node.canPrune, Node.child_bound hup]
        exact hopen
      · exact hrest n hn

end

theorem isSwept_after (k : Nat) : (after problem oracle clock t s k).tree.IsSwept := by
  apply after_invariant (fun turn => turn.tree.IsSwept) (isSwept_restart t _ _)
  intro k node rest outcome turn _ hswept htakes
  exact htakes.isSwept hswept

/-! ## Recorded calls -/

/-- The calls made while a node is settled. -/
def nodeCalls (now : Duration) (t : Tree α) (node : Node α) : List (OracleCall α) :=
  if node.canPrune t.incumbent || node.domain.isMalformed then []
  else [⟨node.domain, t.remainingTime now⟩]

/-- A recording oracle settles a node as the oracle itself does. -/
theorem processNode_recorded (problem : Problem α) (oracle : Oracle σ α) (now : Duration)
    (t : Tree α) (s : σ) (calls : List (OracleCall α)) (node : Node α) :
    processNode problem oracle.recorded now t (s, calls) node =
      ⟨(processNode problem oracle now t s node).outcome,
        (processNode problem oracle now t s node).tree,
        (processNode problem oracle now t s node).oracle, nodeCalls now t node ++ calls⟩ := by
  unfold processNode nodeCalls
  by_cases hprune : node.canPrune t.incumbent = true
  · simp [hprune]
  · by_cases hmalformed : node.domain.isMalformed = true
    · simp [hprune, hmalformed]
    · simp only [hprune, hmalformed, Bool.or_self, Bool.false_eq_true, if_false, Oracle.recorded]
      cases hanswer : (oracle.solve s node.domain (t.remainingTime now)).1 with
      | error e => rfl
      | ok answer =>
          cases answer with
          | infeasible => rfl
          | interrupted => rfl
          | optimal r =>
              simp only
              cases r.fault? node.domain t.settings.feasibilityTol <;> rfl

/-- The end of a turn leaves the oracle alone. -/
theorem toTurn_recorded (p : Processed σ α) (calls : List (OracleCall α)) (now : Duration) :
    (⟨p.outcome, p.tree, p.oracle, calls⟩ : Processed (σ × List (OracleCall α)) α).toTurn now =
      ⟨(p.toTurn now).verdict, (p.toTurn now).tree, (p.toTurn now).oracle, calls⟩ := by
  obtain ⟨outcome, tree, s⟩ := p
  rcases outcome with e | d
  · rfl
  · cases d
    case interrupted => rfl
    all_goals
      simp only [Processed.toTurn]
      cases (tree.reportProgress now).checkTermination now <;> rfl

theorem nodeCalls_map_domain {now : Duration} {t : Tree α} {node : Node α}
    (h : node.canPrune t.incumbent = false) :
    (nodeCalls now t node).reverse.map OracleCall.domain =
      ([node].filter fun n => !n.domain.isMalformed).map Node.domain := by
  unfold nodeCalls
  cases hmalformed : node.domain.isMalformed <;> simp [h, hmalformed]

/-- A recorded search is the search itself, with the boxes of the nodes taken for calls. -/
theorem after_recorded (problem : Problem α) (oracle : Oracle σ α) (clock : Clock)
    (t : Tree α) (s : σ) (k : Nat) :
    ∃ calls, after problem oracle.recorded clock t (s, []) k =
        ⟨(after problem oracle clock t s k).verdict, (after problem oracle clock t s k).tree,
          (after problem oracle clock t s k).oracle, calls⟩ ∧
      calls.reverse.map OracleCall.domain =
        ((takenNodes problem oracle clock t s k).filter fun n => !n.domain.isMalformed).map
          Node.domain := by
  induction k with
  | zero => exact ⟨[], rfl, rfl⟩
  | succ k ih =>
      obtain ⟨calls, hafter, hcalls⟩ := ih
      have hverdict : (after problem oracle.recorded clock t (s, []) k).verdict =
          (after problem oracle clock t s k).verdict := by rw [hafter]
      by_cases hk : (after problem oracle clock t s k).verdict = .running
      · obtain ⟨node, rest, outcome, h⟩ := exists_takesAt hk
        obtain ⟨hkeep, -⟩ := h.takes.canPrune_eq_false (isSwept_after k)
        refine ⟨nodeCalls (clock (2 * k)) rest node ++ calls, ?_, ?_⟩
        · rw [after_succ_of_running (hverdict.trans hk), after_succ_of_running hk, hafter]
          simp only [advance, h.takes.next, processNode_recorded, toTurn_recorded]
        · rw [takenNodes_succ h, List.reverse_append, List.map_append, hcalls,
            List.filter_append, List.map_append, nodeCalls_map_domain hkeep]
      · refine ⟨calls, ?_, ?_⟩
        · rw [after_succ_of_not_running (hverdict ▸ hk), after_succ_of_not_running hk]
          exact hafter
        · rw [takenNodes, gather_succ_of_not_running hk]
          exact hcalls

/-- A recorded run is the run itself, with the boxes of the nodes taken for calls. -/
theorem run_recorded (oracle : Oracle σ α) (clock : Clock) (t : Tree α) (s : σ)
    (hvalid : problem.fault? = none) :
    ∃ outcome tree s' calls, t.run problem oracle clock s = (outcome, tree, s') ∧
      t.run problem oracle.recorded clock (s, []) = (outcome, tree, s', calls) ∧
      calls.reverse.map OracleCall.domain =
        ((takenNodes problem oracle clock t s tree.stats.explored).filter
          fun n => !n.domain.isMalformed).map Node.domain := by
  obtain ⟨m, final, hm, rfl, hend⟩ := run_eq_after oracle clock t s hvalid
  obtain ⟨m', final', hm', rfl, hend'⟩ := run_eq_after oracle.recorded clock t (s, []) hvalid
  have hverdict (k : Nat) : (after problem oracle.recorded clock t (s, []) k).verdict =
      (after problem oracle clock t s k).verdict := by
    obtain ⟨calls, hafter, -⟩ := after_recorded problem oracle clock t s k
    rw [hafter]
  have hover : (after problem oracle clock t s (m + 1)).verdict ≠ .running := by
    rcases hend with ⟨_, _, h, -⟩ | ⟨_, h, -⟩ <;> simp [h]
  have hover' : (after problem oracle clock t s (m' + 1)).verdict ≠ .running := by
    rw [← hverdict]
    rcases hend' with ⟨_, _, h, -⟩ | ⟨_, h, -⟩ <;> simp [h]
  rw [hverdict] at hm'
  obtain rfl := eq_of_running_of_not_running hm hover hm' hover'
  obtain ⟨calls, hafter, hcalls⟩ := after_recorded problem oracle clock t s (m + 1)
  rw [hafter] at hend'
  rw [← explored_after_succ hm] at hcalls
  rcases hend with ⟨status, _, hended, rfl, hrun⟩ | ⟨e, hfailed, hrun⟩
  · rcases hend' with ⟨status', _, hended', rfl, hrun'⟩ | ⟨e', hfailed', -⟩
    · obtain rfl := Verdict.ended.inj (hended.symm.trans hended')
      refine ⟨_, _, _, calls, hrun, hrun', ?_⟩
      rw [explored_conclude]
      exact hcalls
    · cases hended.symm.trans hfailed'
  · rcases hend' with ⟨status', _, hended', -⟩ | ⟨e', hfailed', hrun'⟩
    · cases hfailed.symm.trans hended'
    · obtain rfl := Verdict.failed.inj (hfailed.symm.trans hfailed')
      exact ⟨_, _, _, calls, hrun, hrun', hcalls⟩

/-- **Calls of the oracle.**  No open node is ever dominated by the incumbent, so no node
is discarded for the bound it inherits.  The calls of a run are the boxes of the nodes
taken, in that order and without the malformed ones.  After an interrupted answer or an
error nothing happens any more. -/
theorem run_calls_oracle (problem : Problem α) (oracle : Oracle σ α) (clock : Clock)
    (t : Tree α) (s : σ) :
    (∀ k, ∀ n ∈ (after problem oracle clock t s k).tree.frontier.openNodes,
      n.canPrune (after problem oracle clock t s k).tree.incumbent = false) ∧
    (∀ k node rest, (after problem oracle clock t s k).verdict = .running →
      (after problem oracle clock t s k).tree.nextNode? = some (node, rest) →
      node.canPrune rest.incumbent = false) ∧
    (problem.fault? = none →
      ∃ outcome tree s' calls, t.run problem oracle clock s = (outcome, tree, s') ∧
        t.run problem oracle.recorded clock (s, []) = (outcome, tree, s', calls) ∧
        calls.reverse.map OracleCall.domain =
          ((takenNodes problem oracle clock t s tree.stats.explored).filter
            fun n => !n.domain.isMalformed).map Node.domain) ∧
    (∀ k m d, AnsweredAt problem oracle clock t s k d .interrupted → k < m →
      after problem oracle.recorded clock t (s, []) m =
        after problem oracle.recorded clock t (s, []) (k + 1)) ∧
    (∀ k m node rest e, (after problem oracle clock t s k).verdict = .running →
      (after problem oracle clock t s k).tree.nextNode? = some (node, rest) →
      (processNode problem oracle (clock (2 * k)) rest (after problem oracle clock t s k).oracle
        node).outcome = .error e → k < m →
      after problem oracle.recorded clock t (s, []) m =
        after problem oracle.recorded clock t (s, []) (k + 1)) := by
  have hover (k m : Nat) (hk : (after problem oracle clock t s (k + 1)).verdict ≠ .running)
      (hlt : k < m) : after problem oracle.recorded clock t (s, []) m =
        after problem oracle.recorded clock t (s, []) (k + 1) := by
    obtain ⟨calls, hafter, -⟩ := after_recorded problem oracle clock t s (k + 1)
    refine (after_of_not_running ?_ hlt).1
    rw [hafter]
    exact hk
  refine ⟨isSwept_after, ?_, run_recorded oracle clock t s, ?_, ?_⟩
  · intro k node rest hk hnext
    exact ((takesAt_of_next hk hnext).takes.canPrune_eq_false (isSwept_after k)).1
  · intro k m d hinterrupted
    apply hover
    rw [hinterrupted.verdict_eq]
    simp
  · intro k m node rest e hk hnext herror
    apply hover
    rw [(takesAt_of_next hk hnext).takes.verdict_eq, herror]
    simp [verdict]

/-- The sample search takes three nodes and calls its oracle about their boxes. -/
theorem run_sample_calls : ∃ (tree : Tree Float) (calls : List (OracleCall Float)),
    ((create (Settings.sample 10)).run Problem.sample Oracle.halving.recorded .frozen
      ((), [])).2 = (tree, (), calls) ∧
    tree.stats.explored = 3 ∧ calls.length = 3 ∧
    calls.reverse.map OracleCall.domain =
      ((takenNodes Problem.sample Oracle.halving .frozen (create (Settings.sample 10)) ()
        3).filter fun n => !n.domain.isMalformed).map Node.domain := by
  have hvalid : (Problem.sample : Problem Float).fault? = none := by decide +kernel
  have hevaluates : (((create (Settings.sample 10 : Settings Float)).run Problem.sample
      Oracle.halving.recorded .frozen ((), [])).2.1.stats.explored,
    ((create (Settings.sample 10 : Settings Float)).run Problem.sample
      Oracle.halving.recorded .frozen ((), [])).2.2.2.length) = (3, 3) := by
    decide +kernel
  obtain ⟨-, -, hrecorded, -⟩ := run_calls_oracle (Problem.sample : Problem Float) Oracle.halving
    .frozen (create (Settings.sample 10)) ()
  obtain ⟨outcome, tree, s', calls, -, hrun, hcalls⟩ := hrecorded hvalid
  rw [hrun] at hevaluates
  obtain ⟨hexplored, hlength⟩ := Prod.mk.inj hevaluates
  rw [hexplored] at hcalls
  exact ⟨tree, calls, congrArg Prod.snd hrun, hexplored, hlength, hcalls⟩

end Tree
end BranchBound
