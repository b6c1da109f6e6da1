import BranchBound.Relaxation.Corner
import BranchBound.Proofs.Turns

/-!
# Heads of the loop

The search of a problem after any number of turns.  As long as the search is
running it is at the head of its loop: a node is open, every turn so far has
explored one, and the node limit is not reached.  Hence the allowance of turns is
never what ends a run, and every result is built after the turn that ended it.
-/

namespace BranchBound

variable {α : Type} [Scalar α] {σ : Type}

namespace Tree

/-! ## One turn -/

/-- The verdict at the end of a turn whose node was settled with an outcome. -/
def verdict (t : Tree α) (outcome : Except (SearchError α) Disposition) (now : Duration) :
    Verdict α :=
  match outcome with
  | .error e => .failed e
  | .ok .interrupted => .ended .timeLimit
  | .ok _ =>
      match t.checkTermination now with
      | some status => .ended status
      | none => .running

/-- One turn of the loop: a node is taken and settled, and the limits are tested.
After that only the journal may have grown. -/
structure Takes (problem : Problem α) (oracle : Oracle σ α) (before after : Duration)
    (t : Tree α) (s : σ) (node : Node α) (rest : Tree α)
    (outcome : Except (SearchError α) Disposition) (turn : Turn σ α) : Prop where
  next : t.nextNode? = some (node, rest)
  outcome_eq : (processNode problem oracle before rest s node).outcome = outcome
  oracle_eq : (processNode problem oracle before rest s node).oracle = turn.oracle
  tree_eq : ∃ journal, turn.tree =
    { (processNode problem oracle before rest s node).tree with journal := journal }
  verdict_eq : turn.verdict = turn.tree.verdict outcome after

theorem nextNode?_eq_some {t rest : Tree α} {node : Node α}
    (h : t.nextNode? = some (node, rest)) :
    t.frontier.pop? = some (node, rest.frontier) ∧
      rest = { t with
        frontier := rest.frontier
        stats := { t.stats with
          explored := t.stats.explored + 1
          maxDepth := max t.stats.maxDepth node.depth }
        lastBound := node.bound } := by
  unfold nextNode? at h
  split at h
  · cases h
  next node' f hpop =>
    obtain ⟨rfl, rfl⟩ := Prod.mk.inj (Option.some.inj h)
    exact ⟨hpop, rfl⟩

theorem nextNode?_eq_none_iff {t : Tree α} :
    t.nextNode? = none ↔ t.frontier.openNodes = [] := by
  rw [← Frontier.pop?_eq_none_iff]
  unfold nextNode?
  cases t.frontier.pop? <;> simp

theorem reportProgress_eq (t : Tree α) (now : Duration) :
    ∃ journal, t.reportProgress now = { t with journal := journal } := by
  unfold reportProgress
  split
  · exact ⟨_, rfl⟩
  · exact ⟨t.journal, rfl⟩

/-- The end of a turn adds to the journal at most and gives the verdict. -/
theorem toTurn_eq (p : Processed σ α) (now : Duration) :
    p.oracle = (p.toTurn now).oracle ∧
      (∃ journal, (p.toTurn now).tree = { p.tree with journal := journal }) ∧
      (p.toTurn now).verdict = (p.toTurn now).tree.verdict p.outcome now := by
  obtain ⟨outcome, tree, s⟩ := p
  obtain ⟨journal, hreport⟩ := tree.reportProgress_eq now
  rcases outcome with e | d
  · exact ⟨rfl, ⟨tree.journal, rfl⟩, rfl⟩
  · cases d
    case interrupted => exact ⟨rfl, ⟨_, rfl⟩, rfl⟩
    all_goals
      simp only [Processed.toTurn, verdict, hreport]
      split
      · exact ⟨rfl, ⟨journal, rfl⟩, by simp_all⟩
      · exact ⟨rfl, ⟨journal, rfl⟩, by simp_all⟩

/-- A turn with an open node takes it. -/
theorem advance_takes (problem : Problem α) (oracle : Oracle σ α) (before after : Duration)
    (t : Tree α) (s : σ) (hopen : t.frontier.openNodes ≠ []) :
    ∃ node rest outcome, Takes problem oracle before after t s node rest outcome
      (advance problem oracle before after t s) := by
  cases hnext : t.nextNode? with
  | none => exact absurd (nextNode?_eq_none_iff.mp hnext) hopen
  | some popped =>
      obtain ⟨node, rest⟩ := popped
      have hadvance : advance problem oracle before after t s =
          (processNode problem oracle before rest s node).toTurn after := by
        unfold advance
        rw [hnext]
      refine ⟨node, rest, (processNode problem oracle before rest s node).outcome, ?_⟩
      obtain ⟨horacle, htree, hverdict⟩ :=
        toTurn_eq (processNode problem oracle before rest s node) after
      rw [hadvance]
      exact ⟨hnext, rfl, horacle, htree, hverdict⟩

namespace Takes

variable {problem : Problem α} {oracle : Oracle σ α} {before after : Duration}
  {t rest : Tree α} {s : σ} {node : Node α} {outcome : Except (SearchError α) Disposition}
  {turn : Turn σ α}

theorem openNodes_perm (h : Takes problem oracle before after t s node rest outcome turn) :
    t.frontier.openNodes.Perm (node :: rest.frontier.openNodes) :=
  Frontier.pop?_perm (nextNode?_eq_some h.next).1

/-- Taking a node leaves everything alone but the frontier, the counts and the last
bound. -/
theorem rest_eq (h : Takes problem oracle before after t s node rest outcome turn) :
    rest.settings = t.settings ∧ rest.incumbent = t.incumbent ∧
      rest.unresolvedBound = t.unresolvedBound ∧
      rest.stats.branched = t.stats.branched := by
  rw [(nextNode?_eq_some h.next).2]
  exact ⟨rfl, rfl, rfl, rfl⟩

/-- The node taken is settled. -/
theorem settled (h : Takes problem oracle before after t s node rest outcome turn) :
    ∃ tree journal, Settles problem oracle before rest s node outcome tree turn.oracle ∧
      turn.tree = { tree with journal := journal } := by
  obtain ⟨journal, htree⟩ := h.tree_eq
  have hsettles := processNode_settles problem oracle before rest s node
  rw [h.outcome_eq, h.oracle_eq] at hsettles
  exact ⟨_, journal, hsettles, htree⟩

theorem effect (h : Takes problem oracle before after t s node rest outcome turn) :
    rest.Effect problem oracle before s node outcome turn.tree := by
  obtain ⟨tree, journal, hsettles, htree⟩ := h.settled
  rw [htree]
  cases hsettles.effect with
  | kept hsplit hresolved hworse hfrontier hincumbent hunresolved hbranched =>
      exact .kept hsplit hresolved hworse hfrontier hincumbent hunresolved hbranched
  | interrupted hfrontier hincumbent hunresolved hbranched =>
      exact .interrupted hfrontier hincumbent hunresolved hbranched
  | improved hsolves himproves hfrontier hincumbent hunresolved hbranched =>
      exact .improved hsolves himproves hfrontier hincumbent hunresolved hbranched
  | split hsolves hsplits hdown hup hfrontier hincumbent hunresolved hbranched =>
      exact .split hsolves hsplits hdown hup hfrontier hincumbent hunresolved hbranched

/-- A turn explores one node and leaves the settings alone. -/
theorem settings_and_explored
    (h : Takes problem oracle before after t s node rest outcome turn) :
    turn.tree.settings = t.settings ∧ turn.tree.stats.explored = t.stats.explored + 1 := by
  obtain ⟨tree, journal, hsettles, htree⟩ := h.settled
  obtain ⟨hsettings, hexplored⟩ := hsettles.settings_and_explored
  rw [htree]
  simp only [hsettings, hexplored]
  rw [(nextNode?_eq_some h.next).2]
  exact ⟨rfl, rfl⟩

end Takes

/-! ## Turn after turn -/

/-- The search of a problem after a number of turns; it stays as it is once it is
over. -/
def after (problem : Problem α) (oracle : Oracle σ α) (clock : Clock) (t : Tree α) (s : σ) :
    Nat → Turn σ α
  | 0 => ⟨.running, t.restart problem.rootDomain (clock 0), s⟩
  | k + 1 =>
      let turn := after problem oracle clock t s k
      match turn.verdict with
      | .running => advance problem oracle (clock (2 * k)) (clock (2 * k + 1)) turn.tree turn.oracle
      | _ => turn

variable {problem : Problem α} {oracle : Oracle σ α} {clock : Clock} {t : Tree α} {s : σ}

theorem openNodes_restart (t : Tree α) (root : Domain α) (now : Duration) :
    (t.restart root now).frontier.openNodes = [.root root] := by
  have hperm := Frontier.push_perm (.empty t.settings.nodeSelection) (.root root)
  rw [Frontier.openNodes_empty] at hperm
  exact List.perm_singleton.mp hperm

theorem after_succ_of_running {k : Nat}
    (h : (after problem oracle clock t s k).verdict = .running) :
    after problem oracle clock t s (k + 1) =
      advance problem oracle (clock (2 * k)) (clock (2 * k + 1))
        (after problem oracle clock t s k).tree (after problem oracle clock t s k).oracle := by
  simp only [after, h]

theorem after_succ_of_not_running {k : Nat}
    (h : (after problem oracle clock t s k).verdict ≠ .running) :
    after problem oracle clock t s (k + 1) = after problem oracle clock t s k := by
  rw [after]
  split
  next hrunning => exact absurd hrunning h
  next => rfl

omit [Scalar α] in
/-- The limits let a search go on only if a node is open and fewer nodes were
explored than allowed. -/
theorem checkTermination_eq_none {t : Tree α} {now : Duration}
    (h : t.checkTermination now = none) :
    t.frontier.openNodes ≠ [] ∧ t.stats.explored < t.settings.maxNodes := by
  unfold checkTermination at h
  split at h
  · cases h
  next hopen =>
    split at h
    · cases h
    · split at h
      · cases h
      next hlimit =>
        rw [Frontier.isEmpty_iff] at hopen
        exact ⟨hopen, Nat.lt_of_not_le hlimit⟩

omit [Scalar α] in
theorem verdict_eq_running {t : Tree α} {outcome : Except (SearchError α) Disposition}
    {now : Duration} (h : t.verdict outcome now = .running) :
    t.checkTermination now = none := by
  unfold verdict at h
  split at h
  · cases h
  · cases h
  · split at h
    · cases h
    · assumption

omit [Scalar α] in
theorem verdict_eq_failed {t : Tree α} {outcome : Except (SearchError α) Disposition}
    {now : Duration} {e : SearchError α} (h : t.verdict outcome now = .failed e) :
    outcome = .error e := by
  unfold verdict at h
  split at h
  · exact congrArg Except.error (Verdict.failed.inj h)
  · cases h
  · split at h <;> cases h

omit [Scalar α] in
/-- A search ends because its node was interrupted, because no node is open, or at a
limit. -/
theorem verdict_eq_ended {t : Tree α} {outcome : Except (SearchError α) Disposition}
    {now : Duration} {status : Status} (h : t.verdict outcome now = .ended status) :
    (outcome = .ok .interrupted ∧ status = .timeLimit) ∨
      outcome ≠ .ok .interrupted ∧
        ((t.frontier.openNodes = [] ∧ status = t.exhaustedStatus) ∨
          t.frontier.openNodes ≠ [] ∧ status.isLimit = true) := by
  unfold verdict at h
  split at h
  next => cases h
  next =>
    obtain rfl := Verdict.ended.inj h
    exact Or.inl ⟨rfl, rfl⟩
  next disposition hresolved =>
    right
    refine ⟨by simpa using hresolved, ?_⟩
    unfold checkTermination at h
    by_cases hempty : t.frontier.isEmpty = true
    · simp only [hempty, if_true, Verdict.ended.injEq] at h
      exact Or.inl ⟨Frontier.isEmpty_iff.mp hempty, h.symm⟩
    · right
      refine ⟨fun hnone => hempty (Frontier.isEmpty_iff.mpr hnone), ?_⟩
      rw [if_neg hempty] at h
      by_cases htime : t.timeExceeded now = true
      · simp only [htime, if_true, Verdict.ended.injEq] at h
        rw [← h]
        rfl
      · rw [if_neg htime] at h
        by_cases hlimit : t.settings.maxNodes ≤ t.stats.explored
        · simp only [hlimit, if_true, Verdict.ended.injEq] at h
          rw [← h]
          rfl
        · simp [hlimit] at h

/-- At the head of the loop a node is open. -/
theorem openNodes_of_running {k : Nat}
    (h : (after problem oracle clock t s k).verdict = .running) :
    (after problem oracle clock t s k).tree.frontier.openNodes ≠ [] := by
  induction k with
  | zero =>
      rw [after, openNodes_restart]
      simp
  | succ k ih =>
      by_cases hk : (after problem oracle clock t s k).verdict = .running
      · obtain ⟨node, rest, outcome, htakes⟩ := advance_takes problem oracle (clock (2 * k))
          (clock (2 * k + 1)) _ (after problem oracle clock t s k).oracle (ih hk)
        rw [after_succ_of_running hk] at h ⊢
        rw [htakes.verdict_eq] at h
        exact (checkTermination_eq_none (verdict_eq_running h)).1
      · rw [after_succ_of_not_running hk] at h
        exact absurd h hk

/-- At the head of the loop a turn takes a node. -/
theorem after_takes {k : Nat} (h : (after problem oracle clock t s k).verdict = .running) :
    ∃ node rest outcome, Takes problem oracle (clock (2 * k)) (clock (2 * k + 1))
      (after problem oracle clock t s k).tree (after problem oracle clock t s k).oracle
      node rest outcome (after problem oracle clock t s (k + 1)) := by
  rw [after_succ_of_running h]
  exact advance_takes problem oracle _ _ _ _ (openNodes_of_running h)

theorem running_of_running_succ {k : Nat}
    (h : (after problem oracle clock t s (k + 1)).verdict = .running) :
    (after problem oracle clock t s k).verdict = .running := by
  by_contra hk
  rw [after_succ_of_not_running hk] at h
  exact hk h

/-- What holds at the start and is kept by every turn holds at every head of the loop
and after the turn from there. -/
theorem after_induction (Inv : Nat → Turn σ α → Prop)
    (hstart : Inv 0 ⟨.running, t.restart problem.rootDomain (clock 0), s⟩)
    (hturn : ∀ k node rest outcome turn,
      (after problem oracle clock t s k).verdict = .running →
      Inv k (after problem oracle clock t s k) →
      Takes problem oracle (clock (2 * k)) (clock (2 * k + 1))
        (after problem oracle clock t s k).tree (after problem oracle clock t s k).oracle
        node rest outcome turn → Inv (k + 1) turn)
    {k : Nat} (hk : (after problem oracle clock t s k).verdict = .running) :
    Inv k (after problem oracle clock t s k) ∧
      Inv (k + 1) (after problem oracle clock t s (k + 1)) := by
  induction k with
  | zero =>
      obtain ⟨node, rest, outcome, htakes⟩ := after_takes hk
      exact ⟨hstart, hturn 0 node rest outcome _ hk hstart htakes⟩
  | succ k ih =>
      have hinv := (ih (running_of_running_succ hk)).2
      obtain ⟨node, rest, outcome, htakes⟩ := after_takes hk
      exact ⟨hinv, hturn (k + 1) node rest outcome _ hk hinv htakes⟩

/-- What holds at the start and is kept by every turn holds throughout. -/
theorem after_invariant (Inv : Turn σ α → Prop)
    (hstart : Inv ⟨.running, t.restart problem.rootDomain (clock 0), s⟩)
    (hturn : ∀ k node rest outcome turn,
      (after problem oracle clock t s k).verdict = .running →
      Inv (after problem oracle clock t s k) →
      Takes problem oracle (clock (2 * k)) (clock (2 * k + 1))
        (after problem oracle clock t s k).tree (after problem oracle clock t s k).oracle
        node rest outcome turn → Inv turn)
    (k : Nat) : Inv (after problem oracle clock t s k) := by
  induction k with
  | zero => exact hstart
  | succ k ih =>
      by_cases hk : (after problem oracle clock t s k).verdict = .running
      · exact (after_induction (fun _ => Inv) hstart hturn hk).2
      · rw [after_succ_of_not_running hk]
        exact ih

/-- At the head of the loop every turn so far has explored a node. -/
theorem settings_and_explored_after {k : Nat}
    (hk : (after problem oracle clock t s k).verdict = .running) :
    (after problem oracle clock t s k).tree.settings = t.settings ∧
      (after problem oracle clock t s k).tree.stats.explored = k := by
  refine (after_induction
    (fun k turn => turn.tree.settings = t.settings ∧ turn.tree.stats.explored = k)
    ⟨rfl, rfl⟩ ?_ hk).1
  rintro k node rest outcome turn - ⟨hsettings, hexplored⟩ htakes
  obtain ⟨hsettings', hexplored'⟩ := htakes.settings_and_explored
  exact ⟨hsettings'.trans hsettings, by rw [hexplored', hexplored]⟩

/-- After the first turn the search goes on only below the node limit. -/
theorem lt_maxNodes_of_running {k : Nat}
    (hk : (after problem oracle clock t s (k + 1)).verdict = .running) :
    k + 1 < t.settings.maxNodes := by
  obtain ⟨node, rest, outcome, htakes⟩ := after_takes (running_of_running_succ hk)
  obtain ⟨hsettings, hexplored⟩ := settings_and_explored_after hk
  have hverdict := htakes.verdict_eq
  rw [hk] at hverdict
  have hlimit := (checkTermination_eq_none (verdict_eq_running hverdict.symm)).2
  rwa [hsettings, hexplored] at hlimit

/-! ## Whole runs -/

/-- From a head of the loop the exploration ends with the first turn after which
the search is not running; the allowance is not what ends it. -/
theorem explore_after {allowance k : Nat}
    (hk : (after problem oracle clock t s k).verdict = .running)
    (hallowance : max 1 t.settings.maxNodes ≤ allowance + k) :
    ∃ m, (after problem oracle clock t s m).verdict = .running ∧
      ((∃ status, (after problem oracle clock t s (m + 1)).verdict = .ended status ∧
        explore problem oracle clock allowance k (after problem oracle clock t s k).tree
          (after problem oracle clock t s k).oracle =
        ⟨.ok status, (after problem oracle clock t s (m + 1)).tree,
          (after problem oracle clock t s (m + 1)).oracle⟩) ∨
      ∃ e, (after problem oracle clock t s (m + 1)).verdict = .failed e ∧
        explore problem oracle clock allowance k (after problem oracle clock t s k).tree
          (after problem oracle clock t s k).oracle =
        ⟨.error e, (after problem oracle clock t s (m + 1)).tree,
          (after problem oracle clock t s (m + 1)).oracle⟩) := by
  induction allowance generalizing k with
  | zero =>
      -- `k` turns were taken, as many as the node limit allows
      cases k with
      | zero => omega
      | succ k =>
          have hlimit := lt_maxNodes_of_running hk
          omega
  | succ allowance ih =>
      rw [explore, ← after_succ_of_running hk]
      cases hnext : (after problem oracle clock t s (k + 1)).verdict with
      | running => exact ih hnext (by omega)
      | ended status => exact ⟨k, hk, Or.inl ⟨status, hnext, rfl⟩⟩
      | failed e => exact ⟨k, hk, Or.inr ⟨e, hnext, rfl⟩⟩

/-- The result repeats what the search stands at when it ends. -/
theorem conclude_eq (t : Tree α) (status : Status) (now : Duration) :
    (t.conclude status now).1.status = status ∧
      (t.conclude status now).1.bestObjective =
        (if t.incumbent.isPresent then some t.incumbent.objective else none) ∧
      (status.isLimit = true → (t.conclude status now).1.bestBound = t.bestBound) ∧
      (t.conclude status now).1.nodesExplored = t.stats.explored ∧
      (t.conclude status now).1.nodesBranched = t.stats.branched := by
  unfold conclude stop
  cases t.stats.finish <;> cases status <;>
    exact ⟨rfl, rfl, by simp [Status.isLimit, finalize, bestBound], rfl, rfl⟩

/-- A run of an accepted problem ends with the turn after some head of the loop, and
returns what that turn leaves. -/
theorem run_eq_after (oracle : Oracle σ α) (clock : Clock) (t : Tree α) (s : σ)
    (hvalid : problem.fault? = none) :
    ∃ m final, (after problem oracle clock t s m).verdict = .running ∧
      after problem oracle clock t s (m + 1) = final ∧
      ((∃ status now, final.verdict = .ended status ∧
        now = clock (2 * final.tree.stats.explored) ∧
        t.run problem oracle clock s = (.ok (final.tree.conclude status now).1,
          (final.tree.conclude status now).2, final.oracle)) ∨
      ∃ e, final.verdict = .failed e ∧
        t.run problem oracle clock s = (.error e, final.tree, final.oracle)) := by
  have hstart : (after problem oracle clock t s 0).verdict = .running := rfl
  have hallowance : max 1 t.settings.maxNodes ≤
      (t.restart problem.rootDomain (clock 0)).allowance + 0 := le_rfl
  obtain ⟨m, hm, ⟨status, hend, hexplore⟩ | ⟨e, hend, hexplore⟩⟩ :=
    explore_after hstart hallowance
  · rw [after] at hexplore
    refine ⟨m, _, hm, rfl, Or.inl ⟨status, _, hend, rfl, ?_⟩⟩
    simp only [run, Problem.validate, hvalid, hexplore]
  · rw [after] at hexplore
    refine ⟨m, _, hm, rfl, Or.inr ⟨e, hend, ?_⟩⟩
    simp only [run, Problem.validate, hvalid, hexplore]

/-- A run of an accepted problem ends with the turn after some head of the loop. -/
theorem run_cases (oracle : Oracle σ α) (clock : Clock) (t : Tree α) (s : σ)
    (hvalid : problem.fault? = none) :
    ∃ m final, (after problem oracle clock t s m).verdict = .running ∧
      after problem oracle clock t s (m + 1) = final ∧
      ((∃ status, final.verdict = .ended status ∧
        (t.run problem oracle clock s).1 = .ok (final.tree.conclude status
          (clock (2 * final.tree.stats.explored))).1) ∨
      ∃ e, final.verdict = .failed e ∧ (t.run problem oracle clock s).1 = .error e) := by
  obtain ⟨m, final, hm, hfinal, ⟨status, now, hend, rfl, hrun⟩ | ⟨e, hend, hrun⟩⟩ :=
    run_eq_after oracle clock t s hvalid
  · exact ⟨m, final, hm, hfinal, Or.inl ⟨status, hend, congrArg Prod.fst hrun⟩⟩
  · exact ⟨m, final, hm, hfinal, Or.inr ⟨e, hend, congrArg Prod.fst hrun⟩⟩

/-- A run with a result accepts the problem and ends with the turn after some head of
the loop. -/
theorem run_eq_ok {result : Result α} {tree : Tree α} {s' : σ}
    (h : t.run problem oracle clock s = (.ok result, tree, s')) :
    problem.fault? = none ∧ ∃ m status now,
      (after problem oracle clock t s m).verdict = .running ∧
      (after problem oracle clock t s (m + 1)).verdict = .ended status ∧
      result = ((after problem oracle clock t s (m + 1)).tree.conclude status now).1 := by
  cases hfault : problem.fault? with
  | some fault =>
      simp only [run, Problem.validate, hfault] at h
      cases (Prod.mk.inj h).1
  | none =>
      refine ⟨rfl, ?_⟩
      obtain ⟨m, final, hm, rfl, ⟨status, hend, hrun⟩ | ⟨e, -, hrun⟩⟩ :=
        run_cases oracle clock t s hfault
      · rw [h] at hrun
        exact ⟨m, status, _, hm, hend, Except.ok.inj hrun⟩
      · rw [h] at hrun
        cases hrun

omit [Scalar α] in
/-- What is found true of the result of a run has a result. -/
theorem exists_result_of_any {run : Except (SearchError α) (Result α) × Tree α × σ}
    {test : Result α → Bool} (h : run.1.toOption.any test = true) :
    ∃ result tree s', run = (.ok result, tree, s') ∧ test result = true := by
  obtain ⟨outcome, tree, s'⟩ := run
  cases outcome with
  | error e => cases h
  | ok result => exact ⟨result, tree, s', rfl, h⟩

/-! ## Answers of the oracle -/

/-- In the run that begins with `t` the oracle is asked about a box and gives an
answer. -/
def Answered (problem : Problem α) (oracle : Oracle σ α) (clock : Clock) (t : Tree α) (s : σ)
    (d : Domain α) (answer : RelaxationOutcome α) : Prop :=
  ∃ k node rest s', (after problem oracle clock t s k).verdict = .running ∧
    (after problem oracle clock t s k).tree.nextNode? = some (node, rest) ∧
    rest.Asks node ∧ node.domain = d ∧
    oracle.solve (after problem oracle clock t s k).oracle d
      (rest.remainingTime (clock (2 * k))) = (.ok answer, s')

theorem Takes.answered {k : Nat} {node : Node α} {rest : Tree α}
    {outcome : Except (SearchError α) Disposition} {turn : Turn σ α}
    {answer : RelaxationOutcome α} {s' : σ}
    (hk : (after problem oracle clock t s k).verdict = .running)
    (htakes : Takes problem oracle (clock (2 * k)) (clock (2 * k + 1))
      (after problem oracle clock t s k).tree (after problem oracle clock t s k).oracle
      node rest outcome turn)
    (hasks : rest.Asks node)
    (hanswer : oracle.solve (after problem oracle clock t s k).oracle node.domain
      (rest.remainingTime (clock (2 * k))) = (.ok answer, s')) :
    Answered problem oracle clock t s node.domain answer :=
  ⟨k, node, rest, s', hk, htakes.next, hasks, rfl, hanswer⟩

/-- What holds of the root box and passes from a box to its halves holds of every open
box. -/
theorem openNodes_invariant (Inv : Domain α → Prop) (hroot : Inv problem.rootDomain)
    (hsplit : ∀ d r f old down up, Inv d → Answered problem oracle clock t s d (.optimal r) →
      problem.Splits t.settings.feasibilityTol d r f old down up → Inv down ∧ Inv up)
    (k : Nat) :
    ∀ n ∈ (after problem oracle clock t s k).tree.frontier.openNodes, Inv n.domain := by
  refine after_invariant (fun turn => ∀ n ∈ turn.tree.frontier.openNodes, Inv n.domain)
    ?_ ?_ k
  · intro n hn
    rw [openNodes_restart, List.mem_singleton] at hn
    exact hn ▸ hroot
  · intro k node rest outcome turn hk hinv htakes n hn
    have hrest : ∀ m ∈ node :: rest.frontier.openNodes, Inv m.domain := fun m hm =>
      hinv m (htakes.openNodes_perm.mem_iff.mpr hm)
    cases htakes.effect with
    | kept _ _ _ hf => exact hrest n (List.mem_cons_of_mem node (hf ▸ hn))
    | interrupted hf => exact hrest n (List.mem_cons_of_mem node (hf ▸ hn))
    | improved _ _ hf =>
        rw [hf, (Frontier.prune_perm _ _).mem_iff] at hn
        exact hrest n (List.mem_cons_of_mem node (List.mem_filter.mp hn).1)
    | split hsolves hsplits _ _ hf =>
        rw [htakes.rest_eq.1, (settings_and_explored_after hk).1] at hsplits
        have hanswered := htakes.answered hk hsolves.asks hsolves.answer
        obtain ⟨hdown, hup⟩ := hsplit _ _ _ _ _ _ (hrest node List.mem_cons_self) hanswered hsplits
        rw [hf, (Frontier.push_push_perm _ _ _).mem_iff, List.mem_cons, List.mem_cons] at hn
        rcases hn with rfl | rfl | hn
        · exact hdown
        · exact hup
        · exact hrest n (List.mem_cons_of_mem node hn)

end Tree

/-! ## A sample search -/

/-- A problem to try searches on: an integer from `0` to `3`. -/
def Problem.sample : Problem α :=
  .ofVariables [{ kind := .integer, bounds := ⟨Scalar.ofInt 0, Scalar.ofInt 3⟩ }]

/-- Depth-first search of at most `maxNodes` nodes. -/
def Settings.sample (maxNodes : Nat) : Settings α :=
  { standard with maxNodes, nodeSelection := .depthFirst }

/-- An oracle for boxes with one interval: the middle of the interval, with its lower
end for a value. -/
def Oracle.halving : Oracle Unit α :=
  .ofFunction fun d => .ok <|
    match d.intervals with
    | [i] =>
        if i.Holds (Corner.middle.point i) then .optimal ⟨i.lower, [Corner.middle.point i]⟩
        else .interrupted
    | _ => .interrupted

/-- The halving oracle gives a value inside the only interval, or gives up. -/
theorem Tree.Answered.halving {problem : Problem α} {clock : Clock} {t : Tree α} {d : Domain α}
    {answer : RelaxationOutcome α} (h : Answered problem Oracle.halving clock t () d answer) :
    answer = .interrupted ∨ ∃ i middle, d.intervals = [i] ∧ i.Holds middle ∧
      answer = .optimal ⟨i.lower, [middle]⟩ := by
  obtain ⟨k, node, rest, s', -, -, -, -, hanswer⟩ := h
  have houtcome := Except.ok.inj (Prod.mk.inj hanswer).1
  split at houtcome
  next i hd =>
    split at houtcome
    next hholds => exact Or.inr ⟨i, _, hd, hholds, houtcome.symm⟩
    next => exact Or.inl houtcome.symm
  next => exact Or.inl houtcome.symm

end BranchBound
