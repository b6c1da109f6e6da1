import BranchBound.Proofs.Completion

/-!
# Limits on the number of nodes

A node limit decides when a search stops and nothing else.  `Tree.core` is a search without
its node limit, its clock and its journal.  What a turn does to the core depends on the core
alone, if the answers of the oracle depend on the boxes alone.  So two searches with
different limits go in step as long as the one with the lower limit goes on, and then the
other one may go on by itself.

The node limit is tested after the node is settled, and after the test for open nodes.  Hence
the first node is always taken, and a search that has closed its last node has a proven status
even if the limit is reached with that node.
-/

namespace BranchBound

variable {α : Type} [Scalar α] {σ : Type}

/-- An oracle whose answer depends on the box alone, and which never gives up. -/
structure Oracle.IsSteady (oracle : Oracle σ α) : Prop where
  answer_eq : ∀ s s' d budget budget',
    (oracle.solve s d budget).1 = (oracle.solve s' d budget').1
  resolved : ∀ s d budget, (oracle.solve s d budget).1 ≠ .ok .interrupted

theorem Corner.isSteady_oracle (corner : Corner) (costs : List α) :
    (corner.oracle costs).IsSteady :=
  ⟨fun _ _ _ _ _ => rfl, fun _ _ _ hanswer => by cases hanswer⟩

namespace Tree

/-- A search with another node limit. -/
def limited (t : Tree α) (maxNodes : Nat) : Tree α :=
  { t with settings := { t.settings with maxNodes } }

/-- A search without its node limit, its clock and its journal. -/
def core (t : Tree α) : Tree α :=
  { t with
    settings := { t.settings with maxNodes := 0 }
    stats := { t.stats with start := none, finish := none }
    journal := [] }

/-! ## Settling a node -/

omit [Scalar α] in
@[simp] theorem core_incumbent (t : Tree α) : t.core.incumbent = t.incumbent :=
  rfl

omit [Scalar α] in
@[simp] theorem core_feasibilityTol (t : Tree α) :
    t.core.settings.feasibilityTol = t.settings.feasibilityTol :=
  rfl

omit [Scalar α] in
theorem core_noteBound (t : Tree α) (node : Node α) (objective : α) :
    (t.noteBound node objective).core = t.core.noteBound node objective := by
  unfold noteBound Statistics.recordRootBound
  cases node.isRoot
  · rfl
  · cases hroot : t.stats.rootBound <;> simp [core, hroot]

theorem core_updateIncumbent (t : Tree α) (values : List α) (objective : α) :
    (t.updateIncumbent values objective).2.core =
      (t.core.updateIncumbent values objective).2.core := by
  by_cases himproves : t.incumbent.improves objective = true
  · obtain ⟨journal, hupdate⟩ := updateIncumbent_of_improves himproves values
    obtain ⟨journal', hupdate'⟩ := updateIncumbent_of_improves (t := t.core) himproves values
    rw [hupdate, hupdate']
    rfl
  · rw [Bool.not_eq_true] at himproves
    rw [updateIncumbent_of_not_improves himproves,
      updateIncumbent_of_not_improves (t := t.core) himproves]
    rfl

theorem core_splitNode (t : Tree α) (problem : Problem α) (node : Node α) (r : Relaxation α) :
    (t.splitNode problem node r).1 = (t.core.splitNode problem node r).1 ∧
      (t.splitNode problem node r).2.core = (t.core.splitNode problem node r).2.core := by
  simp only [splitNode, branch, tell, core]
  rcases t.settings.branchingRule.select problem node.domain r.values t.settings.feasibilityTol
    with fault | _ | decision
  · exact ⟨rfl, rfl⟩
  · exact ⟨rfl, rfl⟩
  · rcases hdown : node.child t.nextId decision.down with fault | down
    · simp [bind, Except.bind, hdown]
    · rcases hup : node.child (t.nextId + 1) decision.up with fault | up
      · simp [bind, Except.bind, hdown, hup]
      · simp [bind, Except.bind, pure, Except.pure, enqueue, hdown, hup]

theorem core_settle (t : Tree α) (problem : Problem α) (node : Node α) (r : Relaxation α) :
    (t.settle problem node r).1 = (t.core.settle problem node r).1 ∧
      (t.settle problem node r).2.core = (t.core.settle problem node r).2.core := by
  simp only [settle, ← core_noteBound]
  generalize t.noteBound node r.objective = noted
  by_cases hprune : { node with relaxation := some r }.canPrune noted.incumbent = true
  · simp only [core_incumbent, hprune, if_true, true_and]
    rfl
  · by_cases hintegral : problem.isIntegral r.values noted.settings.feasibilityTol = true
    · simp only [core_incumbent, core_feasibilityTol, hprune, hintegral, if_true,
        updateIncumbent_fst]
      exact ⟨rfl, core_updateIncumbent _ _ _⟩
    · simp only [core_incumbent, core_feasibilityTol, hprune, hintegral]
      exact noted.core_splitNode problem _ r

/-- What becomes of a node, and of the core, depends on the core alone. -/
theorem core_processNode {oracle : Oracle σ α} (hsteady : oracle.IsSteady)
    (problem : Problem α) (now now' : Duration) (t : Tree α) (s s' : σ) (node : Node α) :
    (processNode problem oracle now t s node).outcome =
        (processNode problem oracle now' t.core s' node).outcome ∧
      (processNode problem oracle now t s node).tree.core =
        (processNode problem oracle now' t.core s' node).tree.core := by
  have hanswer := hsteady.answer_eq s s' node.domain (t.remainingTime now)
    (t.core.remainingTime now')
  simp only [processNode, core_incumbent, core_feasibilityTol, hanswer]
  by_cases hprune : node.canPrune t.incumbent = true
  · simp only [hprune, if_true, true_and]
    rfl
  · by_cases hmalformed : node.domain.isMalformed = true
    · simp only [hprune, hmalformed, if_true]
      exact ⟨rfl, rfl⟩
    · simp only [hprune, hmalformed]
      rcases (oracle.solve s' node.domain (t.core.remainingTime now')).1 with e | r | _ | _
      · exact ⟨rfl, rfl⟩
      · simp only
        cases r.fault? node.domain t.settings.feasibilityTol with
        | some fault => exact ⟨rfl, rfl⟩
        | none => exact t.core_settle problem node r
      · exact ⟨rfl, rfl⟩
      · exact ⟨rfl, rfl⟩

theorem core_nextNode? {t rest : Tree α} {node : Node α}
    (h : t.nextNode? = some (node, rest)) : t.core.nextNode? = some (node, rest.core) := by
  obtain ⟨hpop, hrest⟩ := nextNode?_eq_some h
  have hpop' : t.core.frontier.pop? = some (node, rest.frontier) := hpop
  rw [nextNode?, hpop', hrest]
  rfl

/-! ## Turns in step -/

/-- Turns from one core take one node, with one outcome, to one core. -/
theorem Takes.core_eq {problem : Problem α} {oracle : Oracle σ α} (hsteady : oracle.IsSteady)
    {before before' after after' : Duration} {t t' rest rest' : Tree α} {s s' : σ}
    {node node' : Node α} {outcome outcome' : Except (SearchError α) Disposition}
    {turn turn' : Turn σ α}
    (h : Takes problem oracle before after t s node rest outcome turn)
    (h' : Takes problem oracle before' after' t' s' node' rest' outcome' turn')
    (hcore : t.core = t'.core) :
    node = node' ∧ outcome = outcome' ∧ turn.tree.core = turn'.tree.core := by
  have hnext := core_nextNode? h.next
  rw [hcore, core_nextNode? h'.next] at hnext
  obtain ⟨rfl, hrest⟩ := Prod.mk.inj (Option.some.inj hnext)
  obtain ⟨houtcome, htree⟩ := core_processNode hsteady problem before before rest s s node'
  obtain ⟨houtcome', htree'⟩ := core_processNode hsteady problem before' before rest' s' s node'
  obtain ⟨journal, hturn⟩ := h.tree_eq
  obtain ⟨journal', hturn'⟩ := h'.tree_eq
  refine ⟨rfl, ?_, ?_⟩
  · rw [← h.outcome_eq, ← h'.outcome_eq, houtcome, houtcome', hrest]
  · rw [hturn, hturn']
    exact htree.trans (hrest ▸ htree'.symm)

variable {problem : Problem α} {oracle : Oracle σ α} {clock clock' : Clock} {t rest : Tree α}
  {s s' : σ} {k m maxNodes maxNodes' : Nat} {node : Node α}
  {outcome : Except (SearchError α) Disposition}

/-- A turn that does not fail settles its node. -/
theorem TakesAt.isFinal (h : TakesAt problem oracle clock t s k node rest outcome)
    (hsteady : oracle.IsSteady)
    (hok : ∀ e, (after problem oracle clock t s (k + 1)).verdict ≠ .failed e) :
    Disposition.IsFinal outcome := by
  rcases outcome with e | disposition
  · exact absurd h.takes.verdict_eq (hok e)
  · refine ⟨disposition, rfl, ?_⟩
    rintro rfl
    obtain ⟨tree, journal, hsettles, -⟩ := h.takes.settled
    cases hsettles with
    | interrupted _ hanswer => exact hsteady.resolved _ _ _ (congrArg Prod.fst hanswer)

/-- Without a time limit a search goes on after a settled node if a node is open and the
node limit is not reached. -/
theorem TakesAt.verdict_eq (h : TakesAt problem oracle clock t s k node rest outcome)
    (htime : t.settings.timeLimit = none) (hfinal : Disposition.IsFinal outcome) :
    (after problem oracle clock t s (k + 1)).verdict =
      if (after problem oracle clock t s (k + 1)).tree.frontier.isEmpty then
        .ended (after problem oracle clock t s (k + 1)).tree.exhaustedStatus
      else if t.settings.maxNodes ≤ k + 1 then .ended .nodeLimit
      else .running := by
  rw [h.takes.verdict_eq, verdict_of_deadline_eq_none hfinal (deadline_eq_none htime (k + 1)),
    h.takes.settings_and_explored.1, (settings_and_explored_after h.running).1,
    explored_after_succ h.running]

/-- Two searches have one core after a number of turns, and have taken the same nodes. -/
structure InStep (problem : Problem α) (oracle : Oracle σ α) (clock clock' : Clock)
    (t t' : Tree α) (s s' : σ) (k : Nat) : Prop where
  core_eq : (after problem oracle clock t s k).tree.core =
    (after problem oracle clock' t' s' k).tree.core
  takenNodes_eq : takenNodes problem oracle clock t s k =
    takenNodes problem oracle clock' t' s' k

theorem InStep.fields {t' : Tree α} (h : InStep problem oracle clock clock' t t' s s' k) :
    (after problem oracle clock t s k).tree.frontier =
        (after problem oracle clock' t' s' k).tree.frontier ∧
      (after problem oracle clock t s k).tree.incumbent =
        (after problem oracle clock' t' s' k).tree.incumbent := by
  have hfrontier := congrArg Tree.frontier h.core_eq
  have hincumbent := congrArg Tree.incumbent h.core_eq
  exact ⟨hfrontier, hincumbent⟩

/-- Searches in step take one node with one outcome, and are in step afterwards. -/
theorem InStep.succ {t' rest' : Tree α} {node' : Node α}
    {outcome' : Except (SearchError α) Disposition}
    (hstep : InStep problem oracle clock clock' t t' s s' k) (hsteady : oracle.IsSteady)
    (h : TakesAt problem oracle clock t s k node rest outcome)
    (h' : TakesAt problem oracle clock' t' s' k node' rest' outcome') :
    outcome = outcome' ∧ InStep problem oracle clock clock' t t' s s' (k + 1) := by
  obtain ⟨rfl, houtcome, hcore⟩ := h.takes.core_eq hsteady h'.takes hstep.core_eq
  refine ⟨houtcome, hcore, ?_⟩
  rw [takenNodes_succ h, takenNodes_succ h', hstep.takenNodes_eq]

theorem inStep_zero (htime : t.settings.timeLimit = none) :
    InStep problem oracle clock clock' (t.limited maxNodes) (t.limited maxNodes') s s' 0 := by
  refine ⟨?_, rfl⟩
  simp [after, restart, create, core, limited, deadlineFrom, htime]

variable (clock' s') in
/-- As long as the search with the lower limit goes on, so does the other one, in step. -/
theorem inStep_of_running (hsteady : oracle.IsSteady) (htime : t.settings.timeLimit = none)
    (hle : maxNodes ≤ maxNodes')
    (hk : (after problem oracle clock (t.limited maxNodes) s k).verdict = .running) :
    (after problem oracle clock' (t.limited maxNodes') s' k).verdict = .running ∧
      InStep problem oracle clock clock' (t.limited maxNodes) (t.limited maxNodes') s s' k := by
  induction k with
  | zero => exact ⟨rfl, inStep_zero htime⟩
  | succ k ih =>
      have hbefore := running_of_running_succ hk
      obtain ⟨hbefore', hstep⟩ := ih hbefore
      obtain ⟨node, rest, outcome, h⟩ := exists_takesAt hbefore
      obtain ⟨node', rest', outcome', h'⟩ := exists_takesAt hbefore'
      obtain ⟨rfl, hstep'⟩ := hstep.succ hsteady h h'
      have hfinal := h.isFinal hsteady (by simp [hk])
      refine ⟨?_, hstep'⟩
      -- the two verdicts differ in nothing but the limit
      rw [h.verdict_eq htime hfinal] at hk
      rw [h'.verdict_eq htime hfinal, ← hstep'.fields.1]
      split at hk
      · cases hk
      next hopen =>
        split at hk
        · cases hk
        next hlimit =>
          rw [if_neg hopen, if_neg]
          exact fun hlimit' => hlimit (hle.trans hlimit')

/-! ## Later incumbents -/

section

variable [LawfulScalar α]

/-- A turn does not lose the incumbent, and does not make it worse. -/
theorem Takes.incumbent_le {before after : Duration} {turn : Turn σ α}
    (h : Takes problem oracle before after t s node rest outcome turn) (ht : t.IsTidy) :
    (t.incumbent.isPresent = true → turn.tree.incumbent.isPresent = true) ∧
      turn.tree.incumbent.objective ≤ t.incumbent.objective := by
  have hvalid := ht.valid
  rw [← h.rest_eq.2.1] at hvalid ⊢
  have hsame (hi : turn.tree.incumbent = rest.incumbent) :
      (rest.incumbent.isPresent = true → turn.tree.incumbent.isPresent = true) ∧
        turn.tree.incumbent.objective ≤ rest.incumbent.objective := by
    rw [hi]
    exact ⟨id, Scalar.le_refl (Scalar.isNaN_right_of_le hvalid.threshold_le)⟩
  cases h.effect with
  | kept _ _ _ _ hi => exact hsame hi
  | interrupted _ hi => exact hsame hi
  | improved _ himproves _ hi =>
      rw [hi, Incumbent.consider_of_improves himproves]
      rw [Incumbent.improves_eq_true_iff] at himproves
      exact ⟨fun _ => rfl, Scalar.le_of_lt (Scalar.lt_of_lt_of_le himproves hvalid.threshold_le)⟩
  | split _ _ _ _ _ hi => exact hsame hi

variable (problem oracle clock s) in
theorem incumbent_le_of_le (htol : Scalar.ofInt 0 ≤ t.settings.improvementTol) (hle : k ≤ m) :
    ((after problem oracle clock t s k).tree.incumbent.isPresent = true →
      (after problem oracle clock t s m).tree.incumbent.isPresent = true) ∧
    (after problem oracle clock t s m).tree.incumbent.objective ≤
      (after problem oracle clock t s k).tree.incumbent.objective := by
  have htidy : (after problem oracle clock t s k).tree.IsTidy := isTidy_after htol k
  induction m, hle using Nat.le_induction with
  | base => exact ⟨id, Scalar.le_refl (Scalar.isNaN_right_of_le htidy.valid.threshold_le)⟩
  | succ m _ ih =>
      by_cases hm : (after problem oracle clock t s m).verdict = .running
      · obtain ⟨node, rest, outcome, h⟩ := exists_takesAt hm
        obtain ⟨hpresent, hbetter⟩ := h.takes.incumbent_le (isTidy_after htol m)
        exact ⟨hpresent ∘ ih.1, Scalar.le_trans hbetter ih.2⟩
      · rwa [after_succ_of_not_running hm]

end

/-- Apart from the time taken, a result is read off the core. -/
theorem core_conclude (t : Tree α) (status : Status) (now now' elapsed : Duration) :
    { (t.conclude status now).1 with elapsed } =
      { (t.core.conclude status now').1 with elapsed } := by
  unfold conclude stop
  cases t.stats.finish <;> cases status <;> rfl

/-! ## Last turns -/

namespace EndsAt

variable {result result' : Result α} {tree tree' t' : Tree α}

/-- A run without a time limit ends because no node is open, or at the node limit. -/
theorem status_eq (h : EndsAt problem oracle clock t s m result tree)
    (hsteady : oracle.IsSteady) (htime : t.settings.timeLimit = none) :
    (tree.frontier.openNodes = [] ∧
      result.status = (after problem oracle clock t s (m + 1)).tree.exhaustedStatus) ∨
    (tree.frontier.openNodes ≠ [] ∧ result.status = .nodeLimit ∧
      t.settings.maxNodes ≤ m + 1) := by
  obtain ⟨node, rest, outcome, htakes⟩ := exists_takesAt h.running
  have hverdict := htakes.verdict_eq htime (htakes.isFinal hsteady (by simp [h.ended]))
  rw [h.ended, ← h.frontier_eq] at hverdict
  split at hverdict
  next hempty =>
    exact Or.inl ⟨Frontier.isEmpty_iff.mp hempty, Verdict.ended.inj hverdict⟩
  next hopen =>
    rw [Frontier.isEmpty_iff] at hopen
    split at hverdict
    next hlimit => exact Or.inr ⟨hopen, Verdict.ended.inj hverdict, hlimit⟩
    next => cases hverdict

theorem status_isProven_iff (h : EndsAt problem oracle clock t s m result tree)
    (hsteady : oracle.IsSteady) (htime : t.settings.timeLimit = none) :
    result.status.isProven = true ↔ tree.frontier.openNodes = [] := by
  rcases h.status_eq hsteady htime with ⟨hnone, hstatus⟩ | ⟨hopen, hstatus, -⟩
  · rw [hstatus, isProven_exhaustedStatus]
    exact ⟨fun _ => hnone, fun _ => rfl⟩
  · rw [hstatus]
    exact ⟨fun hproven => Bool.noConfusion hproven, fun hnone => absurd hnone hopen⟩

/-- The first node is taken whatever the limit. -/
theorem nodesExplored_le (h : EndsAt problem oracle clock t s m result tree) :
    result.nodesExplored ≤ max 1 t.settings.maxNodes := by
  rw [h.nodesExplored_eq]
  cases m with
  | zero => exact le_max_left 1 t.settings.maxNodes
  | succ m => exact le_max_of_le_right (lt_maxNodes_of_running h.running)

theorem nodesExplored_of_nodeLimit (h : EndsAt problem oracle clock t s m result tree)
    (hsteady : oracle.IsSteady) (htime : t.settings.timeLimit = none)
    (hstatus : result.status = .nodeLimit) :
    result.nodesExplored = max 1 t.settings.maxNodes ∧ tree.frontier.openNodes ≠ [] := by
  rcases h.status_eq hsteady htime with ⟨-, hexhausted⟩ | ⟨hopen, -, hlimit⟩
  · have hproven := isProven_exhaustedStatus (after problem oracle clock t s (m + 1)).tree
    rw [← hexhausted, hstatus] at hproven
    cases hproven
  · refine ⟨le_antisymm h.nodesExplored_le ?_, hopen⟩
    rw [h.nodesExplored_eq]
    exact max_le (Nat.le_add_left 1 m) hlimit

/-- Apart from the time taken, the result is read off the core. -/
theorem result_eq (h : EndsAt problem oracle clock t s m result tree)
    (h' : EndsAt problem oracle clock' t' s' m result' tree')
    (hstep : InStep problem oracle clock clock' t t' s s' (m + 1))
    (hstatus : result.status = result'.status) :
    { result with elapsed := result'.elapsed } = result' := by
  obtain ⟨now, hconclude⟩ := h.concluded
  obtain ⟨now', hconclude'⟩ := h'.concluded
  have hcore := core_conclude (after problem oracle clock t s (m + 1)).tree
    result.status now now' result'.elapsed
  have hcore' := core_conclude (after problem oracle clock' t' s' (m + 1)).tree
    result'.status now' now' result'.elapsed
  rw [hconclude, hstep.core_eq, hstatus] at hcore
  rw [hconclude'] at hcore'
  exact hcore.trans hcore'.symm

/-- The run with the higher limit ends in step with the other one, or later.  It does not end
later if no node is left open. -/
theorem inStep (h : EndsAt problem oracle clock (t.limited maxNodes) s m result tree)
    (h' : EndsAt problem oracle clock' (t.limited maxNodes') s' k result' tree')
    (hsteady : oracle.IsSteady) (htime : t.settings.timeLimit = none)
    (hle : maxNodes ≤ maxNodes') :
    m ≤ k ∧
      InStep problem oracle clock clock' (t.limited maxNodes) (t.limited maxNodes') s s' (m + 1) ∧
      (tree.frontier.openNodes = [] → m = k) := by
  obtain ⟨hstill, hstep⟩ := inStep_of_running clock' s' hsteady htime hle h.running
  obtain ⟨node, rest, outcome, htakes⟩ := exists_takesAt h.running
  obtain ⟨node', rest', outcome', htakes'⟩ := exists_takesAt hstill
  obtain ⟨-, hstep'⟩ := hstep.succ hsteady htakes htakes'
  have hended : (after problem oracle clock' (t.limited maxNodes') s' (k + 1)).verdict ≠
      .running := by simp [h'.ended]
  refine ⟨?_, hstep', ?_⟩
  · by_contra hlt
    exact hended (running_of_le hstill (Nat.lt_of_not_le hlt))
  · -- without an open node there is no head of the loop to go on from
    intro hnone
    refine eq_of_running_of_not_running hstill ?_ h'.running hended
    intro hrunning
    apply openNodes_of_running hrunning
    rw [← hstep'.fields.1, ← h.frontier_eq]
    exact hnone

end EndsAt

/-! ## Whole runs -/

/-- **Node limits.**  Take an oracle whose answers depend on the boxes alone and which never
gives up, no time limit and a nonnegative improvement tolerance.  Compare two runs with a
result whose limits on the nodes differ.  The run with the lower limit takes the first of the
nodes that the other one takes, at most as many as the limit allows, but at least one.  It
stops at the limit only if it has taken that many and a node is still open, and has a proven
status exactly if no node is open.  With a proven status it has the result of the other run,
apart from the time taken.  Its point is never better than that of the other run. -/
theorem run_limited_truncates [LawfulScalar α] (hsteady : oracle.IsSteady)
    (htime : t.settings.timeLimit = none)
    (htol : Scalar.ofInt 0 ≤ t.settings.improvementTol) (hle : maxNodes ≤ maxNodes')
    {result result' : Result α} {tree tree' : Tree α} {final final' : σ}
    (hrun : (t.limited maxNodes).run problem oracle clock s = (.ok result, tree, final))
    (hrun' : (t.limited maxNodes').run problem oracle clock' s' =
      (.ok result', tree', final')) :
    takenNodes problem oracle clock (t.limited maxNodes) s result.nodesExplored <+:
      takenNodes problem oracle clock' (t.limited maxNodes') s' result'.nodesExplored ∧
    result.nodesExplored ≤ max 1 maxNodes ∧
    (result.status = .nodeLimit →
      result.nodesExplored = max 1 maxNodes ∧ tree.frontier.openNodes ≠ []) ∧
    (result.status.isProven = true ↔ tree.frontier.openNodes = []) ∧
    (result.status.isProven = true → { result with elapsed := result'.elapsed } = result') ∧
    ∀ z, result.bestObjective = some z → ∃ z', result'.bestObjective = some z' ∧ z' ≤ z := by
  obtain ⟨m, h⟩ := exists_endsAt hrun
  obtain ⟨m', h'⟩ := exists_endsAt hrun'
  obtain ⟨hlater, hstep, htogether⟩ := h.inStep h' hsteady htime hle
  have hproven := h.status_isProven_iff hsteady htime
  refine ⟨?_, h.nodesExplored_le, h.nodesExplored_of_nodeLimit hsteady htime, hproven, ?_, ?_⟩
  · rw [h.nodesExplored_eq, h'.nodesExplored_eq, hstep.takenNodes_eq]
    exact takenNodes_prefix_of_le (Nat.succ_le_succ hlater)
  · intro hstatus
    have hnone := hproven.mp hstatus
    obtain rfl := htogether hnone
    have hnone' : tree'.frontier.openNodes = [] := by
      rw [h'.frontier_eq, ← hstep.fields.1, ← h.frontier_eq]
      exact hnone
    apply h.result_eq h' hstep
    rcases h.status_eq hsteady htime with ⟨-, hexhausted⟩ | ⟨hopen, -⟩
    · rcases h'.status_eq hsteady htime with ⟨-, hexhausted'⟩ | ⟨hopen, -⟩
      · rw [hexhausted, hexhausted', exhaustedStatus, exhaustedStatus, hstep.fields.2]
      · exact absurd hnone' hopen
    · exact absurd hnone hopen
  · intro z hz
    obtain ⟨hpresent, hbetter⟩ := incumbent_le_of_le problem oracle clock' s'
      (t := t.limited maxNodes') htol (Nat.succ_le_succ hlater)
    rw [h.bestObjective_eq, hstep.fields.2] at hz
    split at hz
    next hsome =>
      refine ⟨_, ?_, Option.some.inj hz ▸ hbetter⟩
      rw [h'.bestObjective_eq, if_pos (hpresent hsome)]
    next => cases hz

/-- A search that is settled with its third node has a proven status if the limit is three,
and the result it has without that limit.  If the limit is two it stops there, after the first
two of these nodes. -/
theorem run_sample_truncated :
    let start : Tree Float := create (Settings.sample 10)
    let oracle : Oracle Unit Float := Corner.middle.oracle [Scalar.ofInt 1]
    ∃ short full long : Result Float,
      ((start.limited 2).run Problem.sample oracle .frozen ()).1 = .ok short ∧
      ((start.limited 3).run Problem.sample oracle .frozen ()).1 = .ok full ∧
      ((start.limited 10).run Problem.sample oracle .frozen ()).1 = .ok long ∧
      short.status = .nodeLimit ∧ short.nodesExplored = 2 ∧
      takenNodes Problem.sample oracle .frozen (start.limited 2) () 2 <+:
        takenNodes Problem.sample oracle .frozen (start.limited 3) () 3 ∧
      full.status = .optimal ∧ full.nodesExplored = 3 ∧
      { full with elapsed := long.elapsed } = long := by
  intro start oracle
  have htol : (Scalar.ofInt 0 : Float) ≤ start.settings.improvementTol := by
    decide +kernel
  have hshort : ((start.limited 2).run Problem.sample oracle .frozen ()).1.toOption.any
      (fun result => result.status == .nodeLimit && result.nodesExplored == 2) = true := by
    decide +kernel
  have hfull : ((start.limited 3).run Problem.sample oracle .frozen ()).1.toOption.any
      (fun result => result.status == .optimal && result.nodesExplored == 3) = true := by
    decide +kernel
  have hlong : ((start.limited 10).run Problem.sample oracle .frozen ()).1.toOption.any
      (fun _ => true) = true := by
    decide +kernel
  obtain ⟨short, tree, s, hrun, htest⟩ := exists_result_of_any hshort
  obtain ⟨full, tree', s', hrun', htest'⟩ := exists_result_of_any hfull
  obtain ⟨long, tree'', s'', hrun'', -⟩ := exists_result_of_any hlong
  rw [Bool.and_eq_true, beq_iff_eq, beq_iff_eq] at htest htest'
  have hsteady := Corner.middle.isSteady_oracle [(Scalar.ofInt 1 : Float)]
  obtain ⟨hfirst, -⟩ := run_limited_truncates hsteady rfl htol (by decide) hrun hrun'
  obtain ⟨-, -, -, -, hequal, -⟩ := run_limited_truncates hsteady rfl htol (by decide) hrun' hrun''
  rw [htest.2, htest'.2] at hfirst
  refine ⟨short, full, long, congrArg Prod.fst hrun, congrArg Prod.fst hrun',
    congrArg Prod.fst hrun'', htest.1, htest.2, hfirst, htest'.1, htest'.2, hequal ?_⟩
  rw [htest'.1]
  rfl

end Tree
end BranchBound
