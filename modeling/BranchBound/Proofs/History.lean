import BranchBound.Proofs.Counts

/-!
# History of a search

A search keeps its open nodes and forgets the others.  What its turns brought is
recovered here from the turns themselves: `Tree.gather` collects something from every
turn, `Tree.takenNodes` the nodes in the order in which they were taken.  A run takes
one node in each turn, and nothing happens after the turn that ended it.  Its result is what
that turn leaves.
-/

namespace BranchBound
namespace Tree

variable {α : Type} [Scalar α] {σ : Type}

/-- Turn `k` of the search that begins with `t` takes a node, with an outcome. -/
structure TakesAt (problem : Problem α) (oracle : Oracle σ α) (clock : Clock) (t : Tree α)
    (s : σ) (k : Nat) (node : Node α) (rest : Tree α)
    (outcome : Except (SearchError α) Disposition) : Prop where
  running : (after problem oracle clock t s k).verdict = .running
  takes : Takes problem oracle (clock (2 * k)) (clock (2 * k + 1))
    (after problem oracle clock t s k).tree (after problem oracle clock t s k).oracle
    node rest outcome (after problem oracle clock t s (k + 1))

/-- What the first turns of a search bring, in order.  A turn is seen as the node taken,
the search without it, and the search after the turn. -/
def gather (bring : Node α → Tree α → Tree α → List (Node α)) (problem : Problem α)
    (oracle : Oracle σ α) (clock : Clock) (t : Tree α) (s : σ) : Nat → List (Node α)
  | 0 => []
  | k + 1 =>
      let turn := after problem oracle clock t s k
      match turn.verdict, turn.tree.nextNode? with
      | .running, some (node, rest) =>
          gather bring problem oracle clock t s k ++
            bring node rest (after problem oracle clock t s (k + 1)).tree
      | _, _ => gather bring problem oracle clock t s k

/-- The nodes taken in the first turns of a search, in order. -/
def takenNodes (problem : Problem α) (oracle : Oracle σ α) (clock : Clock) (t : Tree α)
    (s : σ) (k : Nat) : List (Node α) :=
  gather (fun node _ _ => [node]) problem oracle clock t s k

variable {problem : Problem α} {oracle : Oracle σ α} {clock : Clock} {t : Tree α} {s : σ}
  {bring : Node α → Tree α → Tree α → List (Node α)} {k m : Nat}

theorem exists_takesAt (hk : (after problem oracle clock t s k).verdict = .running) :
    ∃ node rest outcome, TakesAt problem oracle clock t s k node rest outcome := by
  obtain ⟨node, rest, outcome, htakes⟩ := after_takes hk
  exact ⟨node, rest, outcome, hk, htakes⟩

/-- The next node at a head of the loop is the one that is taken. -/
theorem takesAt_of_next {node : Node α} {rest : Tree α}
    (hk : (after problem oracle clock t s k).verdict = .running)
    (hnext : (after problem oracle clock t s k).tree.nextNode? = some (node, rest)) :
    TakesAt problem oracle clock t s k node rest (processNode problem oracle (clock (2 * k)) rest
      (after problem oracle clock t s k).oracle node).outcome := by
  obtain ⟨node', rest', outcome, htakes⟩ := after_takes hk
  obtain ⟨rfl, rfl⟩ := Prod.mk.inj (Option.some.inj (hnext.symm.trans htakes.next))
  rw [htakes.outcome_eq]
  exact ⟨hk, htakes⟩

/-- A turn has one outcome. -/
theorem TakesAt.outcome_unique {node node' : Node α} {rest rest' : Tree α}
    {outcome outcome' : Except (SearchError α) Disposition}
    (h : TakesAt problem oracle clock t s k node rest outcome)
    (h' : TakesAt problem oracle clock t s k node' rest' outcome') : outcome = outcome' := by
  obtain ⟨rfl, rfl⟩ := Prod.mk.inj (Option.some.inj (h.takes.next.symm.trans h'.takes.next))
  exact h.takes.outcome_eq.symm.trans h'.takes.outcome_eq

theorem gather_succ {node : Node α} {rest : Tree α}
    {outcome : Except (SearchError α) Disposition}
    (h : TakesAt problem oracle clock t s k node rest outcome) :
    gather bring problem oracle clock t s (k + 1) =
      gather bring problem oracle clock t s k ++
        bring node rest (after problem oracle clock t s (k + 1)).tree := by
  rw [gather]
  simp only [h.running, h.takes.next]

theorem gather_succ_of_not_running
    (hk : (after problem oracle clock t s k).verdict ≠ .running) :
    gather bring problem oracle clock t s (k + 1) =
      gather bring problem oracle clock t s k := by
  rw [gather]
  split
  next hrunning _ => exact absurd hrunning hk
  next => rfl

theorem takenNodes_succ {node : Node α} {rest : Tree α}
    {outcome : Except (SearchError α) Disposition}
    (h : TakesAt problem oracle clock t s k node rest outcome) :
    takenNodes problem oracle clock t s (k + 1) =
      takenNodes problem oracle clock t s k ++ [node] :=
  gather_succ h

/-- In turn `k` of the run that begins with `t` the oracle is asked about a box and gives
an answer. -/
def AnsweredAt (problem : Problem α) (oracle : Oracle σ α) (clock : Clock) (t : Tree α)
    (s : σ) (k : Nat) (d : Domain α) (answer : RelaxationOutcome α) : Prop :=
  ∃ node rest s', (after problem oracle clock t s k).verdict = .running ∧
    (after problem oracle clock t s k).tree.nextNode? = some (node, rest) ∧
    rest.Asks node ∧ node.domain = d ∧
    oracle.solve (after problem oracle clock t s k).oracle d
      (rest.remainingTime (clock (2 * k))) = (.ok answer, s')

/-! ## Number of turns -/

theorem explored_after_succ (hk : (after problem oracle clock t s k).verdict = .running) :
    (after problem oracle clock t s (k + 1)).tree.stats.explored = k + 1 := by
  obtain ⟨node, rest, outcome, htakes⟩ := after_takes hk
  rw [htakes.settings_and_explored.2, (settings_and_explored_after hk).2]

/-- A search takes one node in each turn. -/
theorem length_takenNodes (k : Nat) :
    (takenNodes problem oracle clock t s k).length =
      (after problem oracle clock t s k).tree.stats.explored := by
  induction k with
  | zero => rfl
  | succ k ih =>
      by_cases hk : (after problem oracle clock t s k).verdict = .running
      · obtain ⟨node, rest, outcome, h⟩ := exists_takesAt hk
        rw [(settings_and_explored_after hk).2] at ih
        rw [takenNodes_succ h, List.length_append, explored_after_succ hk, ih]
        rfl
      · rw [takenNodes, gather_succ_of_not_running hk, after_succ_of_not_running hk]
        exact ih

/-- Nothing happens once the search is over. -/
theorem after_of_not_running (hk : (after problem oracle clock t s k).verdict ≠ .running)
    (hle : k ≤ m) :
    after problem oracle clock t s m = after problem oracle clock t s k ∧
      takenNodes problem oracle clock t s m = takenNodes problem oracle clock t s k := by
  induction m, hle using Nat.le_induction with
  | base => exact ⟨rfl, rfl⟩
  | succ m _ ih =>
      rw [← ih.1] at hk
      rw [takenNodes, gather_succ_of_not_running hk, after_succ_of_not_running hk]
      exact ih

theorem running_of_le (hm : (after problem oracle clock t s m).verdict = .running)
    (hle : k ≤ m) : (after problem oracle clock t s k).verdict = .running := by
  by_contra hk
  rw [(after_of_not_running hk hle).1] at hm
  exact hk hm

/-- The nodes taken by a turn stay the first ones to be taken. -/
theorem takenNodes_prefix_of_le (hle : k ≤ m) :
    takenNodes problem oracle clock t s k <+: takenNodes problem oracle clock t s m := by
  induction m, hle using Nat.le_induction with
  | base => exact List.prefix_rfl
  | succ m _ ih =>
      by_cases hm : (after problem oracle clock t s m).verdict = .running
      · obtain ⟨node, rest, outcome, h⟩ := exists_takesAt hm
        rw [takenNodes_succ h]
        exact ih.trans (List.prefix_append _ _)
      · rwa [(after_of_not_running hm (Nat.le_succ m)).2]

/-- A search that is over after a turn was over by that turn. -/
theorem eq_of_running_of_not_running
    (hk : (after problem oracle clock t s k).verdict = .running)
    (hk' : (after problem oracle clock t s (k + 1)).verdict ≠ .running)
    (hm : (after problem oracle clock t s m).verdict = .running)
    (hm' : (after problem oracle clock t s (m + 1)).verdict ≠ .running) : k = m := by
  rcases Nat.lt_trichotomy k m with hlt | heq | hlt
  · exact absurd (running_of_le hm hlt) hk'
  · exact heq
  · exact absurd (running_of_le hk hlt) hm'

/-! ## Last turns -/

/-- An interrupted answer leaves its node unresolved. -/
theorem AnsweredAt.takesAt {d : Domain α}
    (h : AnsweredAt problem oracle clock t s k d .interrupted) :
    ∃ node rest, TakesAt problem oracle clock t s k node rest (.ok .interrupted) := by
  obtain ⟨node, rest, s', hk, hnext, hasks, rfl, hanswer⟩ := h
  have houtcome : (processNode problem oracle (clock (2 * k)) rest
      (after problem oracle clock t s k).oracle node).outcome = .ok .interrupted := by
    simp [processNode, hasks.keep, hasks.formed, hanswer]
  exact ⟨node, rest, houtcome ▸ takesAt_of_next hk hnext⟩

/-- An interrupted answer ends the search. -/
theorem AnsweredAt.verdict_eq {d : Domain α}
    (h : AnsweredAt problem oracle clock t s k d .interrupted) :
    (after problem oracle clock t s (k + 1)).verdict = .ended .timeLimit := by
  obtain ⟨node, rest, htakes⟩ := h.takesAt
  rw [htakes.takes.verdict_eq]
  rfl

/-- A run ends with the turn from head `m` of the loop, with a result and what is left of the
search. -/
structure EndsAt (problem : Problem α) (oracle : Oracle σ α) (clock : Clock) (t : Tree α)
    (s : σ) (m : Nat) (result : Result α) (tree : Tree α) : Prop where
  running : (after problem oracle clock t s m).verdict = .running
  ended : (after problem oracle clock t s (m + 1)).verdict = .ended result.status
  concluded : ∃ now, (after problem oracle clock t s (m + 1)).tree.conclude result.status now =
    (result, tree)

theorem exists_endsAt {result : Result α} {tree : Tree α} {s' : σ}
    (hrun : t.run problem oracle clock s = (.ok result, tree, s')) :
    ∃ m, EndsAt problem oracle clock t s m result tree := by
  obtain ⟨m, final, hm, rfl, ⟨status, now, hend, -, heq⟩ | ⟨e, -, heq⟩⟩ :=
    run_eq_after oracle clock t s (run_eq_ok hrun).1
  · rw [hrun] at heq
    obtain ⟨hresult, htail⟩ := Prod.mk.inj heq
    obtain ⟨htree, -⟩ := Prod.mk.inj htail
    have hstatus := ((after problem oracle clock t s (m + 1)).tree.conclude_eq status now).1
    rw [← Except.ok.inj hresult] at hstatus
    refine ⟨m, hm, hstatus ▸ hend, now, ?_⟩
    rw [hstatus, Except.ok.inj hresult, htree]
  · rw [hrun] at heq
    cases (Prod.mk.inj heq).1

namespace EndsAt

variable {result : Result α} {tree : Tree α}

theorem nodesExplored_eq (h : EndsAt problem oracle clock t s m result tree) :
    result.nodesExplored = m + 1 := by
  obtain ⟨now, hconclude⟩ := h.concluded
  have hexplored := (conclude_eq (after problem oracle clock t s (m + 1)).tree
    result.status now).2.2.2.1
  rw [hconclude] at hexplored
  exact hexplored.trans (explored_after_succ h.running)

theorem frontier_eq (h : EndsAt problem oracle clock t s m result tree) :
    tree.frontier = (after problem oracle clock t s (m + 1)).tree.frontier := by
  obtain ⟨now, hconclude⟩ := h.concluded
  have hfrontier := (conclude_counts (after problem oracle clock t s (m + 1)).tree
    result.status now).2.2.1
  rwa [hconclude] at hfrontier

theorem bestObjective_eq (h : EndsAt problem oracle clock t s m result tree) :
    result.bestObjective =
      if (after problem oracle clock t s (m + 1)).tree.incumbent.isPresent then
        some (after problem oracle clock t s (m + 1)).tree.incumbent.objective
      else none := by
  obtain ⟨now, hconclude⟩ := h.concluded
  have hobjective := (conclude_eq (after problem oracle clock t s (m + 1)).tree
    result.status now).2.1
  rwa [hconclude] at hobjective

end EndsAt

end Tree
end BranchBound
