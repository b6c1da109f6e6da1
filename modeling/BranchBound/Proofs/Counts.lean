import BranchBound.Proofs.LoopHeads
import BranchBound.Proofs.Thresholds

/-!
# Counts of a search

What a turn adds to the counts, said once.  Every route by which a node leaves the
search has its own counts: `Tree.Tally` lists them together with what becomes of the open
nodes, of the incumbent and of the identifiers.  The result of a run repeats the counts of
its last turn.
-/

namespace BranchBound

/-- Counts of a search, without its times. -/
structure Counts where
  explored : Nat
  pruned : Nat
  branched : Nat
  infeasible : Nat
  updates : Nat
  maxDepth : Nat
deriving DecidableEq

variable {α : Type} {σ : Type}

def Statistics.counts (s : Statistics α) : Counts :=
  ⟨s.explored, s.pruned, s.branched, s.infeasible, s.updates, s.maxDepth⟩

def Result.counts (r : Result α) : Counts :=
  ⟨r.nodesExplored, r.nodesPruned, r.nodesBranched, r.nodesInfeasible, r.incumbentUpdates,
    r.maxDepth⟩

namespace Counts

/-- Count a node that was taken. -/
def take (c : Counts) (node : Node α) : Counts :=
  { c with explored := c.explored + 1, maxDepth := max c.maxDepth node.depth }

/-- How many nodes an outcome discards. -/
def discarded : Except (SearchError α) Disposition → Nat
  | .ok .pruned => 1
  | .ok .infeasible => 1
  | _ => 0

/-- How many nodes an outcome finds infeasible. -/
def foundInfeasible : Except (SearchError α) Disposition → Nat
  | .ok .infeasible => 1
  | _ => 0

/-- How many nodes an outcome leaves without a count. -/
def unsettled : Except (SearchError α) Disposition → Nat
  | .error _ => 1
  | .ok .interrupted => 1
  | _ => 0

/-- Count a node that was settled without opening or closing another one. -/
def settle (c : Counts) (outcome : Except (SearchError α) Disposition) : Counts :=
  { c with
    pruned := c.pruned + discarded outcome
    infeasible := c.infeasible + foundInfeasible outcome }

variable {outcome : Except (SearchError α) Disposition}

/-- A node that is neither split nor a point is discarded or left unsettled. -/
theorem discarded_add_unsettled (hsplit : outcome ≠ .ok .branched)
    (hbetter : outcome ≠ .ok (.integral true)) (hworse : outcome ≠ .ok (.integral false)) :
    discarded outcome + unsettled outcome = 1 := by
  rcases outcome with e | d
  · rfl
  · cases d with
    | pruned => rfl
    | infeasible => rfl
    | integral improved => cases improved <;> contradiction
    | branched => contradiction
    | interrupted => rfl

theorem discarded_eq_foundInfeasible (h : outcome ≠ .ok .pruned) :
    discarded outcome = foundInfeasible outcome := by
  rcases outcome with e | d
  · rfl
  · cases d with
    | pruned => contradiction
    | _ => rfl

theorem foundInfeasible_le_discarded (outcome : Except (SearchError α) Disposition) :
    foundInfeasible outcome ≤ discarded outcome := by
  by_cases hpruned : outcome = .ok .pruned
  · rw [hpruned]
    exact Nat.zero_le 1
  · exact (discarded_eq_foundInfeasible hpruned).ge

end Counts

variable [Scalar α]

/-- What settling a node does to the counts, the open nodes, the incumbent and the
identifiers. -/
inductive Tree.Tally (problem : Problem α) (oracle : Oracle σ α) (now : Duration)
    (t : Tree α) (s : σ) (node : Node α) :
    Except (SearchError α) Disposition → Tree α → Prop
  /-- The other nodes are left alone. -/
  | kept {outcome : Except (SearchError α) Disposition} {tree : Tree α}
      (hsplit : outcome ≠ .ok .branched) (hworse : outcome ≠ .ok (.integral true))
      (hpruned : outcome = .ok .pruned → t.incumbent.isPresent = true)
      (hfrontier : tree.frontier = t.frontier) (hincumbent : tree.incumbent = t.incumbent)
      (hnextId : tree.nextId = t.nextId)
      (hcounts : tree.stats.counts = t.stats.counts.settle outcome) :
      Tally problem oracle now t s node outcome tree
  /-- A better point replaces the incumbent, and the open nodes that it dominates are
  counted as pruned. -/
  | improved {tree : Tree α} {r : Relaxation α} {s' : σ}
      (hsolves : t.Solves oracle now s node r s')
      (hintegral : problem.isIntegral r.values t.settings.feasibilityTol = true)
      (himproves : t.incumbent.improves r.objective = true)
      (hfrontier : tree.frontier = t.frontier.prune tree.incumbent)
      (hincumbent : tree.incumbent =
        t.incumbent.consider r.objective (problem.roundIntegers r.values))
      (hnextId : tree.nextId = t.nextId)
      (hcounts : tree.stats.counts = { t.stats.counts with
        updates := t.stats.updates + 1
        pruned := t.stats.pruned + (t.frontier.size - tree.frontier.size) }) :
      Tally problem oracle now t s node (.ok (.integral true)) tree
  /-- Two children are opened. -/
  | split {tree : Tree α} {r : Relaxation α} {s' : σ} {low high : BoundChange α}
      {down up : Node α} (hsolves : t.Solves oracle now s node r s')
      (hopen : t.incumbent.dominates r.objective = false)
      (hdown : { node with relaxation := some r }.child t.nextId low = .ok down)
      (hup : { node with relaxation := some r }.child (t.nextId + 1) high = .ok up)
      (hfrontier : tree.frontier = (t.frontier.push up).push down)
      (hincumbent : tree.incumbent = t.incumbent) (hnextId : tree.nextId = t.nextId + 2)
      (hcounts : tree.stats.counts =
        { t.stats.counts with branched := t.stats.branched + 1 }) :
      Tally problem oracle now t s node (.ok .branched) tree

namespace Settles

variable {problem : Problem α} {oracle : Oracle σ α} {now : Duration} {t tree : Tree α}
  {s s' : σ} {node : Node α} {outcome : Except (SearchError α) Disposition}

theorem tally (h : Settles problem oracle now t s node outcome tree s') :
    t.Tally problem oracle now s node outcome tree := by
  cases h with
  | dominated hprune =>
      exact .kept (by simp) (by simp) (fun _ => (Incumbent.dominates_eq_true_iff.mp hprune).1)
        rfl rfl rfl rfl
  | malformed => exact .kept (by simp) (by simp) (by simp) rfl rfl rfl rfl
  | refused => exact .kept (by simp) (by simp) (by simp) rfl rfl rfl rfl
  | infeasible => exact .kept (by simp) (by simp) (by simp) rfl rfl rfl rfl
  | interrupted => exact .kept (by simp) (by simp) (by simp) rfl rfl rfl rfl
  | rejected => exact .kept (by simp) (by simp) (by simp) rfl rfl rfl rfl
  | @bounded r _ _ hprune =>
      obtain ⟨rootBound, hnote⟩ := t.noteBound_eq node r.objective
      rw [hnote]
      exact .kept (by simp) (by simp) (fun _ => (Incumbent.dominates_eq_true_iff.mp hprune).1)
        rfl rfl rfl rfl
  | @integral r _ hsolves _ hintegral =>
      by_cases himproves : t.incumbent.improves r.objective = true
      · obtain ⟨rootBound, hnote⟩ := t.noteBound_eq node r.objective
        obtain ⟨journal, hupdate⟩ := Tree.updateIncumbent_of_improves
          (t := t.noteBound node r.objective) himproves (problem.roundIntegers r.values)
        rw [hupdate, hnote, himproves]
        exact .improved hsolves hintegral himproves rfl rfl rfl rfl
      · rw [Bool.not_eq_true] at himproves
        obtain ⟨rootBound, hoffer⟩ :=
          Tree.offer_of_not_improves himproves node (problem.roundIntegers r.values)
        rw [hoffer, himproves]
        exact .kept (by simp) (by simp) (by simp) rfl rfl rfl rfl
  | @stuck r =>
      obtain ⟨rootBound, hnote⟩ := t.noteBound_eq node r.objective
      rw [hnote]
      exact .kept (by simp) (by simp) (by simp) rfl rfl rfl rfl
  | @branched r _ _ _ _ _ hsolves hopen _ _ _ hdown hup =>
      obtain ⟨rootBound, hnote⟩ := t.noteBound_eq node r.objective
      rw [hnote]
      exact .split hsolves hopen hdown hup rfl rfl rfl rfl

end Settles

namespace Tree

namespace Takes

variable {problem : Problem α} {oracle : Oracle σ α} {before after : Duration}
  {t rest : Tree α} {s : σ} {node : Node α} {outcome : Except (SearchError α) Disposition}
  {turn : Turn σ α}

theorem tally (h : Takes problem oracle before after t s node rest outcome turn) :
    rest.Tally problem oracle before s node outcome turn.tree := by
  obtain ⟨tree, journal, hsettles, htree⟩ := h.settled
  rw [htree]
  cases hsettles.tally with
  | kept hsplit hworse hpruned hfrontier hincumbent hnextId hcounts =>
      exact .kept hsplit hworse hpruned hfrontier hincumbent hnextId hcounts
  | improved hsolves hintegral himproves hfrontier hincumbent hnextId hcounts =>
      exact .improved hsolves hintegral himproves hfrontier hincumbent hnextId hcounts
  | split hsolves hopen hdown hup hfrontier hincumbent hnextId hcounts =>
      exact .split hsolves hopen hdown hup hfrontier hincumbent hnextId hcounts

theorem rest_counts (h : Takes problem oracle before after t s node rest outcome turn) :
    rest.stats.counts = t.stats.counts.take node ∧ rest.nextId = t.nextId := by
  rw [(nextNode?_eq_some h.next).2]
  exact ⟨rfl, rfl⟩

end Takes

/-- The result repeats the counts, and concluding closes no node. -/
theorem conclude_counts (t : Tree α) (status : Status) (now : Duration) :
    (t.conclude status now).1.counts = t.stats.counts ∧
      (t.conclude status now).2.stats.counts = t.stats.counts ∧
      (t.conclude status now).2.frontier = t.frontier ∧
      (t.conclude status now).1.bestAssignment = t.incumbent.assignment := by
  unfold conclude stop
  cases t.stats.finish <;> cases t.settings.verbose <;> exact ⟨rfl, rfl, rfl, rfl⟩

theorem explored_conclude (t : Tree α) (status : Status) (now : Duration) :
    (t.conclude status now).2.stats.explored = t.stats.explored :=
  congrArg Counts.explored (t.conclude_counts status now).2.1

end Tree

end BranchBound
