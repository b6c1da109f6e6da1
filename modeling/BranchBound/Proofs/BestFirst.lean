import BranchBound.Proofs.OracleCalls
import BranchBound.Proofs.Soundness

/-!
# Best-first search

A search by bound never takes a node whose bound exceeds the cost of a point that it has
to account for.  Either the point lies in an open node, whose bound is at most the cost,
and the node taken has the least bound of all; or the point does not improve on the
incumbent, while every open node still might.
-/

namespace BranchBound

variable {α : Type} [Scalar α] {σ : Type}

namespace Frontier

theorem bestBound_eq_of_pop?
    {f g : Frontier α} {n : Node α} (hselection : f.selection = .bestBound)
    (h : f.pop? = some (n, g)) : f.bestBound = n.bound := by
  simp only [pop?, hselection] at h
  obtain ⟨popped, hpopped, heq⟩ := Option.map_eq_some_iff.mp h
  have hfirst := Heap.pop?_first hpopped
  rw [(Prod.mk.inj heq).1] at hfirst
  simp only [bestBound, hselection, hfirst]

theorem pop?_bound_le [LawfulScalar α]
    {f g : Frontier α} {n m : Node α} (hselection : f.selection = .bestBound)
    (hordered : f.IsOrdered)
    (hnumber : ∀ n ∈ f.openNodes, Scalar.isNaN n.bound = false)
    (h : f.pop? = some (n, g)) (hm : m ∈ f.openNodes) : n.bound ≤ m.bound := by
  rw [← bestBound_eq_of_pop? hselection h]
  exact bestBound_le hordered hnumber hm

end Frontier

namespace Tree

variable {problem : Problem α} {oracle : Oracle σ α} {clock : Clock} {t : Tree α} {s : σ}

theorem Takes.selection_eq
    {before after : Duration} {rest : Tree α} {node : Node α}
    {outcome : Except (SearchError α) Disposition} {turn : Turn σ α}
    (h : Takes problem oracle before after t s node rest outcome turn) :
    turn.tree.frontier.selection = t.frontier.selection := by
  rw [← Frontier.pop?_selection (nextNode?_eq_some h.next).1]
  cases h.effect with
  | kept _ _ _ hfrontier => rw [hfrontier]
  | interrupted hfrontier => rw [hfrontier]
  | improved _ _ hfrontier => rw [hfrontier, Frontier.prune_selection]
  | split _ _ _ _ hfrontier =>
      rw [hfrontier, Frontier.push_selection, Frontier.push_selection]

theorem selection_after (k : Nat) :
    (after problem oracle clock t s k).tree.frontier.selection =
      t.settings.nodeSelection := by
  apply after_invariant
    (fun turn => turn.tree.frontier.selection = t.settings.nodeSelection)
  · exact Frontier.push_selection _ _
  · intro k node rest outcome turn _ hselection htakes
    rw [htakes.selection_eq, hselection]

variable [LawfulScalar α] {S : Set (List α)} {c : List α → α}

/-- The next node of a search by bound is no worse than a point that the search accounts
for. -/
theorem nextNode?_bound_le
    {rest : Tree α} {node : Node α} {p : List α} {cost : α}
    (hselection : t.frontier.selection = .bestBound) (htidy : t.IsTidy)
    (hswept : t.IsSwept) (hresolved : t.unresolvedBound = none)
    (hcost : Scalar.isNaN cost = false) (haccounts : t.Accounts p cost)
    (h : t.nextNode? = some (node, rest)) : node.bound ≤ cost := by
  obtain ⟨hpop, -⟩ := nextNode?_eq_some h
  rcases haccounts with ⟨n, hn, -, hle⟩ | ⟨hpresent, hworse⟩ | ⟨b, hb, -⟩
  · have hleast := Frontier.pop?_bound_le hselection htidy.ordered htidy.isNaN_bound hpop hn
    exact Scalar.le_trans hleast hle
  · -- the node is below the threshold of the incumbent, the point is not
    have hnode : node ∈ t.frontier.openNodes :=
      (Frontier.pop?_perm hpop).mem_iff.mpr List.mem_cons_self
    have himproves : t.incumbent.improves node.bound = true := by
      have hkeep := hswept node hnode
      simpa [Node.canPrune, Incumbent.dominates, hpresent] using hkeep
    rw [Incumbent.improves_eq_true_iff] at himproves
    rw [Incumbent.improves_eq_false_iff] at hworse
    have hthreshold := Scalar.le_of_not_lt hcost (Scalar.isNaN_right_of_lt himproves) hworse
    exact Scalar.le_trans (Scalar.le_of_lt himproves) hthreshold
  · rw [hresolved] at hb
    cases hb

/-- **Best-first search never explores past the optimum.**  Let the oracle give sound
answers about a set of lattice points with costs whenever the run asks it.  Every node that
a search by bound takes has a bound at most the cost of every point. -/
theorem takenNodes_bound_le (htarget : problem.IsTarget S c)
    (htol : Scalar.ofInt 0 ≤ t.settings.improvementTol)
    (hselection : t.settings.nodeSelection = .bestBound)
    (hsound : ∀ d answer, Answered problem oracle clock t s d answer → answer.IsSound S c d)
    (k : Nat) :
    ∀ node ∈ takenNodes problem oracle clock t s k, ∀ p ∈ S, node.bound ≤ c p := by
  induction k with
  | zero =>
      intro node hnode
      cases hnode
  | succ k ih =>
      by_cases hk : (after problem oracle clock t s k).verdict = .running
      · obtain ⟨last, rest, outcome, htakes⟩ := exists_takesAt hk
        intro node hnode p hp
        rw [takenNodes_succ htakes, List.mem_append, List.mem_singleton] at hnode
        rcases hnode with hnode | rfl
        · exact ih node hnode p hp
        · have hinv := after_isAccountable htarget htol hsound k
          have hresolved : (after problem oracle clock t s k).tree.unresolvedBound = none := by
            apply hinv.resolved.resolve_right
            simp [hk]
          have haccounts : (after problem oracle clock t s k).tree.Accounts p (c p) := by
            apply hinv.accounts
            · simp [hk]
            · exact hp
          exact nextNode?_bound_le ((selection_after k).trans hselection) hinv.tidy
            (isSwept_after k) hresolved (htarget.isNaN_cost p hp) haccounts htakes.takes.next
      · rw [takenNodes, gather_succ_of_not_running hk]
        exact ih

/-- The sample search by bound takes four nodes, none of them worse than a lattice
point. -/
theorem takenNodes_sample_bound_le :
    let start : Tree Float := create { Settings.sample 10 with nodeSelection := .bestBound }
    (takenNodes Problem.sample Oracle.halving .frozen start () 9).length = 4 ∧
    ∀ node ∈ takenNodes Problem.sample Oracle.halving .frozen start () 9,
      ∀ p, Problem.sample.IsLatticePoint p → node.bound ≤ coordinate p := by
  intro start
  have htol : (Scalar.ofInt 0 : Float) ≤ start.settings.improvementTol := by
    decide +kernel
  refine ⟨by decide +kernel, ?_⟩
  exact takenNodes_bound_le isTarget_sample htol rfl
    (fun d answer h => h.isSound_halving) 9

end Tree

end BranchBound
