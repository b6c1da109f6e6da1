import Mathlib.Logic.Relation
import BranchBound.Proofs.Counts
import BranchBound.Proofs.History

/-!
# Lineage of the nodes

Where the nodes of a search come from.  A turn that splits a node opens its two halves,
and no other turn opens anything.  So every open node is the root, before the first turn,
or a half of a node that was taken.
-/

namespace BranchBound
namespace Tree

variable {α : Type} [Scalar α] {σ : Type}

/-- Turn `k` splits a node at a fractional value of its solution, and opens the upper half
and then the lower one. -/
structure SplitsAt (problem : Problem α) (oracle : Oracle σ α) (clock : Clock) (t : Tree α)
    (s : σ) (k : Nat) (node down up : Node α) (rest : Tree α) : Prop where
  takes : TakesAt problem oracle clock t s k node rest (.ok .branched)
  halves : ∃ r s' f old,
    rest.Solves oracle (clock (2 * k)) (after problem oracle clock t s k).oracle node r s' ∧
    f ∈ problem.fractionalVars r.values rest.settings.feasibilityTol ∧
    node.domain.get? f.var = some old ∧
    { node with relaxation := some r }.child rest.nextId (.down f.var old f.value) = .ok down ∧
    { node with relaxation := some r }.child (rest.nextId + 1) (.up f.var old f.value) = .ok up
  frontier_eq : (after problem oracle clock t s (k + 1)).tree.frontier =
    (rest.frontier.push up).push down

/-- In the run that begins with `t` a node is opened as a half of another one. -/
def IsHalf (problem : Problem α) (oracle : Oracle σ α) (clock : Clock) (t : Tree α) (s : σ)
    (node half : Node α) : Prop :=
  ∃ k down up rest, SplitsAt problem oracle clock t s k node down up rest ∧
    (half = down ∨ half = up)

/-- A node is a half of another one, or of one of its descendants. -/
def Descends (problem : Problem α) (oracle : Oracle σ α) (clock : Clock) (t : Tree α) (s : σ) :
    Node α → Node α → Prop :=
  Relation.TransGen (IsHalf problem oracle clock t s)

variable {problem : Problem α} {oracle : Oracle σ α} {clock : Clock} {t rest : Tree α} {s : σ}
  {k : Nat} {node down up n : Node α} {outcome : Except (SearchError α) Disposition}

theorem TakesAt.exists_splitsAt
    (h : TakesAt problem oracle clock t s k node rest (.ok .branched)) :
    ∃ down up, SplitsAt problem oracle clock t s k node down up rest := by
  obtain ⟨tree, journal, hsettles, htree⟩ := h.takes.settled
  cases hsettles with
  | @branched r _ f old down up hsolves _ _ hf hold hdown hup =>
      refine ⟨down, up, h, ⟨r, _, f, old, hsolves, hf, hold, hdown, hup⟩, ?_⟩
      rw [htree]

theorem SplitsAt.isHalf_down (h : SplitsAt problem oracle clock t s k node down up rest) :
    IsHalf problem oracle clock t s node down :=
  ⟨k, down, up, rest, h, Or.inl rfl⟩

theorem SplitsAt.isHalf_up (h : SplitsAt problem oracle clock t s k node down up rest) :
    IsHalf problem oracle clock t s node up :=
  ⟨k, down, up, rest, h, Or.inr rfl⟩

/-- A half knows its parent, is one level deeper, and has no solution yet. -/
theorem IsHalf.fields (h : IsHalf problem oracle clock t s node n) :
    n.parent = some node.id ∧ n.depth = node.depth + 1 ∧ n.relaxation = none := by
  obtain ⟨k, down, up, rest, hsplits, hn⟩ := h
  obtain ⟨r, s', f, old, -, -, -, hdown, hup⟩ := hsplits.halves
  rcases hn with rfl | rfl
  · obtain ⟨d, -, -, rfl⟩ := Node.child_eq_ok hdown
    exact ⟨rfl, rfl, rfl⟩
  · obtain ⟨d, -, -, rfl⟩ := Node.child_eq_ok hup
    exact ⟨rfl, rfl, rfl⟩

/-- A node that is open after a turn was open before, or is a half of the node taken. -/
theorem TakesAt.mem_openNodes_succ (h : TakesAt problem oracle clock t s k node rest outcome)
    (hn : n ∈ (after problem oracle clock t s (k + 1)).tree.frontier.openNodes) :
    n ∈ rest.frontier.openNodes ∨ IsHalf problem oracle clock t s node n := by
  cases h.takes.tally with
  | kept _ _ _ hfrontier => exact Or.inl (hfrontier ▸ hn)
  | improved _ _ _ hfrontier =>
      rw [hfrontier, (Frontier.prune_perm _ _).mem_iff] at hn
      exact Or.inl (List.mem_of_mem_filter hn)
  | split =>
      obtain ⟨down, up, hsplits⟩ := h.exists_splitsAt
      rw [hsplits.frontier_eq, (Frontier.push_push_perm _ _ _).mem_iff, List.mem_cons,
        List.mem_cons] at hn
      rcases hn with rfl | rfl | hn
      · exact Or.inr hsplits.isHalf_down
      · exact Or.inr hsplits.isHalf_up
      · exact Or.inl hn

variable (problem oracle clock t s) in
/-- An open node is the root, before the first turn, or a half. -/
theorem openNodes_eq_root_or_isHalf (k : Nat) :
    ∀ n ∈ (after problem oracle clock t s k).tree.frontier.openNodes,
      (k = 0 ∧ n = .root problem.rootDomain) ∨ ∃ p, IsHalf problem oracle clock t s p n := by
  induction k with
  | zero =>
      intro n hn
      rw [after, openNodes_restart, List.mem_singleton] at hn
      exact Or.inl ⟨rfl, hn⟩
  | succ k ih =>
      intro n hn
      right
      by_cases hk : (after problem oracle clock t s k).verdict = .running
      · obtain ⟨node, rest, outcome, h⟩ := exists_takesAt hk
        have hopen := h.takes.openNodes_perm
        rcases h.mem_openNodes_succ hn with hold | hhalf
        · rcases ih n (hopen.mem_iff.mpr (List.mem_cons_of_mem node hold)) with ⟨rfl, -⟩ | hhalf
          · -- the root was the only open node, and it was taken
            rw [after, openNodes_restart] at hopen
            have hrest := List.tail_eq_of_cons_eq (List.singleton_perm.mp hopen)
            rw [← hrest] at hold
            cases hold
          · exact hhalf
        · exact ⟨node, hhalf⟩
      · rw [after_succ_of_not_running hk] at hn
        rcases ih n hn with ⟨rfl, -⟩ | hhalf
        · exact absurd rfl hk
        · exact hhalf

/-- Before it is taken a node has the bound that it has inherited. -/
theorem bound_eq_estimate
    (hn : n ∈ (after problem oracle clock t s k).tree.frontier.openNodes) :
    n.bound = n.estimate := by
  rcases openNodes_eq_root_or_isHalf problem oracle clock t s k n hn with ⟨-, rfl⟩ | ⟨p, hhalf⟩
  · rfl
  · rw [Node.bound, hhalf.fields.2.2]

end Tree
end BranchBound
