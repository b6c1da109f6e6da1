import BranchBound.Proofs.ExactLawful
import BranchBound.Proofs.LoopHeads

/-!
# The partition of the lattice points

No lattice point is lost and none is looked at twice.  The nodes that a search has
disposed of without splitting them are not kept by the search; `Tree.closedNodes`
recovers them from its turns.  At every head of the loop each lattice point of the
root box is in exactly one of the open and the closed nodes.

Splitting keeps this up also when the relaxation's value is outside the interval of
the node, as long as it exceeds the interval by no more than the tolerance.
-/

namespace BranchBound

variable {α : Type} [Scalar α] {σ : Type}

/-- A solution whose values exceed the intervals of a box by no more than a tolerance,
the widened bounds taken without rounding. -/
def Relaxation.IsWithin (r : Relaxation α) (d : Domain α) (tol : α) : Prop :=
  ∀ (var : Nat) (i : Interval α) (a : α), d.get? var = some i → r.values[var]? = some a →
    i.HoldsWithin tol a

/-- In exact arithmetic an accepted solution is within the box up to the tolerance. -/
theorem Relaxation.isWithin_of_exact {r : Relaxation Exact} {d : Domain Exact} {tol : Exact}
    (h : r.fault? d tol = none) : r.IsWithin d tol := by
  intro var i a hi ha
  have hcontains := ((fault?_eq_none h).2.2 var i a hi ha).2
  rw [Interval.contains, Bool.and_eq_true, decide_eq_true_eq, decide_eq_true_eq] at hcontains
  simpa [Interval.HoldsWithin, Exact.value_eq] using hcontains

/-- How many of some nodes have a point in their box. -/
def Node.countHolding (p : List α) (nodes : List (Node α)) : Nat :=
  nodes.countP fun n => decide (n.domain.Holds p)

namespace Node

theorem countHolding_nil (p : List α) : countHolding p [] = 0 :=
  rfl

theorem countHolding_append (p : List α) (l l' : List (Node α)) :
    countHolding p (l ++ l') = countHolding p l + countHolding p l' :=
  List.countP_append

theorem countHolding_cons (p : List α) (n : Node α) (l : List (Node α)) :
    countHolding p (n :: l) = countHolding p l + if n.domain.Holds p then 1 else 0 := by
  simp [countHolding, List.countP_cons]

theorem countHolding_perm (p : List α) {l l' : List (Node α)} (h : l.Perm l') :
    countHolding p l = countHolding p l' :=
  h.countP_eq _

end Node

namespace Tree

/-- The nodes disposed of when a node is settled: the node itself, unless it was split
or left unresolved, and the open nodes that a better incumbent prunes. -/
def disposedNodes (node : Node α) (rest tree : Tree α) :
    Except (SearchError α) Disposition → List (Node α)
  | .ok .pruned => [node]
  | .ok .infeasible => [node]
  | .ok (.integral false) => [node]
  | .ok (.integral true) =>
      node :: rest.frontier.openNodes.filter fun n => n.canPrune tree.incumbent
  | .ok .branched => []
  | .ok .interrupted => []
  | .error _ => []

/-- The nodes that a search has disposed of without splitting them after a number of
turns. -/
def closedNodes (problem : Problem α) (oracle : Oracle σ α) (clock : Clock) (t : Tree α)
    (s : σ) : Nat → List (Node α)
  | 0 => []
  | k + 1 =>
      let turn := after problem oracle clock t s k
      match turn.verdict, turn.tree.nextNode? with
      | .running, some (node, rest) =>
          let p := processNode problem oracle (clock (2 * k)) rest turn.oracle node
          disposedNodes node rest p.tree p.outcome ++ closedNodes problem oracle clock t s k
      | _, _ => closedNodes problem oracle clock t s k

variable {problem : Problem α} {oracle : Oracle σ α} {clock : Clock} {t : Tree α} {s : σ}

theorem closedNodes_succ {k : Nat} {node : Node α} {rest : Tree α}
    {outcome : Except (SearchError α) Disposition} {turn : Turn σ α}
    (hk : (after problem oracle clock t s k).verdict = .running)
    (htakes : Takes problem oracle (clock (2 * k)) (clock (2 * k + 1))
      (after problem oracle clock t s k).tree (after problem oracle clock t s k).oracle
      node rest outcome turn) :
    closedNodes problem oracle clock t s (k + 1) =
      disposedNodes node rest turn.tree outcome ++ closedNodes problem oracle clock t s k := by
  obtain ⟨journal, htree⟩ := htakes.tree_eq
  rw [htree, ← htakes.outcome_eq, closedNodes]
  simp only [hk, htakes.next]
  rfl

variable [LawfulScalar α]

/-- A lattice point of a box is in one of its halves, and a half has no other. -/
theorem countHolding_halves {d down up : Domain α} {r : Relaxation α} {f : Fractional α}
    {old : Interval α} {tol : α} {p : List α} (h : problem.Splits tol d r f old down up)
    (htol : Scalar.ofInt 0 ≤ tol) (hwithin : r.IsWithin d tol)
    (hinteger : problem.IsIntegerPoint p) :
    (if up.Holds p then 1 else 0) + (if down.Holds p then 1 else 0) =
      if d.Holds p then 1 else 0 := by
  by_cases hp : d.Holds p
  · rw [if_pos hp]
    rcases h.down_or_up hp hinteger with hdown | hup
    · rw [if_pos hdown, if_neg (h.not_down_and_up htol hdown)]
    · rw [if_pos hup, if_neg fun hdown => h.not_down_and_up htol hdown hup]
  · have hhalves : ¬(down.Holds p ∨ up.Holds p) := fun hhalf =>
      hp (h.holds_of_down_or_up htol (hwithin f.var old f.value h.get h.value_eq.1) hhalf)
    rw [not_or] at hhalves
    rw [if_neg hp, if_neg hhalves.1, if_neg hhalves.2]

/-- A turn after which the search goes on moves each lattice point that was in an open
node to one of the open nodes or of the nodes disposed of. -/
theorem Takes.countHolding_eq {before after : Duration} {rest : Tree α} {node : Node α}
    {outcome : Except (SearchError α) Disposition} {turn : Turn σ α} {p : List α}
    (h : Takes problem oracle before after t s node rest outcome turn)
    (hrunning : turn.verdict = .running)
    (htol : Scalar.ofInt 0 ≤ t.settings.feasibilityTol)
    (hwithin : ∀ r s', rest.Solves oracle before s node r s' →
      r.IsWithin node.domain t.settings.feasibilityTol)
    (hinteger : problem.IsIntegerPoint p) :
    Node.countHolding p turn.tree.frontier.openNodes +
        Node.countHolding p (disposedNodes node rest turn.tree outcome) =
      Node.countHolding p t.frontier.openNodes := by
  have hverdict := h.verdict_eq
  rw [hrunning] at hverdict
  rw [Node.countHolding_perm p h.openNodes_perm, Node.countHolding_cons]
  cases h.effect with
  | kept hsplit hresolved hworse hf =>
      have hnode : disposedNodes node rest turn.tree outcome = [node] := by
        match outcome, hsplit, hresolved, hworse, hverdict with
        | .error e, _, _, _, hverdict => cases hverdict
        | .ok .pruned, _, _, _, _ => rfl
        | .ok .infeasible, _, _, _, _ => rfl
        | .ok (.integral false), _, _, _, _ => rfl
        | .ok (.integral true), _, _, hworse, _ => exact absurd rfl hworse
        | .ok .branched, hsplit, _, _, _ => exact absurd rfl hsplit
        | .ok .interrupted, _, hresolved, _, _ => exact absurd rfl hresolved
      rw [hf, hnode, Node.countHolding_cons, Node.countHolding_nil, Nat.zero_add]
  | interrupted => cases hverdict
  | improved _ _ hf hi =>
      rw [← hi] at hf
      have hswept : (turn.tree.frontier.openNodes ++ rest.frontier.openNodes.filter
          fun n => n.canPrune turn.tree.incumbent).Perm rest.frontier.openNodes := by
        rw [hf]
        exact ((Frontier.prune_perm _ _).append_right _).trans
          (List.perm_append_comm.trans (List.filter_append_perm _ _))
      rw [disposedNodes, Node.countHolding_cons, ← Nat.add_assoc, ← Node.countHolding_append,
        Node.countHolding_perm p hswept]
  | split hsolves hsplits _ _ hf =>
      rw [h.rest_eq.1] at hsplits
      have hhalves := countHolding_halves hsplits htol (hwithin _ _ hsolves) hinteger
      rw [disposedNodes, Node.countHolding_nil, hf,
        Node.countHolding_perm p (Frontier.push_push_perm _ _ _), Node.countHolding_cons,
        Node.countHolding_cons, Nat.add_zero, Nat.add_assoc, hhalves]

/-- **Branching completeness.**  Let the tolerance be nonnegative, and let the solutions
that the run accepts exceed the intervals of their boxes by no more than that.  Then at
every head of the loop each lattice point is in the box of exactly one node among the
open ones and those disposed of without being split. -/
theorem countHolding_open_append_closed (htol : Scalar.ofInt 0 ≤ t.settings.feasibilityTol)
    (hwithin : ∀ d r, Answered problem oracle clock t s d (.optimal r) →
      r.fault? d t.settings.feasibilityTol = none → r.IsWithin d t.settings.feasibilityTol)
    {k : Nat} (hk : (after problem oracle clock t s k).verdict = .running) {p : List α}
    (hp : problem.IsLatticePoint p) :
    Node.countHolding p ((after problem oracle clock t s k).tree.frontier.openNodes ++
      closedNodes problem oracle clock t s k) = 1 := by
  refine (after_induction (fun k turn => turn.verdict = .running →
    Node.countHolding p (turn.tree.frontier.openNodes ++
      closedNodes problem oracle clock t s k) = 1) ?_ ?_ hk).1 hk
  · intro _
    simp only [openNodes_restart, closedNodes, List.append_nil, Node.countHolding_cons]
    rw [if_pos (show (Node.root problem.rootDomain).domain.Holds p from hp.1)]
    rfl
  · intro k node rest outcome turn hrunning hinv htakes hnext
    obtain ⟨hsettings, -⟩ := settings_and_explored_after hrunning
    have hrest : rest.settings = t.settings := htakes.rest_eq.1.trans hsettings
    have hstep := htakes.countHolding_eq hnext (hsettings ▸ htol) (by
      intro r s' hsolves
      rw [hsettings]
      exact hwithin node.domain r (htakes.answered hrunning hsolves.asks hsolves.answer)
        (hrest ▸ hsolves.usable)) hp.2
    have hold := hinv hrunning
    rw [Node.countHolding_append] at hold
    rw [closedNodes_succ hrunning htakes, Node.countHolding_append, Node.countHolding_append,
      ← Nat.add_assoc, hstep, hold]

/-- After two turns of the sample search the point `2` is in exactly one node. -/
theorem countHolding_sample :
    Node.countHolding [Exact.finite 2] ((after Problem.sample Oracle.halving .frozen
        (create (Settings.sample 10)) () 2).tree.frontier.openNodes ++
      closedNodes Problem.sample Oracle.halving .frozen (create (Settings.sample 10)) () 2) =
        1 := by
  have htol : (Scalar.ofInt 0 : Exact) ≤ (create (Settings.sample 10)).settings.feasibilityTol := by
    decide +kernel
  have hrunning : (after Problem.sample Oracle.halving .frozen
      (create (Settings.sample 10 : Settings Exact)) () 2).verdict = .running := by
    decide +kernel
  have hp : (Problem.sample : Problem Exact).IsLatticePoint [.finite 2] := by
    refine ⟨by decide +kernel, ?_⟩
    intro var v a _ ha _
    cases var with
    | zero => exact ⟨2, by rw [← Option.some.inj ha]; rfl⟩
    | succ var => cases ha
  exact countHolding_open_append_closed htol
    (fun d r _ hfault => Relaxation.isWithin_of_exact hfault) hrunning hp

end Tree

end BranchBound
