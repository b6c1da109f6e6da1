import Mathlib.Algebra.Order.BigOperators.Group.List
import BranchBound.Proofs.Binary64.Lawful
import BranchBound.Proofs.Cells
import BranchBound.Proofs.LoopHeads

/-!
# Termination

A search ends although its frontier grows with every split.  Each open node owns at
least one unit of weight, the weight of a box passes to its halves, and a node that
is not split takes its weight with it.  Hence no more nodes are split than the root
box has weight to spare, and the number of turns is bounded by a number that depends
on the root box alone, whatever the limits, the oracle and the clock.

With integer bounds the weight of the root box is the size of the grid of the
integral variables, and no box is ever malformed.
-/

namespace BranchBound

variable {α : Type} [Scalar α] {σ : Type}

namespace Problem

/-- Weight of some nodes beyond one for each of them. -/
def surplus (problem : Problem α) (nodes : List (Node α)) : Nat :=
  (nodes.map fun n => problem.weight n.domain - 1).sum

theorem surplus_cons (problem : Problem α) (n : Node α) (nodes : List (Node α)) :
    problem.surplus (n :: nodes) = (problem.weight n.domain - 1) + problem.surplus nodes := by
  simp [surplus]

theorem surplus_perm (problem : Problem α) {nodes nodes' : List (Node α)}
    (h : nodes.Perm nodes') :
    problem.surplus nodes = problem.surplus nodes' :=
  (h.map _).sum_eq

theorem surplus_filter_le (problem : Problem α) (keep : Node α → Bool)
    (nodes : List (Node α)) :
    problem.surplus (nodes.filter keep) ≤ problem.surplus nodes :=
  (List.filter_sublist.map _).sum_le_sum fun _ _ => Nat.zero_le _

end Problem

namespace Tree

variable {problem : Problem α} {oracle : Oracle σ α} {clock : Clock}
  {t : Tree α} {s : σ}

/-- A turn explores a node at the cost of one unit of twice the surplus and the number
of open nodes, and splits one at the cost of one unit of surplus. -/
theorem Takes.surplus_le {before after : Duration} {rest : Tree α} {node : Node α}
    {outcome : Except (SearchError α) Disposition} {turn : Turn σ α}
    (h : Takes problem oracle before after t s node rest outcome turn)
    (hweight : ∀ r f old down up, rest.Asks node →
      (∃ s', oracle.solve s node.domain (rest.remainingTime before) = (.ok (.optimal r), s')) →
      problem.Splits t.settings.feasibilityTol node.domain r f old down up →
      problem.weight down + problem.weight up = problem.weight node.domain) :
    2 * problem.surplus turn.tree.frontier.openNodes +
        turn.tree.frontier.openNodes.length + 1 ≤
      2 * problem.surplus t.frontier.openNodes + t.frontier.openNodes.length ∧
    turn.tree.stats.branched + problem.surplus turn.tree.frontier.openNodes ≤
      t.stats.branched + problem.surplus t.frontier.openNodes := by
  obtain ⟨hsettings, -, -, hbranched⟩ := h.rest_eq
  have hlength := h.openNodes_perm.length_eq
  rw [List.length_cons] at hlength
  rw [problem.surplus_perm h.openNodes_perm, problem.surplus_cons, hlength, ← hbranched]
  cases h.effect with
  | kept _ _ _ hf _ _ hb =>
      rw [hf, hb]
      omega
  | interrupted hf _ _ hb =>
      rw [hf, hb]
      omega
  | improved _ _ hf hi _ hb =>
      rw [← hi] at hf
      have hperm := Frontier.prune_perm rest.frontier turn.tree.incumbent
      have hsurplus := problem.surplus_filter_le
        (fun n => !n.canPrune turn.tree.incumbent) rest.frontier.openNodes
      have hfilter := List.length_filter_le (fun n => !n.canPrune turn.tree.incumbent)
        rest.frontier.openNodes
      rw [hf, hb, problem.surplus_perm hperm, hperm.length_eq]
      omega
  | @split _ r _ f old down up hsolves hsplits _ _ hf _ _ hb =>
      rw [hsettings] at hsplits
      have hsum := hweight r f old _ _ hsolves.asks ⟨_, hsolves.answer⟩ hsplits
      have hdown := problem.weight_pos down.domain
      have hup := problem.weight_pos up.domain
      have hperm := Frontier.push_push_perm rest.frontier up down
      rw [hf, hb, problem.surplus_perm hperm, problem.surplus_cons, problem.surplus_cons,
        hperm.length_eq, List.length_cons, List.length_cons]
      omega

variable [LawfulScalar α]

/-- The values that the oracle gives are inside the intervals of the boxes it is asked
about. -/
def AnswersInside (problem : Problem α) (oracle : Oracle σ α) (clock : Clock) (t : Tree α)
    (s : σ) : Prop :=
  ∀ d r, Answered problem oracle clock t s d (.optimal r) →
    ∀ (var : Nat) (i : Interval α) (a : α), d.get? var = some i → r.values[var]? = some a →
      i.Holds a

/-- Every open box has bounded intervals for the integral variables if the root box
has. -/
theorem openNodes_isBounded
    (hbounded : ∀ v ∈ problem.vars, v.kind.isIntegral = true → v.rootInterval.IsBounded)
    (k : Nat) : ∀ n ∈ (after problem oracle clock t s k).tree.frontier.openNodes,
      problem.IntegralIntervals Interval.IsBounded n.domain := by
  refine openNodes_invariant _ (problem.integralIntervals_rootDomain hbounded) ?_ k
  intro d r f old down up hd _ hsplits
  obtain ⟨-, -, ⟨v, hv, hkind⟩, q, hq⟩ := hsplits.value_eq
  obtain ⟨hlow, hhigh⟩ := (hd f.var v old hv hkind hsplits.get).halves hq
  exact ⟨hd.set? hsplits.down_eq hlow, hd.set? hsplits.up_eq hhigh⟩

/-- With integer bounds and values inside the boxes, every open box has integer bounds
for the integral variables and is not malformed. -/
theorem openNodes_isIntegral (hvalid : problem.fault? = none)
    (hintegral : ∀ v ∈ problem.vars, v.kind.isIntegral = true → v.rootInterval.IsIntegral)
    (hinside : AnswersInside problem oracle clock t s) (k : Nat) :
    ∀ n ∈ (after problem oracle clock t s k).tree.frontier.openNodes,
      problem.IntegralIntervals Interval.IsIntegral n.domain ∧
        n.domain.isMalformed = false := by
  refine openNodes_invariant (fun d => problem.IntegralIntervals Interval.IsIntegral d ∧
    d.isMalformed = false) ⟨problem.integralIntervals_rootDomain hintegral,
      problem.isMalformed_rootDomain hvalid⟩ ?_ k
  rintro d r f old down up ⟨hd, hformed⟩ hanswered hsplits
  obtain ⟨hvalue, -, ⟨v, hv, hkind⟩, q, hq⟩ := hsplits.value_eq
  obtain ⟨⟨hlow, hlow'⟩, hhigh, hhigh'⟩ := (hd f.var v old hv hkind hsplits.get).halves
    (hinside d r hanswered f.var old f.value hsplits.get hvalue) hq
  exact ⟨⟨hd.set? hsplits.down_eq hlow, Domain.isMalformed_set? hsplits.down_eq hformed hlow'⟩,
    hd.set? hsplits.up_eq hhigh, Domain.isMalformed_set? hsplits.up_eq hformed hhigh'⟩

/-- What a search has explored and split so far, the root box pays for. -/
theorem after_surplus_le
    (hbounded : ∀ v ∈ problem.vars, v.kind.isIntegral = true → v.rootInterval.IsBounded)
    (htol : Scalar.ofInt 0 ≤ t.settings.feasibilityTol)
    (hinside : AnswersInside problem oracle clock t s) (k : Nat) :
    (after problem oracle clock t s k).tree.stats.explored +
        2 * problem.surplus (after problem oracle clock t s k).tree.frontier.openNodes +
        (after problem oracle clock t s k).tree.frontier.openNodes.length + 1 ≤
      2 * problem.weight problem.rootDomain ∧
    (after problem oracle clock t s k).tree.stats.branched +
        problem.surplus (after problem oracle clock t s k).tree.frontier.openNodes + 1 ≤
      problem.weight problem.rootDomain := by
  refine after_invariant (fun turn => turn.tree.stats.explored +
      2 * problem.surplus turn.tree.frontier.openNodes +
      turn.tree.frontier.openNodes.length + 1 ≤ 2 * problem.weight problem.rootDomain ∧
    turn.tree.stats.branched + problem.surplus turn.tree.frontier.openNodes + 1 ≤
      problem.weight problem.rootDomain) ?_ ?_ k
  · have hpos := problem.weight_pos problem.rootDomain
    have hroot : problem.surplus [.root problem.rootDomain] =
        problem.weight problem.rootDomain - 1 := problem.surplus_cons _ _
    have hexplored : (t.restart problem.rootDomain (clock 0)).stats.explored = 0 := rfl
    have hbranched : (t.restart problem.rootDomain (clock 0)).stats.branched = 0 := rfl
    simp only [openNodes_restart, hroot, hexplored, hbranched, List.length_singleton]
    omega
  · intro k node rest outcome turn hk hinv htakes
    obtain ⟨-, hexplored⟩ := htakes.settings_and_explored
    obtain ⟨hturns, hsplits⟩ := htakes.surplus_le (by
      intro r f old down up hasks ⟨s', hanswer⟩ hsplits
      rw [(settings_and_explored_after hk).1] at hsplits
      obtain ⟨hvalue, -, ⟨v, hv, hkind⟩, -⟩ := hsplits.value_eq
      have hnode := openNodes_isBounded hbounded k node
        (htakes.openNodes_perm.mem_iff.mpr List.mem_cons_self)
      exact hsplits.weight_eq htol (hnode f.var v old hv hkind hsplits.get)
        (hinside _ r (htakes.answered hk hasks hanswer) f.var old f.value hsplits.get hvalue))
    omega

/-- **Termination with an explicit bound.**  Let the integral variables of an accepted
problem have bounded root intervals, and let the oracle give values inside the boxes it is
asked about.  Then the run returns after a number of turns that is bounded by the weight
of the root box alone.  If moreover those intervals have integer ends and `N` is the size of
the grid, then a result counts at most `N - 1` split and `2 * N - 1` explored nodes, and no
box is ever malformed. -/
theorem run_terminates (hvalid : problem.fault? = none)
    (hbounded : ∀ v ∈ problem.vars, v.kind.isIntegral = true → v.rootInterval.IsBounded)
    (htol : Scalar.ofInt 0 ≤ t.settings.feasibilityTol)
    (hinside : AnswersInside problem oracle clock t s) :
    (∃ k ≤ 2 * problem.weight problem.rootDomain - 1,
      (∃ status result, (after problem oracle clock t s k).verdict = .ended status ∧
        (t.run problem oracle clock s).1 = .ok result) ∨
      ∃ e, (after problem oracle clock t s k).verdict = .failed e ∧
        (t.run problem oracle clock s).1 = .error e) ∧
    ((∀ v ∈ problem.vars, v.kind.isIntegral = true → v.rootInterval.IsIntegral) →
      (∀ result, (t.run problem oracle clock s).1 = .ok result →
        result.nodesBranched ≤ problem.gridSize - 1 ∧
          result.nodesExplored ≤ 2 * problem.gridSize - 1) ∧
      ∀ k, ∀ n ∈ (after problem oracle clock t s k).tree.frontier.openNodes,
        n.domain.isMalformed = false) := by
  obtain ⟨m, final, hm, rfl, hend⟩ := run_cases oracle clock t s hvalid
  constructor
  · refine ⟨m + 1, ?_, ?_⟩
    · obtain ⟨hturns, -⟩ := after_surplus_le hbounded htol hinside m
      have hopen := List.length_pos_of_ne_nil (openNodes_of_running hm)
      rw [(settings_and_explored_after hm).2] at hturns
      omega
    · rcases hend with ⟨status, hstatus, hrun⟩ | hfailed
      · exact Or.inl ⟨status, _, hstatus, hrun⟩
      · exact Or.inr hfailed
  · intro hintegral
    refine ⟨?_, fun k n hn => (openNodes_isIntegral hvalid hintegral hinside k n hn).2⟩
    intro result hresult
    obtain ⟨hturns, hsplits⟩ := after_surplus_le hbounded htol hinside (m + 1)
    rw [problem.weight_rootDomain hvalid hintegral] at hturns hsplits
    rcases hend with ⟨status, -, hrun⟩ | ⟨e, -, hrun⟩
    · obtain rfl := Except.ok.inj (hresult.symm.trans hrun)
      obtain ⟨-, -, -, hexplored, hbranched⟩ := conclude_eq
        (after problem oracle clock t s (m + 1)).tree status
        (clock (2 * (after problem oracle clock t s (m + 1)).tree.stats.explored))
      rw [hexplored, hbranched]
      omega
    · rw [hrun] at hresult
      cases hresult

omit [LawfulScalar α] in
theorem answersInside_halving (clock : Clock) (t : Tree α) :
    AnswersInside problem Oracle.halving clock t () := by
  intro d r h var i a hi ha
  rcases h.halving with hinterrupted | ⟨i', middle, hd, hholds, hr⟩
  · cases hinterrupted
  · cases hr
    rw [Domain.get?, hd] at hi
    cases var with
    | zero =>
        obtain rfl := Option.some.inj hi
        obtain rfl := Option.some.inj ha
        exact hholds
    | succ var => cases ha

/-- The sample search splits at most three nodes and explores at most seven. -/
theorem run_sample_terminates : ∃ result : Result Float,
    ((create (Settings.sample 10)).run Problem.sample Oracle.halving .frozen ()).1 =
      .ok result ∧
    result.nodesBranched ≤ 3 ∧ result.nodesExplored ≤ 7 := by
  have hvalid : (Problem.sample : Problem Float).fault? = none := by
    decide +kernel
  have hintegral : ∀ v ∈ (Problem.sample : Problem Float).vars, v.kind.isIntegral = true →
      v.rootInterval.IsIntegral := by
    intro v hv _
    rw [List.mem_singleton.mp hv]
    exact ⟨⟨0, LawfulScalar.value_ofInt 0 (by decide)⟩, ⟨3, LawfulScalar.value_ofInt 3 (by decide)⟩⟩
  have htol : (Scalar.ofInt 0 : Float) ≤
      (create (Settings.sample 10)).settings.feasibilityTol := by
    decide +kernel
  have hgrid : (Problem.sample : Problem Float).gridSize = 4 := by
    decide +kernel
  have hevaluates : ((create (Settings.sample 10 : Settings Float)).run Problem.sample
      Oracle.halving .frozen ()).1.toOption.any (fun _ => true) = true := by
    decide +kernel
  obtain ⟨result, tree, s', hrun, -⟩ := exists_result_of_any hevaluates
  have hresult := congrArg Prod.fst hrun
  obtain ⟨-, hcounts⟩ := run_terminates hvalid (fun v hv hkind => (hintegral v hv hkind).isBounded)
    htol (answersInside_halving .frozen _)
  have hbounds := (hcounts hintegral).1 result hresult
  rw [hgrid] at hbounds
  exact ⟨result, hresult, hbounds⟩

end Tree

end BranchBound
