import BranchBound.Proofs.Failures
import BranchBound.Proofs.Numbering
import BranchBound.Proofs.Termination

/-!
# Complete searches

A search of a grid of integer points whose oracle answers exactly, without limits that
could end it, proves its status and finds an optimum.  Four things come together.  Every
box that is met is a grid inside the root box; so the oracle answers, its values are
usable, and a node that is not integral can be split.  The root box pays for every
turn, so the node limit is not reached.  The reported point is an accepted solution, and
the accounts of the run say that no point improves on it.
-/

namespace BranchBound

variable {α : Type} [Scalar α] {σ : Type}

/-! ## Grids inside a box -/

/-- A box inside another one, with integer ends and no empty interval. -/
structure Domain.IsSubgrid (d root : Domain α) : Prop where
  size_eq : d.size = root.size
  integral : ∀ (j : Nat) (i : Interval α), d.get? j = some i →
    i.IsIntegral ∧ i.isEmpty = false
  inside : ∀ (j : Nat) (i i' : Interval α), d.get? j = some i → root.get? j = some i' →
    i'.lower ≤ i.lower ∧ i.upper ≤ i'.upper

namespace Domain.IsSubgrid

variable [LawfulScalar α] {d d' root : Domain α} {var : Nat} {old new : Interval α} {p : List α}

theorem holds (h : d.IsSubgrid root) (hp : d.Holds p) : root.Holds p := by
  refine holds_iff.mpr ⟨hp.length_eq.trans h.size_eq, ?_⟩
  intro j i' a hi' ha
  obtain ⟨i, hi⟩ : ∃ i, d.get? j = some i := by
    have hlt : j < d.size := by
      rw [h.size_eq]
      exact (List.getElem?_eq_some_iff.mp hi').1
    exact ⟨_, List.getElem?_eq_getElem hlt⟩
  obtain ⟨hlow, hhigh⟩ := hp.get hi ha
  obtain ⟨hlower, hupper⟩ := h.inside j i i' hi hi'
  exact ⟨Scalar.le_trans hlower hlow, Scalar.le_trans hhigh hupper⟩

/-- The coordinates of a point of a grid are finite. -/
theorem isFinite
    {a : α} {i : Interval α} (h : d.IsSubgrid root) (hp : d.Holds p)
    (hi : d.get? var = some i) (ha : p[var]? = some a) : Scalar.isFinite a = true := by
  obtain ⟨⟨⟨n, hn⟩, m, hm⟩, -⟩ := h.integral var i hi
  obtain ⟨hlow, hhigh⟩ := hp.get hi ha
  rw [LawfulScalar.le_iff_value, hn] at hlow
  rw [LawfulScalar.le_iff_value, hm] at hhigh
  rw [Scalar.isFinite_iff]
  rcases hv : Scalar.value a with _ | (_ | _) | x
  · rw [hv] at hlow
    exact hlow.elim
  · rw [hv] at hhigh
    exact absurd hhigh Bool.noConfusion
  · rw [hv] at hlow
    exact absurd hlow Bool.noConfusion
  · exact ⟨x, rfl⟩

omit [LawfulScalar α] in
theorem set?
    (h : d.IsSubgrid root) (hset : d.set? var new = some d')
    (hnew : new.IsIntegral ∧ new.isEmpty = false)
    (hinside : ∀ i', root.get? var = some i' → i'.lower ≤ new.lower ∧ new.upper ≤ i'.upper) :
    d'.IsSubgrid root := by
  refine ⟨(Domain.size_set? hset).trans h.size_eq, ?_, ?_⟩
  · intro j i hi
    rw [Domain.get?_set? hset] at hi
    split at hi
    next =>
      obtain rfl := Option.some.inj hi
      exact hnew
    next => exact h.integral j i hi
  · intro j i i' hi hi'
    rw [Domain.get?_set? hset] at hi
    split at hi
    next hj =>
      obtain rfl := Option.some.inj hi
      exact hinside i' (hj ▸ hi')
    next => exact h.inside j i i' hi hi'

/-- A grid that is split at a value inside is split into grids. -/
theorem splits
    {problem : Problem α} {tol : α} {r : Relaxation α} {f : Fractional α} {up : Domain α}
    (h : d.IsSubgrid root) (hsplits : problem.Splits tol d r f old d' up)
    (hp : d.Holds r.values) : d'.IsSubgrid root ∧ up.IsSubgrid root := by
  obtain ⟨hvalue, -, -, q, hq⟩ := hsplits.value_eq
  have hold := hp.get hsplits.get hvalue
  obtain ⟨hlow, hhigh⟩ := (h.integral f.var old hsplits.get).1.halves hold hq
  have hfloor : Scalar.floor f.value ≤ f.value := by
    rw [LawfulScalar.le_iff_value, Scalar.value_floor_of_finite hq, hq,
      Exact.finite_le_finite]
    exact Rat.floor_le q
  have hceil : f.value ≤ Scalar.ceil f.value := by
    rw [LawfulScalar.le_iff_value, Scalar.value_ceil_of_finite hq, hq,
      Exact.finite_le_finite]
    exact Rat.le_ceil
  constructor
  · apply h.set? hsplits.down_eq hlow
    intro i' hi'
    obtain ⟨hlower, hupper⟩ := h.inside f.var old i' hsplits.get hi'
    exact ⟨hlower, Scalar.le_trans hfloor (Scalar.le_trans hold.2 hupper)⟩
  · apply h.set? hsplits.up_eq hhigh
    intro i' hi'
    obtain ⟨hlower, hupper⟩ := h.inside f.var old i' hsplits.get hi'
    exact ⟨Scalar.le_trans hlower (Scalar.le_trans hold.1 hceil), hupper⟩

end Domain.IsSubgrid

theorem Problem.isSubgrid_rootDomain [LawfulScalar α]
    {problem : Problem α} (hvalid : problem.fault? = none)
    (hgrid : ∀ v ∈ problem.vars, v.rootInterval.IsIntegral) :
    problem.rootDomain.IsSubgrid problem.rootDomain := by
  have hroot : ∀ (j : Nat) (i : Interval α), problem.rootDomain.get? j = some i →
      ∃ v ∈ problem.vars, v.rootInterval = i := by
    intro j i hi
    obtain ⟨v, hv, rfl⟩ := List.mem_map.mp (List.mem_of_getElem? hi)
    exact ⟨v, hv, rfl⟩
  refine ⟨rfl, ?_, ?_⟩
  · intro j i hi
    obtain ⟨v, hv, rfl⟩ := hroot j i hi
    exact ⟨hgrid v hv, problem.isEmpty_of_fault?_eq_none hvalid hv⟩
  · intro j i i' hi hi'
    obtain rfl := Option.some.inj (hi.symm.trans hi')
    obtain ⟨v, hv, rfl⟩ := hroot j i hi
    obtain ⟨⟨n, hn⟩, m, hm⟩ := hgrid v hv
    constructor
    · exact Scalar.le_refl (Scalar.isNaN_of_isFinite (Scalar.isFinite_iff.mpr ⟨n, hn⟩))
    · exact Scalar.le_refl (Scalar.isNaN_of_isFinite (Scalar.isFinite_iff.mpr ⟨m, hm⟩))

/-! ## Exact answers -/

/-- An answer about a box that settles it: a solution in the box, no point of the box being
better, which is a point itself if it counts as integral; or the truth that there is no
point in the box. -/
def RelaxationOutcome.IsExact (problem : Problem α) (tol : α) (S : Set (List α))
    (c : List α → α) (d : Domain α) : RelaxationOutcome α → Prop
  | .optimal r => Scalar.isFinite r.objective = true ∧ d.Holds r.values ∧
      (∀ p ∈ S, d.Holds p → r.objective ≤ c p) ∧
      (problem.isIntegral r.values tol = true → r.values ∈ S ∧ c r.values = r.objective)
  | .infeasible => ∀ p ∈ S, ¬d.Holds p
  | .interrupted => False

theorem RelaxationOutcome.IsExact.isSound
    {problem : Problem α} {tol : α} {S : Set (List α)} {c : List α → α} {d : Domain α}
    {answer : RelaxationOutcome α} (h : answer.IsExact problem tol S c d) :
    answer.IsSound S c d := by
  cases answer with
  | optimal r => exact h.2.2.1
  | infeasible => exact h
  | interrupted => exact h.elim

/-- An oracle that settles every grid inside the root box. -/
def Oracle.IsExact (oracle : Oracle σ α) (problem : Problem α) (tol : α) (S : Set (List α))
    (c : List α → α) : Prop :=
  ∀ s d budget, d.IsSubgrid problem.rootDomain →
    ∃ answer s', oracle.solve s d budget = (.ok answer, s') ∧ answer.IsExact problem tol S c d

namespace Tree

variable {problem : Problem α} {oracle : Oracle σ α} {clock : Clock} {t : Tree α} {s : σ}
  {tol : α} {S : Set (List α)} {c : List α → α} {d : Domain α} {answer : RelaxationOutcome α}

theorem Answered.isExact
    (h : Answered problem oracle clock t s d answer)
    (horacle : oracle.IsExact problem tol S c) (hd : d.IsSubgrid problem.rootDomain) :
    answer.IsExact problem tol S c d := by
  obtain ⟨k, node, rest, s', -, -, -, -, hanswer⟩ := h
  obtain ⟨answer', s'', hsolve, hexact⟩ := horacle (after problem oracle clock t s k).oracle d
    (rest.remainingTime (clock (2 * k))) hd
  rw [hsolve] at hanswer
  obtain rfl := Except.ok.inj (Prod.mk.inj hanswer).1
  exact hexact

variable [LawfulScalar α]

/-- With an exact oracle every open box is a grid inside the root box. -/
theorem openNodes_isSubgrid
    (hroot : problem.rootDomain.IsSubgrid problem.rootDomain)
    (horacle : oracle.IsExact problem tol S c) (k : Nat) :
    ∀ n ∈ (after problem oracle clock t s k).tree.frontier.openNodes,
      n.domain.IsSubgrid problem.rootDomain := by
  apply openNodes_invariant (fun d => d.IsSubgrid problem.rootDomain) hroot
  intro d r f old down up hd hanswered hsplits
  exact hd.splits hsplits (hanswered.isExact horacle hd).2.1

theorem Answered.isSubgrid
    (h : Answered problem oracle clock t s d answer)
    (hroot : problem.rootDomain.IsSubgrid problem.rootDomain)
    (horacle : oracle.IsExact problem tol S c) : d.IsSubgrid problem.rootDomain :=
  of_openNodes (fun d => d.IsSubgrid problem.rootDomain) (openNodes_isSubgrid hroot horacle) h

end Tree

section

variable [LawfulScalar α]

/-- A solution inside a grid passes every test. -/
theorem Relaxation.fault?_eq_none_of_holds
    {r : Relaxation α} {d root : Domain α} {tol : α} (hd : d.IsSubgrid root)
    (htol : Scalar.ofInt 0 ≤ tol) (hobjective : Scalar.isFinite r.objective = true)
    (hp : d.Holds r.values) : r.fault? d tol = none := by
  have hvalue : ∀ entry ∈ (List.zip d.intervals r.values).zipIdx,
      valueFault? tol entry.2 entry.1.1 entry.1.2 = none := by
    rintro ⟨⟨i, a⟩, var⟩ hentry
    rw [List.mk_mem_zipIdx_iff_getElem?, List.getElem?_zip_eq_some] at hentry
    obtain ⟨hi, ha⟩ := hentry
    obtain ⟨hlow, hhigh⟩ := hp.get hi ha
    obtain ⟨⟨⟨n, hn⟩, m, hm⟩, -⟩ := hd.integral var i hi
    have hcontains : i.contains a tol = true := Interval.contains_iff.mpr
      ⟨Scalar.le_trans (Scalar.sub_le_self hn htol) hlow,
        Scalar.le_trans hhigh (Scalar.le_add_self hm htol)⟩
    simp [valueFault?, hd.isFinite hp hi ha, hcontains]
  unfold fault?
  rw [if_neg (not_not.mpr hp.length_eq), if_neg (by simp [hobjective])]
  exact List.findSome?_eq_none_iff.mpr hvalue

end

/-! ## Resolved nodes -/

/-- A node that is settled for good: without an error and without an interruption. -/
def Disposition.IsFinal (outcome : Except (SearchError α) Disposition) : Prop :=
  ∃ disposition, outcome = .ok disposition ∧ disposition ≠ .interrupted

namespace Tree

variable [LawfulScalar α] {vars : List (Variable α)} {oracle : Oracle σ α} {clock : Clock}
  {t : Tree α} {s : σ} {S : Set (List α)} {c : List α → α}

/-- A node whose box is a grid is settled for good by an exact answer. -/
theorem processNode_isFinal
    {now : Duration} {node : Node α} {root : Domain α} (hd : node.domain.IsSubgrid root)
    (htol : Scalar.ofInt 0 ≤ t.settings.feasibilityTol)
    (hdepth : node.depth < Node.maxDepth)
    (hanswer : ∃ answer s',
      oracle.solve s node.domain (t.remainingTime now) = (.ok answer, s') ∧
        answer.IsExact (.ofVariables vars) t.settings.feasibilityTol S c node.domain) :
    Disposition.IsFinal (processNode (.ofVariables vars) oracle now t s node).outcome := by
  obtain ⟨answer, s', hsolve, hexact⟩ := hanswer
  unfold processNode
  split
  · exact ⟨.pruned, rfl, by simp⟩
  · split
    · exact ⟨.infeasible, rfl, by simp⟩
    · rw [hsolve]
      cases answer with
      | infeasible => exact ⟨.infeasible, rfl, by simp⟩
      | interrupted => exact hexact.elim
      | optimal r =>
          obtain ⟨hobjective, hholds, -, -⟩ := hexact
          have husable := Relaxation.fault?_eq_none_of_holds hd htol hobjective hholds
          simp only [husable]
          unfold settle
          simp only
          split
          · exact ⟨.pruned, rfl, by simp⟩
          · split
            · exact ⟨.integral _, rfl, by simp⟩
            next hfractional =>
              refine ⟨.branched, ?_, by simp⟩
              exact splitNode_eq_branched (t.noteBound node r.objective)
                { node with relaxation := some r } husable (Scalar.isNaN_right_of_le htol)
                hdepth (Bool.not_eq_true _ ▸ hfractional)

end Tree

/-! ## Limits -/

theorem Settles.deadline_eq
    {problem : Problem α} {oracle : Oracle σ α} {now : Duration} {t tree : Tree α} {s s' : σ}
    {node : Node α} {outcome : Except (SearchError α) Disposition}
    (h : Settles problem oracle now t s node outcome tree s') :
    tree.stats.deadline = t.stats.deadline := by
  cases h with
  | dominated => rfl
  | malformed => rfl
  | refused => rfl
  | infeasible => rfl
  | interrupted => rfl
  | rejected => rfl
  | @bounded r =>
      obtain ⟨rootBound, hnote⟩ := t.noteBound_eq node r.objective
      rw [hnote]
      rfl
  | @integral r =>
      by_cases himproves : t.incumbent.improves r.objective = true
      · obtain ⟨rootBound, pruned, journal, hoffer⟩ :=
          Tree.offer_of_improves himproves node (problem.roundIntegers r.values)
        rw [hoffer]
        rfl
      · rw [Bool.not_eq_true] at himproves
        obtain ⟨rootBound, hoffer⟩ :=
          Tree.offer_of_not_improves himproves node (problem.roundIntegers r.values)
        rw [hoffer]
        rfl
  | @stuck r =>
      obtain ⟨rootBound, hnote⟩ := t.noteBound_eq node r.objective
      rw [hnote]
  | @branched r =>
      obtain ⟨rootBound, hnote⟩ := t.noteBound_eq node r.objective
      rw [hnote]

namespace Tree

theorem deadline_after
    {problem : Problem α} {oracle : Oracle σ α} {clock : Clock} {t : Tree α} {s : σ} (k : Nat) :
    (after problem oracle clock t s k).tree.stats.deadline =
      deadlineFrom t.settings (clock 0) := by
  apply after_invariant (fun turn => turn.tree.stats.deadline =
    deadlineFrom t.settings (clock 0))
  · rfl
  · intro k node rest outcome turn _ hdeadline htakes
    obtain ⟨tree, journal, hsettles, htree⟩ := htakes.settled
    rw [htree, ← hdeadline]
    refine hsettles.deadline_eq.trans ?_
    rw [(nextNode?_eq_some htakes.next).2]

theorem deadline_eq_none {problem : Problem α} {oracle : Oracle σ α} {clock : Clock} {t : Tree α}
    {s : σ} (htime : t.settings.timeLimit = none) (k : Nat) :
    (after problem oracle clock t s k).tree.stats.deadline = none := by
  rw [deadline_after, deadlineFrom, htime]
  rfl

omit [Scalar α] in
theorem isProven_exhaustedStatus (t : Tree α) : t.exhaustedStatus.isProven = true := by
  unfold exhaustedStatus
  split <;> rfl

omit [Scalar α] in
/-- Without a deadline a search goes on after a settled node if a node is open and the node
limit is not reached. -/
theorem verdict_of_deadline_eq_none {t : Tree α}
    {outcome : Except (SearchError α) Disposition} {now : Duration}
    (hfinal : Disposition.IsFinal outcome) (hdeadline : t.stats.deadline = none) :
    t.verdict outcome now =
      if t.frontier.isEmpty then .ended t.exhaustedStatus
      else if t.settings.maxNodes ≤ t.stats.explored then .ended .nodeLimit
      else .running := by
  obtain ⟨disposition, rfl, hresolved⟩ := hfinal
  have hverdict : t.verdict (.ok disposition) now =
      (t.checkTermination now).elim .running .ended := by
    cases disposition with
    | interrupted => contradiction
    | _ =>
        simp only [verdict]
        cases t.checkTermination now <;> rfl
  have htime : t.timeExceeded now = false := by
    rw [timeExceeded, hdeadline]
    rfl
  rw [hverdict, checkTermination, htime]
  by_cases hempty : t.frontier.isEmpty = true
  · simp only [hempty, if_true, Option.elim_some]
  · by_cases hlimit : t.settings.maxNodes ≤ t.stats.explored
    · simp only [hempty, hlimit, if_true, Bool.false_eq_true, if_false, Option.elim_some]
    · simp only [hempty, hlimit, Bool.false_eq_true, if_false, Option.elim_none]

omit [Scalar α] in
/-- Without a deadline and below the node limit, a search ends only when no node is
open. -/
theorem verdict_eq_ended_of_lt
    {t : Tree α} {outcome : Except (SearchError α) Disposition} {now : Duration}
    {status : Status} (hfinal : Disposition.IsFinal outcome)
    (hdeadline : t.stats.deadline = none) (hlt : t.stats.explored < t.settings.maxNodes)
    (h : t.verdict outcome now = .ended status) : status = t.exhaustedStatus := by
  rw [verdict_of_deadline_eq_none hfinal hdeadline] at h
  split at h
  · exact (Verdict.ended.inj h).symm
  · rw [if_neg (Nat.not_le_of_lt hlt)] at h
    cases h

/-! ## Whole runs -/

/-- A search of a grid of integer points with an oracle that answers exactly, and with no
limit within its reach. -/
structure IsComplete (vars : List (Variable α)) (oracle : Oracle σ α) (t : Tree α)
    (S : Set (List α)) (c : List α → α) : Prop where
  valid : (Problem.ofVariables vars).fault? = none
  isIntegral : ∀ v ∈ vars, v.kind.isIntegral = true ∧ v.rootInterval.IsIntegral
  target : (Problem.ofVariables vars).IsTarget S c
  feasibilityTol_nonneg : Scalar.ofInt 0 ≤ t.settings.feasibilityTol
  improvementTol_nonneg : Scalar.ofInt 0 ≤ t.settings.improvementTol
  timeLimit_eq : t.settings.timeLimit = none
  gridSize_le : 2 * (Problem.ofVariables vars).gridSize ≤ t.settings.maxNodes
  gridSize_le_depth : (Problem.ofVariables vars).gridSize ≤ Node.maxDepth
  answers : ∀ s d budget, d.IsSubgrid (Problem.ofVariables vars).rootDomain →
    ∃ answer s', oracle.solve s d budget = (.ok answer, s') ∧
      answer.IsExact (.ofVariables vars) t.settings.feasibilityTol S c d

namespace IsComplete

variable [LawfulScalar α] {vars : List (Variable α)} {oracle : Oracle σ α} {clock : Clock}
  {t : Tree α} {s : σ} {S : Set (List α)} {c : List α → α}

theorem isSubgrid_rootDomain (h : IsComplete vars oracle t S c) :
    (Problem.ofVariables vars).rootDomain.IsSubgrid (Problem.ofVariables vars).rootDomain :=
  Problem.isSubgrid_rootDomain h.valid fun v hv => (h.isIntegral v hv).2

theorem answered_isSubgrid
    (h : IsComplete vars oracle t S c) {d : Domain α} {answer : RelaxationOutcome α}
    (hanswered : Answered (.ofVariables vars) oracle clock t s d answer) :
    d.IsSubgrid (Problem.ofVariables vars).rootDomain :=
  hanswered.isSubgrid h.isSubgrid_rootDomain h.answers

theorem answered_isExact
    (h : IsComplete vars oracle t S c) {d : Domain α} {answer : RelaxationOutcome α}
    (hanswered : Answered (.ofVariables vars) oracle clock t s d answer) :
    answer.IsExact (.ofVariables vars) t.settings.feasibilityTol S c d :=
  hanswered.isExact h.answers (h.answered_isSubgrid hanswered)

/-- What a complete search has explored so far, and how deep it has gone. -/
theorem explored_lt (h : IsComplete vars oracle t S c) (k : Nat) :
    (after (.ofVariables vars) oracle clock t s k).tree.stats.explored < t.settings.maxNodes ∧
      ∀ n ∈ (after (.ofVariables vars) oracle clock t s k).tree.frontier.openNodes,
        n.depth < Node.maxDepth := by
  have hinside : AnswersInside (.ofVariables vars) oracle clock t s := by
    intro d r hanswered var i a hi ha
    exact (h.answered_isExact hanswered).2.1.get hi ha
  have hgrid : ∀ v ∈ (Problem.ofVariables vars).vars, v.kind.isIntegral = true →
      v.rootInterval.IsIntegral := fun v hv _ => (h.isIntegral v hv).2
  obtain ⟨hturns, hbranched⟩ := after_surplus_le (fun v hv hkind => (hgrid v hv hkind).isBounded)
    h.feasibilityTol_nonneg hinside k
  rw [Problem.weight_rootDomain h.valid hgrid] at hturns hbranched
  constructor
  · have hsize := h.gridSize_le
    omega
  · intro n hn
    have hdepth := (isShallow_after k).2 n hn
    have hsize := h.gridSize_le_depth
    omega

theorem verdict_after_succ
    (h : IsComplete vars oracle t S c) {k : Nat}
    (hk : (after (.ofVariables vars) oracle clock t s k).verdict = .running) :
    (after (.ofVariables vars) oracle clock t s (k + 1)).verdict = .running ∨
      (after (.ofVariables vars) oracle clock t s (k + 1)).verdict = .ended
        (after (.ofVariables vars) oracle clock t s (k + 1)).tree.exhaustedStatus := by
  obtain ⟨node, rest, outcome, htakes⟩ := after_takes hk
  have hnode : node ∈
      (after (.ofVariables vars) oracle clock t s k).tree.frontier.openNodes :=
    htakes.openNodes_perm.mem_iff.mpr List.mem_cons_self
  have hsettings : rest.settings = t.settings :=
    htakes.rest_eq.1.trans (settings_and_explored_after hk).1
  have hd := openNodes_isSubgrid h.isSubgrid_rootDomain h.answers k node hnode
  have hfinal : Disposition.IsFinal outcome := by
    have htol := h.feasibilityTol_nonneg
    have hanswer := h.answers (after (.ofVariables vars) oracle clock t s k).oracle
      node.domain (rest.remainingTime (clock (2 * k))) hd
    rw [← hsettings] at htol hanswer
    rw [← htakes.outcome_eq]
    exact processNode_isFinal hd htol ((h.explored_lt k).2 node hnode) hanswer
  have hlt : (after (.ofVariables vars) oracle clock t s (k + 1)).tree.stats.explored <
      (after (.ofVariables vars) oracle clock t s (k + 1)).tree.settings.maxNodes := by
    rw [htakes.settings_and_explored.1, (settings_and_explored_after hk).1]
    exact (h.explored_lt (k + 1)).1
  have hverdict := htakes.verdict_eq
  cases hnext : (after (.ofVariables vars) oracle clock t s (k + 1)).verdict with
  | running => exact Or.inl rfl
  | ended status =>
      rw [hnext] at hverdict
      rw [verdict_eq_ended_of_lt hfinal (deadline_eq_none h.timeLimit_eq (k + 1)) hlt
        hverdict.symm]
      exact Or.inr rfl
  | failed e =>
      obtain ⟨disposition, rfl, -⟩ := hfinal
      rw [hnext] at hverdict
      cases verdict_eq_failed hverdict.symm

/-- A complete search proves its status. -/
theorem run_isProven (h : IsComplete vars oracle t S c) (clock : Clock) (s : σ) :
    ∃ result tree s', t.run (.ofVariables vars) oracle clock s = (.ok result, tree, s') ∧
      result.status.isProven = true := by
  obtain ⟨m, final, hm, rfl, ⟨status, now, hended, -, hrun⟩ | ⟨e, hfailed, -⟩⟩ :=
    run_eq_after oracle clock t s h.valid
  · refine ⟨_, _, _, hrun, ?_⟩
    rw [(conclude_eq _ status now).1]
    rcases h.verdict_after_succ hm with hrunning | hexhausted
    · rw [hended] at hrunning
      cases hrunning
    · rw [hended, Verdict.ended.injEq] at hexhausted
      rw [hexhausted]
      exact isProven_exhaustedStatus _
  · rcases h.verdict_after_succ hm with hrunning | hexhausted
    · rw [hfailed] at hrunning
      cases hrunning
    · rw [hfailed] at hexhausted
      cases hexhausted

/-- A complete search finds an optimum: if there is a point, it reports one on which none
improves, and otherwise it reports infeasibility. -/
theorem run_optimum (h : IsComplete vars oracle t S c) (clock : Clock) (s : σ) :
    ∃ result, (t.run (.ofVariables vars) oracle clock s).1 = .ok result ∧
      ((result.status = .infeasible ∧ S = ∅) ∨
        ∃ x ∈ S, result.status = .optimal ∧ result.bestObjective = some (c x) ∧
          result.bestAssignment = some ((Problem.ofVariables vars).roundIntegers x) ∧
          ∀ p ∈ S, ¬c p < c x - t.settings.improvementTol *
            Scalar.maximum (Scalar.abs (c x)) (Scalar.ofInt 1)) := by
  obtain ⟨result, tree, s', hrun, hproven⟩ := h.run_isProven clock s
  have hbest : ∀ p ∈ S, result.status = .optimal ∧ ∃ z, result.bestObjective = some z ∧
      ¬c p < z - t.settings.improvementTol *
        Scalar.maximum (Scalar.abs z) (Scalar.ofInt 1) := by
    intro p hp
    exact run_not_improved h.target h.improvementTol_nonneg
      (fun d answer hanswered => (h.answered_isExact hanswered).isSound) hrun hproven hp
  refine ⟨result, congrArg Prod.fst hrun, ?_⟩
  by_cases hstatus : result.status = .optimal
  · right
    obtain ⟨z, hz⟩ := run_optimal_objective hrun hstatus
    obtain ⟨d, r, haccepted⟩ := run_isAccepted hrun hz
    obtain ⟨-, -, -, hpoint⟩ := h.answered_isExact haccepted.answered
    obtain ⟨hmem, hcost⟩ := hpoint haccepted.integral
    have hzc : z = c r.values := haccepted.objective_eq.trans hcost.symm
    subst hzc
    refine ⟨r.values, hmem, hstatus, hz, haccepted.assignment_eq, ?_⟩
    intro p hp
    obtain ⟨-, z, hz', hworse⟩ := hbest p hp
    obtain rfl := Option.some.inj (hz.symm.trans hz')
    exact hworse
  · left
    constructor
    · exact Status.eq_infeasible_of_isProven hproven hstatus
    · rw [Set.eq_empty_iff_forall_notMem]
      intro p hp
      exact hstatus (hbest p hp).1

end IsComplete

end Tree

end BranchBound
