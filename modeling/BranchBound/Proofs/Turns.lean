import BranchBound.Search
import BranchBound.Proofs.OpenNodes
import BranchBound.Proofs.Splitting

/-!
# Turns of a search

What one turn of the loop can do, said once: `Settles` lists the routes by which a
node leaves the search, each with what was asked, what was answered and the tree it
leaves behind.  `Tree.Effect` forgets the reasons and keeps what becomes of the open
nodes and of the incumbent.
-/

namespace BranchBound

variable {α : Type} [Scalar α] {σ : Type}

/-- A node that is put to the oracle: it cannot be pruned, and its box is not
malformed. -/
structure Tree.Asks (t : Tree α) (node : Node α) : Prop where
  keep : node.canPrune t.incumbent = false
  formed : node.domain.isMalformed = false

/-- The oracle answers a node with a usable solution. -/
structure Tree.Solves (oracle : Oracle σ α) (now : Duration) (t : Tree α) (s : σ)
    (node : Node α) (r : Relaxation α) (s' : σ) : Prop where
  asks : t.Asks node
  answer : oracle.solve s node.domain (t.remainingTime now) = (.ok (.optimal r), s')
  usable : r.fault? node.domain t.settings.feasibilityTol = none

/-- How a node can be settled. -/
inductive Settles (problem : Problem α) (oracle : Oracle σ α) (now : Duration)
    (t : Tree α) (s : σ) (node : Node α) :
    Except (SearchError α) Disposition → Tree α → σ → Prop
  /-- The inherited bound leaves nothing to gain. -/
  | dominated (hprune : node.canPrune t.incumbent = true) :
      Settles problem oracle now t s node (.ok .pruned) (t.discardPruned node) s
  /-- An interval of the box is empty. -/
  | malformed (hmalformed : node.domain.isMalformed = true) :
      Settles problem oracle now t s node (.ok .infeasible) (t.discardInfeasible node) s
  /-- The oracle fails. -/
  | refused {e : SearchError α} {s' : σ} (hasks : t.Asks node)
      (hanswer : oracle.solve s node.domain (t.remainingTime now) = (.error e, s')) :
      Settles problem oracle now t s node (.error e) t s'
  /-- The relaxation is infeasible. -/
  | infeasible {s' : σ} (hasks : t.Asks node)
      (hanswer : oracle.solve s node.domain (t.remainingTime now) = (.ok .infeasible, s')) :
      Settles problem oracle now t s node (.ok .infeasible) (t.discardInfeasible node) s'
  /-- The oracle runs out of time. -/
  | interrupted {s' : σ} (hasks : t.Asks node)
      (hanswer : oracle.solve s node.domain (t.remainingTime now) = (.ok .interrupted, s')) :
      Settles problem oracle now t s node (.ok .interrupted)
        { t with unresolvedBound := some node.bound } s'
  /-- The solution is not usable. -/
  | rejected {r : Relaxation α} {fault : OracleFault α} {s' : σ} (hasks : t.Asks node)
      (hanswer : oracle.solve s node.domain (t.remainingTime now) = (.ok (.optimal r), s'))
      (hfault : r.fault? node.domain t.settings.feasibilityTol = some fault) :
      Settles problem oracle now t s node (.error (.oracle fault)) t s'
  /-- The relaxation's value leaves nothing to gain. -/
  | bounded {r : Relaxation α} {s' : σ} (hsolves : t.Solves oracle now s node r s')
      (hprune : { node with relaxation := some r }.canPrune t.incumbent = true) :
      Settles problem oracle now t s node (.ok .pruned)
        ((t.noteBound node r.objective).discardPruned { node with relaxation := some r }) s'
  /-- The relaxation is integral and is offered to the incumbent. -/
  | integral {r : Relaxation α} {s' : σ} (hsolves : t.Solves oracle now s node r s')
      (hopen : { node with relaxation := some r }.canPrune t.incumbent = false)
      (hintegral : problem.isIntegral r.values t.settings.feasibilityTol = true) :
      Settles problem oracle now t s node
        (.ok (.integral (t.incumbent.improves r.objective)))
        (((t.noteBound node r.objective).updateIncumbent (problem.roundIntegers r.values)
          r.objective).2.tell
            (.nodeIntegral node.id r.objective (t.incumbent.improves r.objective))) s'
  /-- The node cannot be split. -/
  | stuck {r : Relaxation α} {s' : σ} {e : SearchError α} {journal : List (Event α)}
      (hsolves : t.Solves oracle now s node r s')
      (hopen : { node with relaxation := some r }.canPrune t.incumbent = false)
      (hfractional : problem.isIntegral r.values t.settings.feasibilityTol = false) :
      Settles problem oracle now t s node (.error e)
        { t.noteBound node r.objective with journal := journal } s'
  /-- The node is split at a fractional variable. -/
  | branched {r : Relaxation α} {s' : σ} {f : Fractional α} {old : Interval α}
      {down up : Node α} (hsolves : t.Solves oracle now s node r s')
      (hopen : { node with relaxation := some r }.canPrune t.incumbent = false)
      (hfractional : problem.isIntegral r.values t.settings.feasibilityTol = false)
      (hf : f ∈ problem.fractionalVars r.values t.settings.feasibilityTol)
      (hold : node.domain.get? f.var = some old)
      (hdown : { node with relaxation := some r }.child t.nextId
        (.down f.var old f.value) = .ok down)
      (hup : { node with relaxation := some r }.child (t.nextId + 1)
        (.up f.var old f.value) = .ok up) :
      Settles problem oracle now t s node (.ok .branched)
        { t.noteBound node r.objective with
          frontier := (t.frontier.push up).push down
          nextId := t.nextId + 2
          stats := { (t.noteBound node r.objective).stats with
            branched := (t.noteBound node r.objective).stats.branched + 1 }
          journal := .nodeBranched node.id f.var f.value r.objective :: t.journal } s'

namespace Tree

theorem updateIncumbent_fst (t : Tree α) (values : List α) (objective : α) :
    (t.updateIncumbent values objective).1 = t.incumbent.improves objective := by
  unfold updateIncumbent
  split <;> simp_all

theorem updateIncumbent_of_not_improves {t : Tree α} {objective : α}
    (h : t.incumbent.improves objective = false) (values : List α) :
    (t.updateIncumbent values objective).2 = t := by
  unfold updateIncumbent
  rw [if_neg (by simp [h])]

theorem updateIncumbent_of_improves {t : Tree α} {objective : α}
    (h : t.incumbent.improves objective = true) (values : List α) :
    ∃ journal, (t.updateIncumbent values objective).2 = { t with
      incumbent := t.incumbent.consider objective values
      frontier := t.frontier.prune (t.incumbent.consider objective values)
      stats := { t.stats with
        updates := t.stats.updates + 1
        pruned := t.stats.pruned + (t.frontier.size -
          (t.frontier.prune (t.incumbent.consider objective values)).size) }
      journal := journal } := by
  unfold updateIncumbent
  rw [if_pos h]
  simp only
  split
  · exact ⟨_, rfl⟩
  · exact ⟨t.journal, rfl⟩

omit [Scalar α] in
theorem noteBound_eq (t : Tree α) (node : Node α) (objective : α) :
    ∃ rootBound, t.noteBound node objective = { t with
      stats := { t.stats with rootBound := rootBound }
      lastBound := objective } := by
  unfold noteBound
  split
  · unfold Statistics.recordRootBound
    split
    · exact ⟨_, rfl⟩
    · exact ⟨t.stats.rootBound, rfl⟩
  · exact ⟨t.stats.rootBound, rfl⟩

/-- A solution that does not improve is only noted. -/
theorem offer_of_not_improves {t : Tree α} {objective : α}
    (h : t.incumbent.improves objective = false) (node : Node α) (values : List α) :
    ∃ rootBound, ((t.noteBound node objective).updateIncumbent values objective).2 = { t with
      stats := { t.stats with rootBound := rootBound }
      lastBound := objective } := by
  rw [updateIncumbent_of_not_improves (t := t.noteBound node objective) h]
  exact t.noteBound_eq node objective

/-- A solution that improves becomes the incumbent and prunes the frontier. -/
theorem offer_of_improves {t : Tree α} {objective : α}
    (h : t.incumbent.improves objective = true) (node : Node α) (values : List α) :
    ∃ rootBound pruned journal,
      ((t.noteBound node objective).updateIncumbent values objective).2 = { t with
        incumbent := t.incumbent.consider objective values
        frontier := t.frontier.prune (t.incumbent.consider objective values)
        stats := { t.stats with
          rootBound := rootBound
          updates := t.stats.updates + 1
          pruned := pruned }
        lastBound := objective
        journal := journal } := by
  obtain ⟨journal, hupdate⟩ :=
    updateIncumbent_of_improves (t := t.noteBound node objective) h values
  obtain ⟨rootBound, hnote⟩ := t.noteBound_eq node objective
  rw [hnote] at hupdate ⊢
  exact ⟨rootBound, _, journal, hupdate⟩

/-- Splitting a node fails without opening anything, or opens the two children of a
decision. -/
theorem splitNode_cases (t : Tree α) (problem : Problem α) (node : Node α)
    (r : Relaxation α) :
    (∃ e journal, t.splitNode problem node r = (.error e, { t with journal := journal })) ∨
      ∃ f old down up, f ∈ problem.fractionalVars r.values t.settings.feasibilityTol ∧
        node.domain.get? f.var = some old ∧
        node.child t.nextId (.down f.var old f.value) = .ok down ∧
        node.child (t.nextId + 1) (.up f.var old f.value) = .ok up ∧
        t.splitNode problem node r = (.ok .branched, { t with
          frontier := (t.frontier.push up).push down
          nextId := t.nextId + 2
          stats := { t.stats with branched := t.stats.branched + 1 }
          journal := .nodeBranched node.id f.var f.value r.objective :: t.journal }) := by
  unfold splitNode
  split
  next fault hselect => exact Or.inl ⟨_, t.journal, rfl⟩
  next hselect => exact Or.inl ⟨_, t.journal, rfl⟩
  next decision hselect =>
    obtain ⟨f, hf, old, hold, rfl⟩ := BranchingRule.select_eq_some hselect
    simp only [branch, tell]
    cases hdown : node.child t.nextId (.down f.var old f.value) with
    | error fault => exact Or.inl ⟨_, _, rfl⟩
    | ok down =>
        cases hup : node.child (t.nextId + 1) (.up f.var old f.value) with
        | error fault => exact Or.inl ⟨_, _, rfl⟩
        | ok up => exact Or.inr ⟨f, old, down, up, hf, hold, hdown, hup, rfl⟩

/-- A node with a usable solution is pruned, offered to the incumbent or split. -/
theorem settle_settles (problem : Problem α) {oracle : Oracle σ α} {now : Duration}
    {t : Tree α} {s s' : σ} {node : Node α} {r : Relaxation α}
    (hsolves : t.Solves oracle now s node r s') :
    Settles problem oracle now t s node (t.settle problem node r).1
      (t.settle problem node r).2 s' := by
  unfold settle
  simp only
  split
  next hprune => exact .bounded hsolves hprune
  next hopen =>
    have hopen' : { node with relaxation := some r }.canPrune t.incumbent = false :=
      Bool.not_eq_true _ ▸ hopen
    split
    next hintegral =>
      simp only [updateIncumbent_fst]
      exact .integral hsolves hopen' hintegral
    next hfractional =>
      have hfractional' : problem.isIntegral r.values t.settings.feasibilityTol = false :=
        Bool.not_eq_true _ ▸ hfractional
      rcases (t.noteBound node r.objective).splitNode_cases problem
        { node with relaxation := some r } r with
        ⟨e, journal, hsplit⟩ | ⟨f, old, down, up, hf, hold, hdown, hup, hsplit⟩
      · rw [hsplit]
        exact .stuck hsolves hopen' hfractional'
      · rw [hsplit]
        exact .branched hsolves hopen' hfractional' hf hold hdown hup

/-- Processing a node settles it. -/
theorem processNode_settles (problem : Problem α) (oracle : Oracle σ α) (now : Duration)
    (t : Tree α) (s : σ) (node : Node α) :
    Settles problem oracle now t s node (processNode problem oracle now t s node).outcome
      (processNode problem oracle now t s node).tree
      (processNode problem oracle now t s node).oracle := by
  unfold processNode
  split
  next hprune => exact .dominated hprune
  next hkeep =>
    split
    next hmalformed => exact .malformed hmalformed
    next hformed =>
      have hasks : t.Asks node := ⟨Bool.not_eq_true _ ▸ hkeep, Bool.not_eq_true _ ▸ hformed⟩
      rcases hanswer : oracle.solve s node.domain (t.remainingTime now) with
        ⟨e | r | _ | _, s'⟩
      · exact .refused hasks hanswer
      · simp only
        cases hfault : r.fault? node.domain t.settings.feasibilityTol with
        | some fault => exact .rejected hasks hanswer hfault
        | none => exact settle_settles problem ⟨hasks, hanswer, hfault⟩
      · exact .infeasible hasks hanswer
      · exact .interrupted hasks hanswer

/-! ## Effects -/

/-- What settling a node does to the other open nodes, to the incumbent and to the
unresolved bound. -/
inductive Effect (problem : Problem α) (oracle : Oracle σ α) (now : Duration)
    (t : Tree α) (s : σ) (node : Node α) :
    Except (SearchError α) Disposition → Tree α → Prop
  /-- Nothing. -/
  | kept {outcome : Except (SearchError α) Disposition} {tree : Tree α}
      (hsplit : outcome ≠ .ok .branched) (hresolved : outcome ≠ .ok .interrupted)
      (hworse : outcome ≠ .ok (.integral true))
      (hfrontier : tree.frontier = t.frontier) (hincumbent : tree.incumbent = t.incumbent)
      (hunresolved : tree.unresolvedBound = t.unresolvedBound)
      (hbranched : tree.stats.branched = t.stats.branched) :
      Effect problem oracle now t s node outcome tree
  /-- The node is left unresolved. -/
  | interrupted {tree : Tree α} (hfrontier : tree.frontier = t.frontier)
      (hincumbent : tree.incumbent = t.incumbent)
      (hunresolved : tree.unresolvedBound = some node.bound)
      (hbranched : tree.stats.branched = t.stats.branched) :
      Effect problem oracle now t s node (.ok .interrupted) tree
  /-- A better point replaces the incumbent and prunes the frontier. -/
  | improved {tree : Tree α} {r : Relaxation α} {s' : σ}
      (hsolves : t.Solves oracle now s node r s')
      (himproves : t.incumbent.improves r.objective = true)
      (hfrontier : tree.frontier = t.frontier.prune
        (t.incumbent.consider r.objective (problem.roundIntegers r.values)))
      (hincumbent : tree.incumbent =
        t.incumbent.consider r.objective (problem.roundIntegers r.values))
      (hunresolved : tree.unresolvedBound = t.unresolvedBound)
      (hbranched : tree.stats.branched = t.stats.branched) :
      Effect problem oracle now t s node (.ok (.integral true)) tree
  /-- The two halves of the node are opened. -/
  | split {tree : Tree α} {r : Relaxation α} {s' : σ} {f : Fractional α} {old : Interval α}
      {down up : Node α} (hsolves : t.Solves oracle now s node r s')
      (hsplits : problem.Splits t.settings.feasibilityTol node.domain r f old down.domain
        up.domain)
      (hdown : down.bound = r.objective) (hup : up.bound = r.objective)
      (hfrontier : tree.frontier = (t.frontier.push up).push down)
      (hincumbent : tree.incumbent = t.incumbent)
      (hunresolved : tree.unresolvedBound = t.unresolvedBound)
      (hbranched : tree.stats.branched = t.stats.branched + 1) :
      Effect problem oracle now t s node (.ok .branched) tree

end Tree

namespace Settles

variable {problem : Problem α} {oracle : Oracle σ α} {now : Duration} {t tree : Tree α}
  {s s' : σ} {node : Node α} {outcome : Except (SearchError α) Disposition}

theorem effect (h : Settles problem oracle now t s node outcome tree s') :
    t.Effect problem oracle now s node outcome tree := by
  cases h with
  | dominated => exact .kept (by simp) (by simp) (by simp) rfl rfl rfl rfl
  | malformed => exact .kept (by simp) (by simp) (by simp) rfl rfl rfl rfl
  | refused => exact .kept (by simp) (by simp) (by simp) rfl rfl rfl rfl
  | infeasible => exact .kept (by simp) (by simp) (by simp) rfl rfl rfl rfl
  | interrupted => exact .interrupted rfl rfl rfl rfl
  | rejected => exact .kept (by simp) (by simp) (by simp) rfl rfl rfl rfl
  | @bounded r =>
      obtain ⟨rootBound, hnote⟩ := t.noteBound_eq node r.objective
      rw [hnote]
      exact .kept (by simp) (by simp) (by simp) rfl rfl rfl rfl
  | @integral r _ hsolves =>
      by_cases himproves : t.incumbent.improves r.objective = true
      · obtain ⟨rootBound, pruned, journal, hoffer⟩ :=
          Tree.offer_of_improves himproves node (problem.roundIntegers r.values)
        rw [hoffer, himproves]
        exact .improved hsolves himproves rfl rfl rfl rfl
      · rw [Bool.not_eq_true] at himproves
        obtain ⟨rootBound, hoffer⟩ :=
          Tree.offer_of_not_improves himproves node (problem.roundIntegers r.values)
        rw [hoffer, himproves]
        exact .kept (by simp) (by simp) (by simp) rfl rfl rfl rfl
  | @stuck r =>
      obtain ⟨rootBound, hnote⟩ := t.noteBound_eq node r.objective
      rw [hnote]
      exact .kept (by simp) (by simp) (by simp) rfl rfl rfl rfl
  | @branched r _ _ _ _ _ hsolves _ _ hf hold hdown hup =>
      obtain ⟨rootBound, hnote⟩ := t.noteBound_eq node r.objective
      rw [hnote]
      exact .split hsolves (.of_child hsolves.usable hf hold hdown hup)
        (Node.child_bound hdown) (Node.child_bound hup) rfl rfl rfl rfl

/-- Settling a node changes neither the settings nor the number of explored nodes. -/
theorem settings_and_explored (h : Settles problem oracle now t s node outcome tree s') :
    tree.settings = t.settings ∧ tree.stats.explored = t.stats.explored := by
  cases h with
  | dominated => exact ⟨rfl, rfl⟩
  | malformed => exact ⟨rfl, rfl⟩
  | refused => exact ⟨rfl, rfl⟩
  | infeasible => exact ⟨rfl, rfl⟩
  | interrupted => exact ⟨rfl, rfl⟩
  | rejected => exact ⟨rfl, rfl⟩
  | @bounded r =>
      obtain ⟨rootBound, hnote⟩ := t.noteBound_eq node r.objective
      rw [hnote]
      exact ⟨rfl, rfl⟩
  | @integral r =>
      by_cases himproves : t.incumbent.improves r.objective = true
      · obtain ⟨rootBound, pruned, journal, hoffer⟩ :=
          Tree.offer_of_improves himproves node (problem.roundIntegers r.values)
        rw [hoffer]
        exact ⟨rfl, rfl⟩
      · rw [Bool.not_eq_true] at himproves
        obtain ⟨rootBound, hoffer⟩ :=
          Tree.offer_of_not_improves himproves node (problem.roundIntegers r.values)
        rw [hoffer]
        exact ⟨rfl, rfl⟩
  | @stuck r =>
      obtain ⟨rootBound, hnote⟩ := t.noteBound_eq node r.objective
      rw [hnote]
      exact ⟨rfl, rfl⟩
  | @branched r =>
      obtain ⟨rootBound, hnote⟩ := t.noteBound_eq node r.objective
      rw [hnote]
      exact ⟨rfl, rfl⟩

end Settles

end BranchBound
