import BranchBound.Proofs.LoopHeads
import BranchBound.Proofs.Thresholds

/-!
# Accounting for points

A search *accounts* for a point at its cost if the point lies in an open node whose
bound is not above the cost, if the point does not improve on the incumbent, or if
the cost is not below the bound of an unresolved node.  A search whose oracle gives
sound answers accounts for every lattice point, turn after turn.
-/

namespace BranchBound

variable {α : Type} [Scalar α] {σ : Type}

/-! ## Targets and sound answers -/

/-- Points with costs that a search of a problem has to account for. -/
structure Problem.IsTarget (problem : Problem α) (S : Set (List α)) (c : List α → α) :
    Prop where
  isLatticePoint : ∀ p ∈ S, problem.IsLatticePoint p
  isNaN_cost : ∀ p ∈ S, Scalar.isNaN (c p) = false

/-- An answer about a box that contradicts no point: the relaxation has a value at most
the cost of every point in the box, or there is none. -/
def RelaxationOutcome.IsSound (S : Set (List α)) (c : List α → α) (d : Domain α) :
    RelaxationOutcome α → Prop
  | .optimal r => ∀ p ∈ S, d.Holds p → r.objective ≤ c p
  | .infeasible => ∀ p ∈ S, ¬d.Holds p
  | .interrupted => True

namespace Tree

/-! ## Tidy searches -/

/-- A search whose frontier is in order, whose bounds are numbers and whose incumbent
is valid. -/
structure IsTidy (t : Tree α) : Prop where
  ordered : t.frontier.IsOrdered
  isNaN_bound : ∀ n ∈ t.frontier.openNodes, Scalar.isNaN n.bound = false
  isNaN_unresolved : ∀ b, t.unresolvedBound = some b → Scalar.isNaN b = false
  valid : t.incumbent.IsValid
  tol_eq : t.incumbent.tol = t.settings.improvementTol

variable [LawfulScalar α]

theorem isTidy_restart {t : Tree α} (htol : Scalar.ofInt 0 ≤ t.settings.improvementTol)
    (root : Domain α) (now : Duration) : (t.restart root now).IsTidy where
  ordered := (Frontier.isOrdered_empty t.settings.nodeSelection).push (.root root)
  isNaN_bound n hn := by
    rw [openNodes_restart, List.mem_singleton] at hn
    rw [hn]
    exact Scalar.isNaN_left_of_le (Scalar.negInf_le Scalar.isNaN_posInf)
  isNaN_unresolved b hb := by cases hb
  valid := ⟨htol, fun hpresent => Bool.noConfusion hpresent, fun _ => rfl⟩
  tol_eq := rfl

namespace Takes

variable {problem : Problem α} {oracle : Oracle σ α} {before after : Duration}
  {t rest : Tree α} {s : σ} {node : Node α} {outcome : Except (SearchError α) Disposition}
  {turn : Turn σ α}

theorem isTidy (h : Takes problem oracle before after t s node rest outcome turn)
    (ht : t.IsTidy) : turn.tree.IsTidy := by
  obtain ⟨hsettings, hincumbent, hunresolved, -⟩ := h.rest_eq
  have hordered := ht.ordered.pop? (nextNode?_eq_some h.next).1
  have hnode : Scalar.isNaN node.bound = false :=
    ht.isNaN_bound node (h.openNodes_perm.mem_iff.mpr (by simp))
  have hrest : ∀ n ∈ rest.frontier.openNodes, Scalar.isNaN n.bound = false := fun n hn =>
    ht.isNaN_bound n (h.openNodes_perm.mem_iff.mpr (by simp [hn]))
  have htol : rest.incumbent.tol = turn.tree.settings.improvementTol := by
    rw [hincumbent, ht.tol_eq, h.settings_and_explored.1]
  have hvalid : rest.incumbent.IsValid := hincumbent ▸ ht.valid
  have hnumber : ∀ b, rest.unresolvedBound = some b → Scalar.isNaN b = false :=
    hunresolved ▸ ht.isNaN_unresolved
  cases h.effect with
  | kept _ _ _ hf hi hu =>
      rw [← hf] at hordered hrest
      rw [← hi] at hvalid htol
      exact ⟨hordered, hrest, hu ▸ hnumber, hvalid, htol⟩
  | interrupted hf hi hu =>
      rw [← hf] at hordered hrest
      rw [← hi] at hvalid htol
      refine ⟨hordered, hrest, ?_, hvalid, htol⟩
      intro b hb
      rw [hu] at hb
      exact Option.some.inj hb ▸ hnode
  | @improved _ r _ hsolves himproves hf hi hu =>
      have hfin := (Relaxation.fault?_eq_none hsolves.usable).2.1
      refine ⟨?_, ?_, hu ▸ hnumber, ?_, ?_⟩
      · rw [hf]
        exact hordered.prune _
      · intro n hn
        rw [hf, (Frontier.prune_perm _ _).mem_iff] at hn
        exact hrest n (List.mem_filter.mp hn).1
      · rw [hi]
        exact hvalid.consider himproves hfin _
      · rw [hi, Incumbent.consider_of_improves himproves]
        exact htol
  | @split _ r _ f old down up hsolves _ hdown hup hf hi hu =>
      have hobjective : Scalar.isNaN r.objective = false :=
        Scalar.isNaN_of_isFinite (Relaxation.fault?_eq_none hsolves.usable).2.1
      rw [← hi] at hvalid htol
      refine ⟨?_, ?_, hu ▸ hnumber, hvalid, htol⟩
      · rw [hf]
        exact (hordered.push _).push _
      · intro n hn
        rw [hf, (Frontier.push_push_perm _ _ _).mem_iff, List.mem_cons, List.mem_cons] at hn
        rcases hn with rfl | rfl | hn
        · rw [hdown]
          exact hobjective
        · rw [hup]
          exact hobjective
        · exact hrest n hn

end Takes

theorem isTidy_after {problem : Problem α} {oracle : Oracle σ α} {clock : Clock} {t : Tree α}
    {s : σ} (htol : Scalar.ofInt 0 ≤ t.settings.improvementTol) (k : Nat) :
    (after problem oracle clock t s k).tree.IsTidy := by
  apply after_invariant (fun turn => turn.tree.IsTidy) (isTidy_restart htol _ _)
  intro k node rest outcome turn _ htidy htakes
  exact htakes.isTidy htidy

/-! ## Points accounted for -/

omit [LawfulScalar α] in
/-- A search accounts for a point at a cost. -/
def Accounts (t : Tree α) (p : List α) (cost : α) : Prop :=
  (∃ n ∈ t.frontier.openNodes, n.domain.Holds p ∧ n.bound ≤ cost) ∨
    (t.incumbent.isPresent = true ∧ t.incumbent.improves cost = false) ∨
    ∃ b, t.unresolvedBound = some b ∧ b ≤ cost

theorem accounts_restart (t : Tree α) {root : Domain α} (now : Duration) {p : List α}
    {cost : α} (hp : root.Holds p) (hcost : Scalar.isNaN cost = false) :
    (t.restart root now).Accounts p cost := by
  left
  refine ⟨.root root, ?_, hp, Scalar.negInf_le hcost⟩
  rw [openNodes_restart]
  exact List.mem_singleton_self _

variable {problem : Problem α} {oracle : Oracle σ α} {now : Duration} {t tree : Tree α}
  {s s' : σ} {node : Node α} {outcome : Except (SearchError α) Disposition} {p : List α}
  {cost : α}

/-- What a search accounts for without the node it settles, it accounts for
afterwards. -/
theorem Effect.accounts (h : t.Effect problem oracle now s node outcome tree)
    (hvalid : t.incumbent.IsValid) (hcost : Scalar.isNaN cost = false)
    (hresolved : t.unresolvedBound = none) (hp : t.Accounts p cost) :
    tree.Accounts p cost := by
  rcases hp with ⟨n, hn, hholds, hbound⟩ | ⟨hpresent, himproves⟩ | ⟨b, hb, -⟩
  · cases h with
    | kept _ _ _ hf => exact Or.inl ⟨n, hf ▸ hn, hholds, hbound⟩
    | interrupted hf => exact Or.inl ⟨n, hf ▸ hn, hholds, hbound⟩
    | improved _ _ hf hi =>
        rw [← hi] at hf
        -- the node is open still, or the new incumbent has pruned it
        by_cases hprune : n.canPrune tree.incumbent = true
        · obtain ⟨hpresent, himproves⟩ := Incumbent.dominates_eq_true_iff.mp hprune
          right
          left
          exact ⟨hpresent,
            Incumbent.not_improves_of_not_improves_of_le himproves hbound⟩
        · left
          refine ⟨n, ?_, hholds, hbound⟩
          rw [hf, (Frontier.prune_perm _ _).mem_iff, List.mem_filter]
          exact ⟨hn, by simpa using hprune⟩
    | split _ _ _ _ hf =>
        left
        refine ⟨n, ?_, hholds, hbound⟩
        rw [hf, (Frontier.push_push_perm _ _ _).mem_iff]
        exact List.mem_cons_of_mem _ (List.mem_cons_of_mem _ hn)
  · right
    left
    cases h with
    | kept _ _ _ _ hi => exact hi ▸ ⟨hpresent, himproves⟩
    | interrupted _ hi => exact hi ▸ ⟨hpresent, himproves⟩
    | improved _ hbetter _ hi =>
        rw [hi]
        refine ⟨?_, hvalid.not_improves_consider hbetter _ hcost himproves⟩
        rw [Incumbent.consider_of_improves hbetter]
        rfl
    | split _ _ _ _ _ hi => exact hi ▸ ⟨hpresent, himproves⟩
  · rw [hresolved] at hb
    cases hb

/-- A search accounts for the points of a node once it has settled it. -/
theorem accounts_of_settles (S : Set (List α)) (c : List α → α) {disposition : Disposition}
    (h : Settles problem oracle now t s node (.ok disposition) tree s')
    (hvalid : t.incumbent.IsValid)
    (hsound : ∀ answer s', t.Asks node →
      oracle.solve s node.domain (t.remainingTime now) = (.ok answer, s') →
      answer.IsSound S c node.domain)
    (hp : p ∈ S) (hinteger : problem.IsIntegerPoint p) (hholds : node.domain.Holds p)
    (hbound : node.bound ≤ c p) : tree.Accounts p (c p) := by
  cases h with
  | dominated hprune =>
      obtain ⟨hpresent, hworse⟩ := Incumbent.dominates_eq_true_iff.mp hprune
      exact Or.inr (Or.inl ⟨hpresent,
        Incumbent.not_improves_of_not_improves_of_le hworse hbound⟩)
  | malformed hmalformed =>
      rw [hholds.isMalformed_eq_false] at hmalformed
      cases hmalformed
  | infeasible hasks hanswer => exact absurd hholds (hsound _ _ hasks hanswer p hp)
  | interrupted => exact Or.inr (Or.inr ⟨node.bound, rfl, hbound⟩)
  | bounded hsolves hprune =>
      have hle := hsound _ _ hsolves.asks hsolves.answer p hp hholds
      obtain ⟨hpresent, hworse⟩ := Incumbent.dominates_eq_true_iff.mp hprune
      exact Or.inr (Or.inl ⟨hpresent,
        Incumbent.not_improves_of_not_improves_of_le hworse hle⟩)
  | @integral r _ hsolves hopen =>
      have hle := hsound _ _ hsolves.asks hsolves.answer p hp hholds
      have hfin := (Relaxation.fault?_eq_none hsolves.usable).2.1
      have hbetter := hvalid.improves_of_not_dominates hfin hopen
      obtain ⟨rootBound, pruned, journal, hoffer⟩ :=
        offer_of_improves hbetter node (problem.roundIntegers r.values)
      have hnew := hvalid.consider hbetter hfin (problem.roundIntegers r.values)
      right
      left
      rw [hoffer]
      rw [Incumbent.consider_of_improves hbetter] at hnew ⊢
      exact ⟨rfl, hnew.not_improves_of_le hle⟩
  | @branched r _ f old down up hsolves _ _ hf hold hdown hup =>
      have hle := hsound _ _ hsolves.asks hsolves.answer p hp hholds
      have hsplits := Problem.Splits.of_child hsolves.usable hf hold hdown hup
      left
      rcases hsplits.down_or_up hholds hinteger with hlow | hhigh
      · refine ⟨down, ?_, hlow, (Node.child_bound hdown).symm ▸ hle⟩
        exact (Frontier.push_push_perm _ _ _).mem_iff.mpr List.mem_cons_self
      · refine ⟨up, ?_, hhigh, (Node.child_bound hup).symm ▸ hle⟩
        exact (Frontier.push_push_perm _ _ _).mem_iff.mpr
          (List.mem_cons_of_mem _ List.mem_cons_self)

/-! ## The sample search -/

omit [LawfulScalar α] in
/-- The only coordinate of a point, as its cost. -/
def coordinate (p : List α) : α :=
  p.headD (Scalar.ofInt 0)

theorem isTarget_sample : (Problem.sample : Problem α).IsTarget
    {p | (Problem.sample : Problem α).IsLatticePoint p} coordinate := by
  refine ⟨fun p hp => hp, ?_⟩
  rintro p ⟨hholds, -⟩
  obtain ⟨a, rfl⟩ := List.length_eq_one_iff.mp hholds.length_eq
  have hget : (Problem.sample : Problem α).rootDomain.get? 0 =
      some ⟨Scalar.ofInt 0, Scalar.ofInt 3⟩ := rfl
  exact Scalar.isNaN_right_of_le (hholds.get hget rfl).1

omit [LawfulScalar α] in
/-- The lower end of the only interval is at most the coordinate of every point. -/
theorem Answered.isSound_halving {clock : Clock} {S : Set (List α)} {d : Domain α}
    {answer : RelaxationOutcome α} (h : Answered problem Oracle.halving clock t () d answer) :
    answer.IsSound S coordinate d := by
  rcases h.halving with rfl | ⟨i, middle, hd, -, rfl⟩
  · trivial
  · intro p _ hholds
    have hlength : p.length = 1 := by
      rw [hholds.length_eq, Domain.size, hd]
      rfl
    obtain ⟨a, rfl⟩ := List.length_eq_one_iff.mp hlength
    have hget : d.get? 0 = some i := by
      rw [Domain.get?, hd]
      rfl
    exact (hholds.get hget rfl).1

end Tree

end BranchBound
