import BranchBound.Proofs.Conservation
import BranchBound.Proofs.MonotoneBounds
import BranchBound.Proofs.NodeLimits

/-!
# Consistent results

The fields of a result come from the incumbent, from the counts, from the open nodes and from
the status, each written at its own moment.  Here it is shown that they never contradict each
other.  The incumbent and the counts keep in step turn after turn (`Tree.KeepsScore`), the root
bound is written by the first turn or by none, and a search that has proved its status gives the
same result whenever it is asked again.
-/

namespace BranchBound

variable {α : Type} [Scalar α] {σ : Type}

/-! ## Gaps -/

/-- Number systems in which the gap of a value to itself is zero. -/
class GapScalar (α : Type) [Scalar α] : Prop where
  value_zero_div {a b : α} {r : ℚ} : Scalar.value a = .finite 0 → Scalar.value b = .finite r →
    r ≠ 0 → Scalar.value (a / b) = .finite 0
  /-- The least scale of a gap is a positive number. -/
  decimal_pos : Scalar.ofInt 0 < (Scalar.decimal 1 10 : α)
  isFinite_decimal : Scalar.isFinite (Scalar.decimal 1 10 : α) = true

instance instGapScalarExact : GapScalar Exact where
  value_zero_div {a b r} ha hb hr := by
    rw [Exact.value_eq] at ha hb ⊢
    subst ha hb
    change Exact.mul (.finite 0) (Exact.inv (.finite r)) = .finite 0
    rw [Exact.inv, if_neg hr]
    exact congrArg Exact.finite (zero_mul _)
  decimal_pos := by decide +kernel
  isFinite_decimal := by decide +kernel

namespace Binary64

open Float.Model

theorem eq_zero_of_unpackedValue {u : UnpackedFloat} (h : unpackedValue u = .finite 0) :
    ∃ sign, u = .zero sign := by
  cases u with
  | notANumber => cases h
  | infinity sign => cases h
  | zero sign => exact ⟨sign, rfl⟩
  | finite sign m e hm =>
      rw [unpackedValue_finite, Exact.finite.injEq] at h
      have hpos : (0 : ℚ) < m * 2 ^ e := by positivity
      unfold withSign at h
      split at h <;> linarith

/-- Zero over a number other than zero is zero on the machine. -/
theorem floatValue_zero_div {x y : Float} {r : ℚ} (hx : floatValue x = .finite 0)
    (hy : floatValue y = .finite r) (hr : r ≠ 0) : floatValue (x / y) = .finite 0 := by
  obtain ⟨sign, hzero⟩ := eq_zero_of_unpackedValue hx
  have hquotient : ∃ sign', UnpackedFloat.div Format.binary64 x.toModel.unpack y.toModel.unpack =
      .zero sign' := by
    rw [hzero]
    change unpackedValue y.toModel.unpack = _ at hy
    cases hunpack : y.toModel.unpack with
    | notANumber =>
        rw [hunpack] at hy
        cases hy
    | infinity sign' => exact ⟨_, rfl⟩
    | zero sign' =>
        rw [hunpack, unpackedValue_zero, Exact.finite.injEq] at hy
        exact absurd hy.symm hr
    | finite sign' m e hm => exact ⟨_, rfl⟩
  obtain ⟨sign', hquotient⟩ := hquotient
  have hpacked : floatValue (x / y) = packedValue
      (UnpackedFloat.div Format.binary64 x.toModel.unpack y.toModel.unpack) :=
    floatValue_ofModel_pack (by rw [hquotient]; trivial)
  rw [hpacked, hquotient]
  exact unpackedValue_zero sign'

end Binary64

instance instGapScalarFloat : GapScalar Float where
  value_zero_div ha hb hr := by
    rw [Binary64.value_eq_floatValue] at ha hb ⊢
    exact Binary64.floatValue_zero_div ha hb hr
  decimal_pos := by decide +kernel
  isFinite_decimal := by decide +kernel

/-- The gap of a finite value to itself is zero. -/
theorem value_relativeGap_self [LawfulScalar α] [GapScalar α] {a : α}
    (ha : Scalar.isFinite a = true) : Scalar.value (relativeGap a a) = .finite 0 := by
  obtain ⟨r, hr⟩ := Scalar.isFinite_iff.mp ha
  obtain ⟨s, hs⟩ := Scalar.isFinite_iff.mp (GapScalar.isFinite_decimal (α := α))
  have hpos := GapScalar.decimal_pos (α := α)
  rw [LawfulScalar.lt_iff_value, Scalar.value_zero, hs, Exact.finite_lt_finite] at hpos
  have hdifference : Scalar.value (Scalar.abs (a - a)) = .finite 0 := by
    rw [LawfulScalar.value_abs, LawfulScalar.value_sub, hr, Exact.finite_sub_finite, sub_self,
      Scalar.rounded_zero]
    rfl
  obtain ⟨q, hq, hscale⟩ := Scalar.value_maximum_abs hr hs hpos
  rw [relativeGap, if_neg (by simp [Scalar.isInfinite, ha])]
  exact GapScalar.value_zero_div hdifference hscale hq.ne'

/-! ## Results -/

theorem Status.isLimit_eq (status : Status) : status.isLimit = !status.isProven := by
  cases status <;> rfl

/-- A result whose fields do not contradict each other. -/
structure Result.IsConsistent (r : Result α) : Prop where
  assignment_iff : r.bestAssignment.isSome = true ↔ r.bestObjective.isSome = true
  updates_iff : 1 ≤ r.incumbentUpdates ↔ r.bestObjective.isSome = true
  isFinite_objective : ∀ z, r.bestObjective = some z → Scalar.isFinite z = true
  bestBound_le : ∀ z, r.bestObjective = some z → r.bestBound ≤ z
  optimal : r.status = .optimal → r.bestObjective = some r.bestBound ∧
    Scalar.value r.finalGap = .finite 0
  infeasible : r.status = .infeasible → r.bestObjective = none ∧ r.bestBound = Scalar.posInf

/-- Settling a node notes the value of its relaxation, or leaves the open nodes and the
incumbent alone. -/
theorem Settles.noted_or_kept {problem : Problem α} {oracle : Oracle σ α} {now : Duration}
    {t tree : Tree α} {s s' : σ} {node : Node α} {outcome : Except (SearchError α) Disposition}
    (h : Settles problem oracle now t s node outcome tree s') :
    (∃ z, tree.stats.rootBound = (t.noteBound node z).stats.rootBound) ∨
      tree.frontier = t.frontier ∧ tree.incumbent = t.incumbent ∧
        tree.stats.branched = t.stats.branched := by
  cases h with
  | dominated => exact Or.inr ⟨rfl, rfl, rfl⟩
  | malformed => exact Or.inr ⟨rfl, rfl, rfl⟩
  | refused => exact Or.inr ⟨rfl, rfl, rfl⟩
  | infeasible => exact Or.inr ⟨rfl, rfl, rfl⟩
  | interrupted => exact Or.inr ⟨rfl, rfl, rfl⟩
  | rejected => exact Or.inr ⟨rfl, rfl, rfl⟩
  | @bounded r => exact Or.inl ⟨r.objective, rfl⟩
  | @integral r => exact Or.inl ⟨r.objective, Tree.updateIncumbent_rootBound _ _ _⟩
  | @stuck r => exact Or.inl ⟨r.objective, rfl⟩
  | @branched r => exact Or.inl ⟨r.objective, rfl⟩

namespace Tree

/-! ## Incumbents and their counts -/

/-- The counts of a search tell whether it has an incumbent, whose objective is finite. -/
structure KeepsScore (t : Tree α) : Prop where
  updates_eq : t.incumbent.updates = t.stats.updates
  present_iff : t.incumbent.isPresent = true ↔ 1 ≤ t.stats.updates
  isFinite_objective : t.incumbent.isPresent = true → Scalar.isFinite t.incumbent.objective = true

theorem Tally.keepsScore {problem : Problem α} {oracle : Oracle σ α} {now : Duration}
    {t tree : Tree α} {s : σ} {node : Node α} {outcome : Except (SearchError α) Disposition}
    (h : t.Tally problem oracle now s node outcome tree) (hscore : t.KeepsScore) :
    tree.KeepsScore := by
  obtain ⟨hupdates, hpresent, hfinite⟩ := hscore
  cases h with
  | kept _ _ _ _ hincumbent _ hcounts =>
      have hsame : tree.stats.updates = t.stats.updates := congrArg Counts.updates hcounts
      rw [← hincumbent, ← hsame] at hupdates hpresent
      exact ⟨hupdates, hpresent, hincumbent ▸ hfinite⟩
  | improved hsolves _ himproves _ hincumbent _ hcounts =>
      have hmore : tree.stats.updates = t.stats.updates + 1 := congrArg Counts.updates hcounts
      rw [Incumbent.consider_of_improves himproves] at hincumbent
      refine ⟨?_, ?_, ?_⟩
      · rw [hincumbent, hmore]
        exact congrArg (· + 1) hupdates
      · rw [hincumbent, hmore]
        exact ⟨fun _ => Nat.le_add_left 1 _, fun _ => rfl⟩
      · rw [hincumbent]
        exact fun _ => (Relaxation.fault?_eq_none hsolves.usable).2.1
  | split _ _ _ _ _ hincumbent _ hcounts =>
      have hsame : tree.stats.updates = t.stats.updates := congrArg Counts.updates hcounts
      rw [← hincumbent, ← hsame] at hupdates hpresent
      exact ⟨hupdates, hpresent, hincumbent ▸ hfinite⟩

variable {problem : Problem α} {oracle : Oracle σ α} {clock : Clock} {t : Tree α} {s : σ}
  {k m : Nat}

theorem keepsScore_after (k : Nat) : (after problem oracle clock t s k).tree.KeepsScore := by
  apply after_invariant (fun turn => turn.tree.KeepsScore)
  · exact ⟨rfl, iff_of_false Bool.false_ne_true (Nat.not_succ_le_zero 0),
      fun hpresent => Bool.noConfusion hpresent⟩
  · intro k node rest outcome turn _ hscore htakes
    apply htakes.tally.keepsScore
    rw [(nextNode?_eq_some htakes.next).2]
    exact ⟨hscore.updates_eq, hscore.present_iff, hscore.isFinite_objective⟩

/-! ## Root bounds -/

/-- The first turn takes the root, and nothing is left open. -/
theorem TakesAt.eq_root {node : Node α} {rest : Tree α}
    {outcome : Except (SearchError α) Disposition}
    (h : TakesAt problem oracle clock t s 0 node rest outcome) :
    node = .root problem.rootDomain ∧ rest.frontier.openNodes = [] := by
  have hopen := h.takes.openNodes_perm
  rw [after, openNodes_restart] at hopen
  obtain ⟨hnode, hrest⟩ := List.cons_eq_cons.mp (List.singleton_perm.mp hopen)
  exact ⟨hnode.symm, hrest.symm⟩

/-- Only the first turn writes the root bound. -/
theorem rootBound_after (hk : 1 ≤ k) :
    (after problem oracle clock t s k).tree.stats.rootBound =
      (after problem oracle clock t s 1).tree.stats.rootBound := by
  induction k, hk using Nat.le_induction with
  | base => rfl
  | succ k hk ih =>
      rw [← ih]
      by_cases hrunning : (after problem oracle clock t s k).verdict = .running
      · obtain ⟨node, rest, outcome, h⟩ := exists_takesAt hrunning
        obtain ⟨tree, journal, hsettles, htree⟩ := h.takes.settled
        have hrest : rest.stats.rootBound =
            (after problem oracle clock t s k).tree.stats.rootBound := by
          rw [(nextNode?_eq_some h.takes.next).2]
        rw [htree, ← hrest]
        rcases hsettles.rootBound_eq with hsame | ⟨hroot, -⟩
        · exact hsame
        · rcases openNodes_eq_root_or_isHalf problem oracle clock t s k node
            (h.takes.openNodes_perm.mem_iff.mpr List.mem_cons_self) with ⟨rfl, -⟩ | ⟨p, hhalf⟩
          · exact absurd hk (by decide)
          · rw [Node.isRoot, hhalf.fields.1] at hroot
            cases hroot
      · rw [after_succ_of_not_running hrunning]

variable (problem oracle clock t s) in
/-- The first turn settles the root, in a search that has nothing else. -/
theorem exists_firstTurn : ∃ rest outcome tree journal,
    TakesAt problem oracle clock t s 0 (.root problem.rootDomain) rest outcome ∧
      Settles problem oracle (clock 0) rest s (.root problem.rootDomain) outcome tree
        (after problem oracle clock t s 1).oracle ∧
      (after problem oracle clock t s 1).tree = { tree with journal := journal } ∧
      rest.frontier.openNodes = [] ∧ rest.incumbent.isPresent = false ∧
      rest.stats.rootBound = none ∧ rest.stats.branched = 0 := by
  have hstart : (after problem oracle clock t s 0).verdict = .running := rfl
  obtain ⟨node, rest, outcome, h⟩ := exists_takesAt hstart
  obtain ⟨tree, journal, hsettles, htree⟩ := h.takes.settled
  obtain ⟨rfl, hopen⟩ := h.eq_root
  refine ⟨rest, outcome, tree, journal, h, hsettles, htree, hopen, ?_⟩
  rw [(nextNode?_eq_some h.takes.next).2]
  exact ⟨rfl, rfl, rfl⟩

/-- The root bound is the value that the oracle gives in the first turn. -/
theorem answeredAt_of_rootBound {b : α}
    (hb : (after problem oracle clock t s 1).tree.stats.rootBound = some b) :
    ∃ r, AnsweredAt problem oracle clock t s 0 problem.rootDomain (.optimal r) ∧
      r.objective = b := by
  obtain ⟨rest, outcome, tree, journal, h, hsettles, htree, -, -, hnone, -⟩ :=
    exists_firstTurn problem oracle clock t s
  rw [htree] at hb
  rcases hsettles.rootBound_eq with hsame | ⟨-, r, hsolves, hsome⟩
  · rw [hsame, hnone] at hb
    cases hb
  · rw [hsome] at hb
    exact ⟨r, ⟨_, rest, _, h.running, h.takes.next, hsolves.asks, rfl, hsolves.answer⟩,
      Option.some.inj hb⟩

/-- Without a root bound the first turn opens nothing and finds no point. -/
theorem first_turn_of_rootBound_eq_none
    (hb : (after problem oracle clock t s 1).tree.stats.rootBound = none) :
    (after problem oracle clock t s 1).tree.frontier.openNodes = [] ∧
      (after problem oracle clock t s 1).tree.incumbent.isPresent = false ∧
      (after problem oracle clock t s 1).tree.stats.branched = 0 := by
  obtain ⟨rest, outcome, tree, journal, -, hsettles, htree, hopen, habsent, hnone, hbranched⟩ :=
    exists_firstTurn problem oracle clock t s
  rw [htree] at hb ⊢
  rcases hsettles.noted_or_kept with ⟨z, hnoted⟩ | ⟨hfrontier, hincumbent, hcount⟩
  · have hsome : (rest.noteBound (.root problem.rootDomain) z).stats.rootBound = some z := by
      simp [noteBound, Node.root, Node.isRoot, Statistics.recordRootBound, hnone]
    rw [hnoted, hsome] at hb
    cases hb
  · rw [hfrontier, hincumbent, hcount]
    exact ⟨hopen, habsent, hbranched⟩

/-! ## Ends of runs -/

/-- A concluded search can be concluded again, and gives the same result. -/
theorem conclude_again (t : Tree α) (status : Status) (now later : Duration) :
    (t.conclude status now).2.stop later = (t.conclude status now).2 ∧
      (t.conclude status now).2.finalize status later = (t.conclude status now).1 := by
  unfold conclude stop
  cases hfinish : t.stats.finish <;> cases t.settings.verbose <;> cases status <;>
    simp [tell, finalize, bestBound, Statistics.elapsed, hfinish]

namespace EndsAt

variable {result : Result α} {tree : Tree α}

theorem again (h : EndsAt problem oracle clock t s m result tree) (later : Duration) :
    tree.stop later = tree ∧ tree.finalize result.status later = result := by
  obtain ⟨now, hconclude⟩ := h.concluded
  have hagain := conclude_again (after problem oracle clock t s (m + 1)).tree result.status now later
  rwa [hconclude] at hagain

theorem incumbent_eq (h : EndsAt problem oracle clock t s m result tree) :
    tree.incumbent = (after problem oracle clock t s (m + 1)).tree.incumbent := by
  obtain ⟨now, hconclude⟩ := h.concluded
  have htree := congrArg Prod.snd hconclude
  dsimp only at htree
  rw [← htree]
  unfold conclude stop
  split <;> split <;> rfl

theorem keepsScore (h : EndsAt problem oracle clock t s m result tree) : tree.KeepsScore := by
  obtain ⟨now, hconclude⟩ := h.concluded
  obtain ⟨-, hcounts, -, -⟩ := conclude_counts (after problem oracle clock t s (m + 1)).tree
    result.status now
  rw [hconclude] at hcounts
  have hupdates : tree.stats.updates =
      (after problem oracle clock t s (m + 1)).tree.stats.updates :=
    congrArg Counts.updates hcounts
  have hscore : (after problem oracle clock t s (m + 1)).tree.KeepsScore :=
    keepsScore_after (m + 1)
  obtain ⟨heq, hpresent, hfinite⟩ := hscore
  rw [← h.incumbent_eq] at heq hpresent hfinite
  exact ⟨heq.trans hupdates.symm, hupdates ▸ hpresent, hfinite⟩

/-- A run ends because no node is open, or at a limit. -/
theorem exhausted_or_isLimit (h : EndsAt problem oracle clock t s m result tree) :
    (tree.frontier.openNodes = [] ∧ result.status = tree.exhaustedStatus) ∨
      result.status.isLimit = true := by
  obtain ⟨node, rest, outcome, htakes⟩ := after_takes h.running
  have hended := h.ended
  rw [htakes.verdict_eq] at hended
  rw [h.frontier_eq, exhaustedStatus, h.incumbent_eq, ← exhaustedStatus]
  rcases verdict_eq_ended hended with ⟨-, hstatus⟩ | ⟨-, hexhausted | ⟨-, hlimit⟩⟩
  · right
    rw [hstatus]
    rfl
  · exact Or.inl hexhausted
  · exact Or.inr hlimit

end EndsAt

variable [LawfulScalar α]

/-- The best bound is never above the objective of an incumbent. -/
theorem bestBound_le_objective {t : Tree α}
    (hfinite : Scalar.isFinite t.incumbent.objective = true) :
    t.bestBound ≤ t.incumbent.objective :=
  Scalar.minimum_le_of_isNaN _ (Scalar.isNaN_of_isFinite hfinite)

omit [Scalar α] [LawfulScalar α] in
theorem exhaustedStatus_eq_infeasible {t : Tree α} :
    t.exhaustedStatus = .infeasible ↔ t.incumbent.isPresent = false := by
  unfold exhaustedStatus
  split <;> simp_all

omit [LawfulScalar α] in
theorem finalize_bestObjective_eq_some {t : Tree α} {status : Status} {now : Duration} {z : α} :
    (t.finalize status now).bestObjective = some z ↔
      t.incumbent.isPresent = true ∧ t.incumbent.objective = z := by
  change (if t.incumbent.isPresent then some t.incumbent.objective else none) = some z ↔ _
  split <;> simp_all

/-- A search whose incumbent and counts are in step gives a consistent result, under the status
of an exhausted search and under a limit. -/
theorem KeepsScore.isConsistent [GapScalar α] {t : Tree α} (h : t.KeepsScore) {status : Status}
    (now : Duration) (hstatus : status = t.exhaustedStatus ∨ status.isLimit = true) :
    (t.finalize status now).IsConsistent := by
  have hsome : (t.finalize status now).bestObjective.isSome = true ↔
      t.incumbent.isPresent = true := by
    rw [Option.isSome_iff_exists]
    simp [finalize_bestObjective_eq_some]
  refine ⟨hsome.symm, h.present_iff.symm.trans hsome.symm, ?_, ?_, ?_, ?_⟩
  · intro z hz
    obtain ⟨hpresent, rfl⟩ := finalize_bestObjective_eq_some.mp hz
    exact h.isFinite_objective hpresent
  · intro z hz
    obtain ⟨hpresent, rfl⟩ := finalize_bestObjective_eq_some.mp hz
    have hfinite := h.isFinite_objective hpresent
    cases status with
    | optimal => exact Scalar.le_refl (Scalar.isNaN_of_isFinite hfinite)
    | infeasible =>
        have habsent := exhaustedStatus_eq_infeasible.mp (hstatus.resolve_right (by decide)).symm
        rw [hpresent] at habsent
        cases habsent
    | timeLimit => exact bestBound_le_objective hfinite
    | nodeLimit => exact bestBound_le_objective hfinite
  · rintro rfl
    have hpresent := exhaustedStatus_eq_optimal.mp (hstatus.resolve_right (by decide)).symm
    have hobjective : (t.finalize .optimal now).bestObjective = some t.incumbent.objective :=
      finalize_bestObjective_eq_some.mpr ⟨hpresent, rfl⟩
    refine ⟨hobjective, ?_⟩
    rw [Result.finalGap, hobjective]
    exact value_relativeGap_self (h.isFinite_objective hpresent)
  · rintro rfl
    have habsent := exhaustedStatus_eq_infeasible.mp (hstatus.resolve_right (by decide)).symm
    refine ⟨?_, rfl⟩
    rw [← Option.not_isSome_iff_eq_none, hsome, habsent]
    exact Bool.false_ne_true

theorem EndsAt.isConsistent [GapScalar α] {result : Result α} {tree : Tree α}
    (h : EndsAt problem oracle clock t s m result tree) : result.IsConsistent := by
  rw [← (h.again .zero).2]
  exact h.keepsScore.isConsistent .zero (h.exhausted_or_isLimit.imp_left And.right)

omit [Scalar α] [LawfulScalar α] in
theorem checkTermination_of_openNodes_eq_nil {t : Tree α} (h : t.frontier.openNodes = [])
    (now : Duration) : t.checkTermination now = some t.exhaustedStatus := by
  rw [checkTermination, if_pos (Frontier.isEmpty_iff.mpr h)]

omit [LawfulScalar α] in
/-- Without a root bound a run ends with its first turn. -/
theorem EndsAt.of_rootBound_eq_none {result : Result α} {tree : Tree α}
    (h : EndsAt problem oracle clock t s m result tree) (hroot : result.rootBound = none) :
    result.nodesExplored = 1 ∧ result.nodesBranched = 0 ∧ result.bestObjective = none := by
  rw [h.rootBound_eq, rootBound_after (Nat.le_add_left 1 m)] at hroot
  obtain ⟨hopen, habsent, hbranched⟩ := first_turn_of_rootBound_eq_none hroot
  have hfirst : m = 0 := by
    by_contra hm
    exact openNodes_of_running (running_of_le h.running (Nat.one_le_iff_ne_zero.mpr hm)) hopen
  subst hfirst
  obtain ⟨now, hconclude⟩ := h.concluded
  obtain ⟨-, -, -, -, hcount⟩ :=
    conclude_eq (after problem oracle clock t s (0 + 1)).tree result.status now
  rw [hconclude] at hcount
  refine ⟨h.nodesExplored_eq, hcount.trans hbranched, ?_⟩
  rw [h.bestObjective_eq, if_neg (by simp [habsent])]

/-- **Consistency of results.**  Every result of a run is consistent.  Its root bound is the
value that the oracle gave in the first turn of the run, about the root box, and no later turn
changes it; there is none only if the run ended with that turn, without a split or a point.  A
search that has proved its status gives that status and that result again, at any later time. -/
theorem run_result_consistent [GapScalar α] {result : Result α} {tree : Tree α} {s' : σ}
    (hrun : t.run problem oracle clock s = (.ok result, tree, s')) :
    result.IsConsistent ∧
    (∀ b, result.rootBound = some b → ∃ r, r.objective = b ∧
      AnsweredAt problem oracle clock t s 0 problem.rootDomain (.optimal r)) ∧
    (∀ k, 1 ≤ k →
      (after problem oracle clock t s k).tree.stats.rootBound = result.rootBound) ∧
    (result.rootBound = none →
      result.nodesExplored = 1 ∧ result.nodesBranched = 0 ∧ result.bestObjective = none) ∧
    (result.status.isProven = true → ∀ now, tree.checkTermination now = some result.status ∧
      tree.stop now = tree ∧ tree.finalize result.status now = result) := by
  obtain ⟨m, hends⟩ := exists_endsAt hrun
  have hroot : result.rootBound = (after problem oracle clock t s 1).tree.stats.rootBound :=
    hends.rootBound_eq.trans (rootBound_after (Nat.le_add_left 1 m))
  refine ⟨hends.isConsistent, ?_, ?_, hends.of_rootBound_eq_none, ?_⟩
  · intro b hb
    obtain ⟨r, hanswered, hr⟩ := answeredAt_of_rootBound (hroot ▸ hb)
    exact ⟨r, hr, hanswered⟩
  · intro k hk
    rw [hroot, rootBound_after hk]
  · intro hproven now
    refine ⟨?_, hends.again now⟩
    rcases hends.exhausted_or_isLimit with ⟨hopen, hstatus⟩ | hlimit
    · rw [hstatus]
      exact checkTermination_of_openNodes_eq_nil hopen now
    · rw [Status.isLimit_eq, hproven] at hlimit
      cases hlimit

/-- The sample search reports an optimum as its bound, and again an hour later. -/
theorem run_sample_consistent : ∃ (result : Result Float) (tree : Tree Float) (b : Float),
    (create (Settings.sample 10)).run Problem.sample Oracle.halving .frozen () =
      (.ok result, tree, ()) ∧
    result.status = .optimal ∧ result.bestObjective = some result.bestBound ∧
    Scalar.value result.finalGap = .finite 0 ∧ 1 ≤ result.incumbentUpdates ∧
    result.rootBound = some b ∧
    (∃ r, r.objective = b ∧ AnsweredAt Problem.sample Oracle.halving .frozen
      (create (Settings.sample 10)) () 0 Problem.sample.rootDomain (.optimal r)) ∧
    tree.finalize .optimal ⟨7200000000000⟩ = result := by
  have hevaluates : ((create (Settings.sample 10)).run Problem.sample Oracle.halving .frozen
      ()).1.toOption.any (fun result : Result Float =>
        result.status == .optimal && result.rootBound.isSome) = true := by
    decide +kernel
  obtain ⟨result, tree, s', hrun, htest⟩ := exists_result_of_any hevaluates
  rw [Bool.and_eq_true, beq_iff_eq, Option.isSome_iff_exists] at htest
  obtain ⟨hstatus, b, hb⟩ := htest
  obtain ⟨hconsistent, hroot, -, -, hagain⟩ := run_result_consistent hrun
  obtain ⟨hobjective, hgap⟩ := hconsistent.optimal hstatus
  have hupdates := hconsistent.updates_iff.mpr (by rw [hobjective]; rfl)
  rw [hstatus] at hagain
  exact ⟨result, tree, b, hrun, hstatus, hobjective, hgap, hupdates, hb, hroot b hb,
    (hagain rfl ⟨7200000000000⟩).2.2⟩

end Tree
end BranchBound
