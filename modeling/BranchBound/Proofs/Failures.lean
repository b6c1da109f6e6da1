import BranchBound.Proofs.Attainment
import BranchBound.Proofs.Progress
import BranchBound.Proofs.Selection

/-!
# Failures

When the settling of a node fails, and what it leaves behind.  Before the answer of the
oracle has passed its test nothing is written down, so a failure up to there leaves the
search as it was.  After that nothing can fail: a point that does not count as integral
has a fractional variable, since the two tests are complements on finite values, and the
box has an interval for that variable, since the solution has as many values as the box
has intervals.
-/

namespace BranchBound

variable {α : Type} [Scalar α] {σ : Type}

/-! ## Solutions that are split -/

/-- A usable solution that does not count as integral has a decision, about an interval of
the box. -/
theorem BranchingRule.exists_select [LawfulScalar α]
    (rule : BranchingRule) {vars : List (Variable α)} {d : Domain α} {r : Relaxation α} {tol : α}
    (husable : r.fault? d tol = none) (htol : Scalar.isNaN tol = false)
    (hfractional : (Problem.ofVariables vars).isIntegral r.values tol = false) :
    ∃ decision, rule.select (.ofVariables vars) d r.values tol = .ok (some decision) := by
  have hfinite : ∀ a ∈ r.values, Scalar.isFinite a = true := fun a ha =>
    Relaxation.isFinite_of_mem husable ha
  have hsize : r.values.length ≤ d.size := (Relaxation.fault?_eq_none husable).1.le
  have hne : (Problem.ofVariables vars).fractionalVars r.values tol ≠ [] := by
    rw [Ne, Problem.fractionalVars_eq_nil_iff hfinite htol, Bool.not_eq_true]
    exact hfractional
  obtain ⟨decision, hselect, -⟩ := rule.exists_decides hfinite hsize hne
  exact ⟨decision, hselect⟩

namespace Tree

/-- Below the greatest depth a decision about a node has two children. -/
theorem exists_branch_of_select
    {rule : BranchingRule} {problem : Problem α} {values : List α} {tol : α}
    {decision : Decision α} (t : Tree α) (node : Node α)
    (hselect : rule.select problem node.domain values tol = .ok (some decision))
    (hdepth : node.depth < Node.maxDepth) :
    ∃ down up, t.branch node decision =
      .ok ((down, up), { t with nextId := t.nextId + 2 }) := by
  obtain ⟨f, -, old, hold, rfl⟩ := BranchingRule.select_eq_some hselect
  obtain ⟨down, hdown⟩ :=
    Node.exists_child_of_lt t.nextId (.down f.var old f.value) hold hdepth
  obtain ⟨up, hup⟩ :=
    Node.exists_child_of_lt (t.nextId + 1) (.up f.var old f.value) hold hdepth
  refine ⟨down, up, ?_⟩
  simp only [branch, hdown, hup]
  rfl

variable [LawfulScalar α] {vars : List (Variable α)} {oracle : Oracle σ α} {now : Duration}
  {t : Tree α} {s : σ} {node : Node α} {r : Relaxation α}

/-- A node whose usable solution does not count as integral is split. -/
theorem splitNode_eq_branched (t : Tree α) (node : Node α)
    (husable : r.fault? node.domain t.settings.feasibilityTol = none)
    (htol : Scalar.isNaN t.settings.feasibilityTol = false)
    (hdepth : node.depth < Node.maxDepth)
    (hfractional : (Problem.ofVariables vars).isIntegral r.values
      t.settings.feasibilityTol = false) :
    (t.splitNode (.ofVariables vars) node r).1 = .ok .branched := by
  obtain ⟨decision, hselect⟩ :=
    t.settings.branchingRule.exists_select husable htol hfractional
  obtain ⟨down, up, hbranch⟩ := exists_branch_of_select
    (t.tell (.nodeBranched node.id decision.var decision.value r.objective)) node hselect hdepth
  simp only [splitNode, hselect, hbranch]

/-- A node with a usable solution is settled. -/
theorem settle_ne_error
    (husable : r.fault? node.domain t.settings.feasibilityTol = none)
    (htol : Scalar.isNaN t.settings.feasibilityTol = false)
    (hdepth : node.depth < Node.maxDepth) (e : SearchError α) :
    (t.settle (.ofVariables vars) node r).1 ≠ .error e := by
  unfold settle
  simp only
  split
  next => simp
  next =>
    split
    next => simp
    next hfractional =>
      rw [splitNode_eq_branched (t.noteBound node r.objective) { node with relaxation := some r }
        husable htol hdepth (Bool.not_eq_true _ ▸ hfractional)]
      simp

/-! ## Failing nodes -/

/-- The oracle answers a node with an error, or with a solution that does not pass its
test. -/
def Refuses (oracle : Oracle σ α) (now : Duration) (t : Tree α) (s : σ) (node : Node α)
    (e : SearchError α) : Prop :=
  (oracle.solve s node.domain (t.remainingTime now)).1 = .error e ∨
    ∃ r fault, (oracle.solve s node.domain (t.remainingTime now)).1 = .ok (.optimal r) ∧
      r.fault? node.domain t.settings.feasibilityTol = some fault ∧ e = .oracle fault

omit [LawfulScalar α] in
/-- A node that is put to an oracle which refuses it fails. -/
theorem Refuses.processNode_eq {problem : Problem α} {e : SearchError α}
    (hasks : t.Asks node) (h : Refuses oracle now t s node e) :
    (processNode problem oracle now t s node).outcome = .error e := by
  rcases h with hanswer | ⟨r, fault, hanswer, hfault, rfl⟩
  · simp [processNode, hasks.keep, hasks.formed, hanswer]
  · simp [processNode, hasks.keep, hasks.formed, hanswer, hfault]

omit [LawfulScalar α] in
/-- Any error but that of the test is the oracle's own. -/
theorem Refuses.answer_eq {e : SearchError α} (h : Refuses oracle now t s node e)
    (hother : ∀ fault, e ≠ .oracle fault) :
    (oracle.solve s node.domain (t.remainingTime now)).1 = .error e := by
  rcases h with hanswer | ⟨r, fault, -, -, he⟩
  · exact hanswer
  · exact absurd he (hother fault)

/-- A node fails because the oracle refuses it, and leaves the search as it was. -/
theorem refuses_of_processNode_eq
    (htol : Scalar.isNaN t.settings.feasibilityTol = false)
    (hdepth : node.depth < Node.maxDepth) {e : SearchError α}
    (h : (processNode (.ofVariables vars) oracle now t s node).outcome = .error e) :
    t.Asks node ∧ Refuses oracle now t s node e ∧
      (processNode (.ofVariables vars) oracle now t s node).tree = t := by
  unfold processNode at h ⊢
  split at h
  next => cases h
  next hkeep =>
    split at h
    next => cases h
    next hformed =>
      have hasks : t.Asks node := ⟨Bool.not_eq_true _ ▸ hkeep, Bool.not_eq_true _ ▸ hformed⟩
      rw [if_neg hkeep, if_neg hformed]
      rcases hanswer : oracle.solve s node.domain (t.remainingTime now) with
        ⟨e' | r | _ | _, s'⟩
      · rw [hanswer] at h
        obtain rfl := Except.error.inj h
        exact ⟨hasks, Or.inl (congrArg Prod.fst hanswer), rfl⟩
      · simp only [hanswer] at h ⊢
        cases hfault : r.fault? node.domain t.settings.feasibilityTol with
        | some fault =>
            simp only [hfault] at h
            obtain rfl := Except.error.inj h
            exact ⟨hasks, Or.inr ⟨r, fault, congrArg Prod.fst hanswer, hfault, rfl⟩, rfl⟩
        | none =>
            simp only [hfault] at h
            exact absurd h (settle_ne_error hfault htol hdepth e)
      · rw [hanswer] at h
        cases h
      · rw [hanswer] at h
        cases h

/-- **Failures.**  Let the tolerance be a number and the node not be at the greatest depth.
A node fails exactly if it is put to the oracle and the oracle answers with an error, which
is then the error returned, or with a solution that does not pass its test.  A failure
leaves the search as it was.  Neither an internal error nor an index out of range is ever
the search's own: a solution that passes the test and does not count as integral has a
fractional variable, an interval of the box to split, and two children. -/
theorem processNode_fails_iff (vars : List (Variable α)) (oracle : Oracle σ α) (now : Duration)
    (t : Tree α) (s : σ) (node : Node α)
    (htol : Scalar.isNaN t.settings.feasibilityTol = false)
    (hdepth : node.depth < Node.maxDepth) :
    (∀ e, (processNode (.ofVariables vars) oracle now t s node).outcome = .error e ↔
      t.Asks node ∧ Refuses oracle now t s node e) ∧
    (∀ e, (processNode (.ofVariables vars) oracle now t s node).outcome = .error e →
      (processNode (.ofVariables vars) oracle now t s node).tree = t) ∧
    (∀ fault, (processNode (.ofVariables vars) oracle now t s node).outcome =
        .error (.internal fault) →
      (oracle.solve s node.domain (t.remainingTime now)).1 = .error (.internal fault)) ∧
    (∀ fault, (processNode (.ofVariables vars) oracle now t s node).outcome =
        .error (.range fault) →
      (oracle.solve s node.domain (t.remainingTime now)).1 = .error (.range fault)) ∧
    (∀ r, r.fault? node.domain t.settings.feasibilityTol = none →
      (Problem.ofVariables vars).isIntegral r.values t.settings.feasibilityTol = false →
      ∃ decision down up,
        t.settings.branchingRule.select (.ofVariables vars) node.domain r.values
          t.settings.feasibilityTol = .ok (some decision) ∧
        (t.noteBound node r.objective).branch { node with relaxation := some r } decision =
          .ok ((down, up), { t.noteBound node r.objective with nextId := t.nextId + 2 })) := by
  refine ⟨?_, ?_, ?_, ?_, ?_⟩
  · intro e
    constructor
    · intro herror
      obtain ⟨hasks, hrefuses, -⟩ := refuses_of_processNode_eq htol hdepth herror
      exact ⟨hasks, hrefuses⟩
    · rintro ⟨hasks, hrefuses⟩
      exact hrefuses.processNode_eq hasks
  · intro e herror
    exact (refuses_of_processNode_eq htol hdepth herror).2.2
  · intro fault herror
    exact (refuses_of_processNode_eq htol hdepth herror).2.1.answer_eq (by simp)
  · intro fault herror
    exact (refuses_of_processNode_eq htol hdepth herror).2.1.answer_eq (by simp)
  · intro r husable hfractional
    obtain ⟨decision, hselect⟩ :=
      t.settings.branchingRule.exists_select husable htol hfractional
    obtain ⟨down, up, hbranch⟩ := exists_branch_of_select (t.noteBound node r.objective)
      { node with relaxation := some r } hselect hdepth
    exact ⟨decision, down, up, hselect, hbranch⟩

/-- A sample search fails at a solution with two values for one variable, and stays as it
was. -/
theorem processNode_sample_fails :
    let oracle : Oracle Unit Float := .ofFunction fun _ =>
      .ok (.optimal ⟨Scalar.ofInt 0, [Scalar.ofInt 1, Scalar.ofInt 2]⟩)
    let t : Tree Float := create (Settings.sample 10)
    let processed := processNode Problem.sample oracle ⟨0⟩ t () (.root Problem.sample.rootDomain)
    processed.outcome = .error (.oracle (.valueCount 2 1)) ∧ processed.tree = t := by
  intro oracle t processed
  have htol : Scalar.isNaN t.settings.feasibilityTol = false := by decide +kernel
  have hdepth : (Node.root (Problem.sample : Problem Float).rootDomain).depth < Node.maxDepth := by
    decide +kernel
  obtain ⟨hfails, hkeeps, -⟩ := processNode_fails_iff _ oracle ⟨0⟩ t ()
    (.root (Problem.sample : Problem Float).rootDomain) htol hdepth
  have herror : processed.outcome = .error (.oracle (.valueCount 2 1)) := by
    refine (hfails _).mpr ⟨⟨by decide +kernel, by decide +kernel⟩, Or.inr ⟨_, _, rfl, ?_, rfl⟩⟩
    decide +kernel
  exact ⟨herror, hkeeps _ herror⟩

end Tree
end BranchBound
