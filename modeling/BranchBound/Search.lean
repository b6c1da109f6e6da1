import BranchBound.Tree

/-!
# Branch and bound

A whole search: validate the problem, open its root box, then take and settle one
node after the other until no node is open or a limit is reached.

`Tree.advance` is one turn of that loop, with the clock read before and after the
node is settled; `Tree.run` repeats it with a clock given as a sequence of
readings.  Every turn explores a node, so the node limit bounds the number of
turns.
-/

namespace BranchBound

/-- Readings of a clock, in the order in which they are taken. -/
abbrev Clock := Nat → Duration

namespace Clock

/-- A clock that stands still, an hour after it began to run. -/
def frozen : Clock := fun _ => ⟨3600000000000⟩

end Clock

/-- Whether a search goes on. -/
inductive Verdict (α : Type) where
  /-- There is more to explore. -/
  | running
  /-- The search is over. -/
  | ended (status : Status)
  /-- The search was aborted. -/
  | failed (error : SearchError α)
deriving DecidableEq, Repr

/-- A search after a turn, with its oracle of state `σ`. -/
structure Turn (σ α : Type) where
  /-- Whether the search goes on. -/
  verdict : Verdict α
  /-- The search. -/
  tree : Tree α
  /-- The oracle. -/
  oracle : σ

/-- A search that went as far as it could. -/
structure Exploration (σ α : Type) where
  /-- How it ended. -/
  outcome : Except (SearchError α) Status
  /-- The search. -/
  tree : Tree α
  /-- The oracle. -/
  oracle : σ

/-- The end of a turn: report progress and test the limits, unless the node was
interrupted or failed. -/
def Processed.toTurn {σ α : Type} [Scalar α] (p : Processed σ α) (after : Duration) :
    Turn σ α :=
  match p.outcome with
  | .error e => ⟨.failed e, p.tree, p.oracle⟩
  | .ok .interrupted =>
      ⟨.ended .timeLimit, p.tree.tell (.interrupted p.tree.stats.explored), p.oracle⟩
  | .ok _ =>
      let reported := p.tree.reportProgress after
      match reported.checkTermination after with
      | some status => ⟨.ended status, reported, p.oracle⟩
      | none => ⟨.running, reported, p.oracle⟩

namespace Tree

variable {α : Type} [Scalar α] {σ : Type}

/-- One turn: take a node, settle it, report, and test the limits. -/
def advance (problem : Problem α) (oracle : Oracle σ α) (before after : Duration)
    (t : Tree α) (state : σ) : Turn σ α :=
  match t.nextNode? with
  | none => ⟨.ended t.exhaustedStatus, t, state⟩
  | some (node, rest) => (processNode problem oracle before rest state node).toTurn after

/-- Turn after turn, at most `allowance` of them.  Turn `k` reads the clock at
`2 * k` and `2 * k + 1`. -/
def explore (problem : Problem α) (oracle : Oracle σ α) (clock : Clock) :
    (allowance k : Nat) → Tree α → σ → Exploration σ α
  | 0, _, t, state => ⟨.ok .nodeLimit, t, state⟩
  | allowance + 1, k, t, state =>
      let turn := advance problem oracle (clock (2 * k)) (clock (2 * k + 1)) t state
      match turn.verdict with
      | .running => explore problem oracle clock allowance (k + 1) turn.tree turn.oracle
      | .ended status => ⟨.ok status, turn.tree, turn.oracle⟩
      | .failed e => ⟨.error e, turn.tree, turn.oracle⟩

/-- Turns the node limit allows. -/
def allowance (t : Tree α) : Nat :=
  max 1 t.settings.maxNodes

/-- Stop the clock and build the result, telling it if that is wanted. -/
def conclude (t : Tree α) (status : Status) (now : Duration) : Result α × Tree α :=
  let stopped := t.stop now
  let result := stopped.finalize status now
  (result, if t.settings.verbose then stopped.tell (.finished result) else stopped)

/-- Run a search to its end. -/
def run (problem : Problem α) (oracle : Oracle σ α) (clock : Clock) (t : Tree α)
    (state : σ) : Except (SearchError α) (Result α) × Tree α × σ :=
  match problem.validate with
  | .error e => (.error e, t, state)
  | .ok root =>
      let begun := t.restart root (clock 0)
      let explored := explore problem oracle clock begun.allowance 0 begun state
      match explored.outcome with
      | .error e => (.error e, explored.tree, explored.oracle)
      | .ok status =>
          let now := clock (2 * explored.tree.stats.explored)
          let (result, tree) := explored.tree.conclude status now
          (.ok result, tree, explored.oracle)

end Tree

/-- Solve a problem by a search of its own. -/
def solve {α : Type} [Scalar α] {σ : Type} (problem : Problem α) (oracle : Oracle σ α)
    (settings : Settings α) (clock : Clock) (state : σ) :
    Except (SearchError α) (Result α) × Tree α × σ :=
  (Tree.create settings).run problem oracle clock state

end BranchBound
