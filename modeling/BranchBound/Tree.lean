import BranchBound.Branching
import BranchBound.Frontier
import BranchBound.Journal

/-!
# The search tree

State of one search and its elementary moves: taking the next node, settling it,
offering a point to the incumbent, testing the limits and building the result.
The whole run is in `BranchBound.Search`.

Time enters only as readings of a clock that the caller passes in.
-/

namespace BranchBound

/-- What became of a processed node. -/
inductive Disposition where
  /-- Its bound leaves nothing to gain. -/
  | pruned
  /-- Its box or its relaxation is empty. -/
  | infeasible
  /-- Its relaxation is integral. -/
  | integral (improved : Bool)
  /-- It was split in two. -/
  | branched
  /-- Its relaxation ran out of time. -/
  | interrupted
deriving DecidableEq, Repr

/-- Counts and times of one search. -/
structure Statistics (α : Type) where
  /-- Nodes taken from the frontier. -/
  explored : Nat := 0
  /-- Nodes discarded, open ones included. -/
  pruned : Nat := 0
  /-- Nodes split in two. -/
  branched : Nat := 0
  /-- Nodes discarded as infeasible. -/
  infeasible : Nat := 0
  /-- Replacements of the incumbent. -/
  updates : Nat := 0
  /-- Depth of the deepest explored node. -/
  maxDepth : Nat := 0
  /-- Value of the root relaxation. -/
  rootBound : Option α := none
  /-- When the search began. -/
  start : Option Duration := none
  /-- When its time is up. -/
  deadline : Option Duration := none
  /-- When it ended. -/
  finish : Option Duration := none
deriving DecidableEq, Repr

namespace Statistics

variable {α : Type}

/-- Keep the first value of a root relaxation. -/
def recordRootBound (s : Statistics α) (bound : α) : Statistics α :=
  match s.rootBound with
  | none => { s with rootBound := some bound }
  | some _ => s

/-- Time since the start, up to the end if there is one. -/
def elapsed (s : Statistics α) (now : Duration) : Duration :=
  match s.start with
  | none => .zero
  | some start => (s.finish.getD now).since start

end Statistics

/-- State of one search. -/
structure Tree (α : Type) where
  /-- Its settings. -/
  settings : Settings α
  /-- Open nodes. -/
  frontier : Frontier α
  /-- Best point so far. -/
  incumbent : Incumbent α
  /-- Identifier of the next node to be created. -/
  nextId : Nat
  /-- Counts and times. -/
  stats : Statistics α
  /-- Bound of the node last looked at. -/
  lastBound : α
  /-- Bound of a node whose relaxation was interrupted. -/
  unresolvedBound : Option α
  /-- What the search has told, newest first. -/
  journal : List (Event α)
deriving DecidableEq, Repr

/-- Result of processing a node with an oracle of state `σ`. -/
structure Processed (σ α : Type) where
  /-- What became of the node. -/
  outcome : Except (SearchError α) Disposition
  /-- The search afterwards. -/
  tree : Tree α
  /-- The oracle afterwards. -/
  oracle : σ

namespace Tree

variable {α : Type} [Scalar α] {σ : Type}

/-- A search that has not begun. -/
def create (settings : Settings α) : Tree α where
  settings := settings
  frontier := .empty settings.nodeSelection
  incumbent := .none settings.improvementTol
  nextId := 1
  stats := {}
  lastBound := Scalar.negInf
  unresolvedBound := none
  journal := []

/-- When the time is up for a search that begins `now`; never, if that point is
out of the clock's range. -/
def deadlineFrom (settings : Settings α) (now : Duration) : Option Duration :=
  (settings.timeLimit.map now.add).filter Duration.isRepresentable

/-- Begin a search of a box afresh; only the journal is kept. -/
def restart (t : Tree α) (root : Domain α) (now : Duration) : Tree α :=
  let fresh := create t.settings
  { fresh with
    frontier := fresh.frontier.push (.root root)
    stats := { start := some now, deadline := deadlineFrom t.settings now }
    journal := t.journal }

/-- Write an event down. -/
def tell (t : Tree α) (event : Event α) : Tree α :=
  { t with journal := event :: t.journal }

/-- Add an open node. -/
def enqueue (t : Tree α) (node : Node α) : Tree α :=
  { t with frontier := t.frontier.push node }

/-- Take the next node. -/
def nextNode? (t : Tree α) : Option (Node α × Tree α) :=
  match t.frontier.pop? with
  | none => none
  | some (node, rest) =>
      some (node, { t with
        frontier := rest
        stats := { t.stats with
          explored := t.stats.explored + 1
          maxDepth := max t.stats.maxDepth node.depth }
        lastBound := node.bound })

/-- Time left. -/
def remainingTime (t : Tree α) (now : Duration) : Option Duration :=
  t.stats.deadline.map fun deadline => deadline.since now

/-- Whether the time is up. -/
def timeExceeded (t : Tree α) (now : Duration) : Bool :=
  t.stats.deadline.any fun deadline => decide (deadline.nanoseconds ≤ now.nanoseconds)

/-- Discard a node whose bound leaves nothing to gain. -/
def discardPruned (t : Tree α) (node : Node α) : Tree α :=
  { t with stats := { t.stats with pruned := t.stats.pruned + 1 } }.tell
    (.nodePruned node.id node.bound)

/-- Discard a node without points. -/
def discardInfeasible (t : Tree α) (node : Node α) : Tree α :=
  { t with stats := { t.stats with
      pruned := t.stats.pruned + 1
      infeasible := t.stats.infeasible + 1 } }.tell (.nodeInfeasible node.id)

/-- Offer a point to the incumbent.  An improvement discards the open nodes that
it dominates. -/
def updateIncumbent (t : Tree α) (values : List α) (objective : α) : Bool × Tree α :=
  if t.incumbent.improves objective then
    let incumbent := t.incumbent.consider objective values
    let frontier := t.frontier.prune incumbent
    let pruned := t.frontier.size - frontier.size
    let updated := { t with
      incumbent
      frontier
      stats := { t.stats with
        updates := t.stats.updates + 1
        pruned := t.stats.pruned + pruned } }
    (true, if t.settings.verbose then updated.tell (.newIncumbent objective pruned) else updated)
  else (false, t)

/-- Create the two children of a decision, the down child first. -/
def branch (t : Tree α) (node : Node α) (decision : Decision α) :
    Except RangeFault ((Node α × Node α) × Tree α) := do
  let down ← node.child t.nextId decision.down
  let up ← node.child (t.nextId + 1) decision.up
  return ((down, up), { t with nextId := t.nextId + 2 })

/-- Split a node whose relaxation is solved: choose a variable, create both
children and open them, the down child last so that it is the newest.  What was told
before a failure stays told. -/
def splitNode (t : Tree α) (problem : Problem α) (node : Node α)
    (relaxation : Relaxation α) : Except (SearchError α) Disposition × Tree α :=
  match t.settings.branchingRule.select problem node.domain relaxation.values
      t.settings.feasibilityTol with
  | .error fault => (.error (.range fault), t)
  | .ok none => (.error (.internal (.noFractionalVariable node.id)), t)
  | .ok (some decision) =>
      let told := t.tell
        (.nodeBranched node.id decision.var decision.value relaxation.objective)
      match told.branch node decision with
      | .error fault => (.error (.range fault), told)
      | .ok ((down, up), grown) =>
          let opened := (grown.enqueue up).enqueue down
          (.ok .branched, { opened with
            stats := { opened.stats with branched := opened.stats.branched + 1 } })

/-- Write down the solved relaxation of a node. -/
def noteBound (t : Tree α) (node : Node α) (objective : α) : Tree α :=
  { t with
    stats := if node.isRoot then t.stats.recordRootBound objective else t.stats
    lastBound := objective }

/-- Settle a node whose relaxation is solved and usable. -/
def settle (t : Tree α) (problem : Problem α) (node : Node α) (relaxation : Relaxation α) :
    Except (SearchError α) Disposition × Tree α :=
  let noted := t.noteBound node relaxation.objective
  let bounded := { node with relaxation := some relaxation }
  if bounded.canPrune noted.incumbent then (.ok .pruned, noted.discardPruned bounded)
  else if problem.isIntegral relaxation.values noted.settings.feasibilityTol then
    let point := problem.roundIntegers relaxation.values
    let (improved, updated) := noted.updateIncumbent point relaxation.objective
    (.ok (.integral improved),
      updated.tell (.nodeIntegral node.id relaxation.objective improved))
  else noted.splitNode problem bounded relaxation

/-- Bound a node and decide its fate.  The oracle is asked only about boxes that
may still hold an improvement. -/
def processNode (problem : Problem α) (oracle : Oracle σ α) (now : Duration)
    (t : Tree α) (state : σ) (node : Node α) : Processed σ α :=
  if node.canPrune t.incumbent then ⟨.ok .pruned, t.discardPruned node, state⟩
  else if node.domain.isMalformed then
    ⟨.ok .infeasible, t.discardInfeasible node, state⟩
  else
    let (answer, state) := oracle.solve state node.domain (t.remainingTime now)
    match answer with
    | .error e => ⟨.error e, t, state⟩
    | .ok .infeasible => ⟨.ok .infeasible, t.discardInfeasible node, state⟩
    | .ok .interrupted =>
        ⟨.ok .interrupted, { t with unresolvedBound := some node.bound }, state⟩
    | .ok (.optimal relaxation) =>
        match relaxation.fault? node.domain t.settings.feasibilityTol with
        | some fault => ⟨.error (.oracle fault), t, state⟩
        | none =>
            let (outcome, settled) := t.settle problem node relaxation
            ⟨outcome, settled, state⟩

/-- Status of a search without open nodes. -/
def exhaustedStatus (t : Tree α) : Status :=
  if t.incumbent.isPresent then .optimal else .infeasible

/-- Why the search should end, if it should. -/
def checkTermination (t : Tree α) (now : Duration) : Option Status :=
  if t.frontier.isEmpty then some t.exhaustedStatus
  else if t.timeExceeded now then some .timeLimit
  else if t.settings.maxNodes ≤ t.stats.explored then some .nodeLimit
  else none

/-- Stop the clock; it stays at the first stop. -/
def stop (t : Tree α) (now : Duration) : Tree α :=
  match t.stats.finish with
  | some _ => t
  | none => { t with stats := { t.stats with finish := some now } }

/-- Best lower bound: the least over open and unresolved nodes, or else the bound
of the node last looked at, and never above the incumbent. -/
def bestBound (t : Tree α) : α :=
  let least :=
    match t.unresolvedBound with
    | some bound => Scalar.minimum bound t.frontier.bestBound
    | none => if t.frontier.isEmpty then t.lastBound else t.frontier.bestBound
  Scalar.minimum least t.incumbent.objective

/-- Relative gap between the incumbent and the best bound. -/
def gap (t : Tree α) : α :=
  t.incumbent.gap t.bestBound

/-- The result under a status. -/
def finalize (t : Tree α) (status : Status) (now : Duration) : Result α where
  status := status
  bestObjective := if t.incumbent.isPresent then some t.incumbent.objective else none
  bestAssignment := t.incumbent.assignment
  rootBound := t.stats.rootBound
  bestBound :=
    match status with
    | .optimal => t.incumbent.objective
    | .infeasible => Scalar.posInf
    | .timeLimit => t.bestBound
    | .nodeLimit => t.bestBound
  nodesExplored := t.stats.explored
  nodesPruned := t.stats.pruned
  nodesBranched := t.stats.branched
  nodesInfeasible := t.stats.infeasible
  maxDepth := t.stats.maxDepth
  incumbentUpdates := t.stats.updates
  elapsed := t.stats.elapsed now

/-- Where the search stands. -/
def progress (t : Tree α) (now : Duration) : Progress α where
  explored := t.stats.explored
  openNodes := t.frontier.size
  infeasible := t.stats.infeasible
  maxDepth := t.stats.maxDepth
  bound := t.bestBound
  incumbent := t.incumbent.objective
  gap := t.gap
  elapsed := t.stats.elapsed now

/-- Report progress, if that is wanted and due. -/
def reportProgress (t : Tree α) (now : Duration) : Tree α :=
  if t.settings.verbose && t.stats.explored % max t.settings.logFreq 1 == 0 then
    t.tell (.progress (t.progress now))
  else t

/-- Everything told so far, oldest first. -/
def events (t : Tree α) : List (Event α) :=
  t.journal.reverse

end Tree

end BranchBound
