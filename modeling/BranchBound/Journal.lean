import BranchBound.Result

/-!
# The journal

What a search tells while it runs.  Events are values; their severity and wording
are read off afterwards.
-/

namespace BranchBound

/-- Severity of a message, most severe first. -/
inductive Level where
  /-- Something failed. -/
  | error
  /-- Something is suspicious. -/
  | warn
  /-- Progress. -/
  | info
  /-- Detail. -/
  | debug
deriving DecidableEq, Repr

namespace Level

/-- Position in order of decreasing severity. -/
def rank : Level → Nat
  | error => 0
  | warn => 1
  | info => 2
  | debug => 3

/-- Whether a message of level `l` is shown when messages down to `threshold`
are. -/
def shownAt (l threshold : Level) : Bool :=
  decide (l.rank ≤ threshold.rank)

/-- The level in front of a message. -/
def label : Level → String
  | error => "ERROR"
  | warn => "WARN"
  | info => "INFO"
  | debug => "DEBUG"

end Level

/-- A message with its severity. -/
structure Message where
  /-- Severity. -/
  level : Level
  /-- Text. -/
  text : String
deriving DecidableEq, Repr

/-- Where a search stands. -/
structure Progress (α : Type) where
  /-- Nodes explored. -/
  explored : Nat
  /-- Nodes open. -/
  openNodes : Nat
  /-- Nodes discarded as infeasible. -/
  infeasible : Nat
  /-- Depth of the deepest explored node. -/
  maxDepth : Nat
  /-- Best lower bound. -/
  bound : α
  /-- Objective of the incumbent. -/
  incumbent : α
  /-- Relative gap between them. -/
  gap : α
  /-- Time taken. -/
  elapsed : Duration
deriving DecidableEq, Repr

/-- Things a search tells. -/
inductive Event (α : Type) where
  /-- A node's bound leaves nothing to gain. -/
  | nodePruned (node : Nat) (bound : α)
  /-- A node holds no point. -/
  | nodeInfeasible (node : Nat)
  /-- A node's relaxation is integral. -/
  | nodeIntegral (node : Nat) (objective : α) (improved : Bool)
  /-- A node was split. -/
  | nodeBranched (node var : Nat) (value bound : α)
  /-- A better point was found. -/
  | newIncumbent (objective : α) (pruned : Nat)
  /-- The relaxation ran out of time. -/
  | interrupted (explored : Nat)
  /-- A progress report. -/
  | progress (state : Progress α)
  /-- The search is over. -/
  | finished (result : Result α)
deriving DecidableEq, Repr

namespace Event

variable {α : Type} [Scalar α] [Printable α]

/-- Severity of an event. -/
def level : Event α → Level
  | nodePruned .. => .debug
  | nodeInfeasible .. => .debug
  | nodeIntegral .. => .debug
  | nodeBranched .. => .debug
  | newIncumbent .. => .info
  | interrupted .. => .warn
  | progress .. => .info
  | finished .. => .info

/-- Numbers in events have one leading digit and six places. -/
def number (value : α) : String :=
  Printable.scientific 6 value

/-- Wording of a progress report. -/
def progressText (p : Progress α) : String :=
  let percent := Printable.fixed 2 (p.gap * Scalar.ofInt 100)
  let seconds : α := p.elapsed.toSeconds
  s!"Nodes: {p.explored} ({p.openNodes} open, {p.infeasible} infeasible) | " ++
    s!"Depth: {p.maxDepth} | Bound: {number p.bound} | " ++
    s!"Incumbent: {number p.incumbent} | Gap: {percent}% | " ++
    s!"Time: {Printable.fixed 1 seconds}s"

/-- Wording of an event. -/
def text : Event α → String
  | nodePruned node bound => s!"Node {node} pruned by bound {number bound}"
  | nodeInfeasible node => s!"Node {node} infeasible"
  | nodeIntegral node objective improved =>
      s!"Node {node} integral: obj={number objective} improved={improved}"
  | nodeBranched node var value bound =>
      s!"Node {node} branched on x{var} = {Printable.fixed 6 value} " ++
        s!"(bound {number bound})"
  | newIncumbent objective pruned =>
      s!"New incumbent: obj={number objective}, pruned {pruned} nodes"
  | interrupted explored => s!"Relaxation interrupted at node {explored}"
  | progress state => progressText state
  | finished result => result.summary

/-- The event as a message. -/
def message (e : Event α) : Message :=
  ⟨e.level, e.text⟩

end Event

end BranchBound
