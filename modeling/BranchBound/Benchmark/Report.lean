import BranchBound.Benchmark.Record
import BranchBound.Json.Decoding
import BranchBound.Json.Writer

/-!
# Benchmark reports

Records of a whole benchmark with their summary, as JSON and as tables of text.
-/

namespace BranchBound

namespace NodeSelection

/-- Name of the strategy in reports. -/
def label : NodeSelection → String
  | bestBound => "BestBound"
  | depthFirst => "DepthFirst"

end NodeSelection

namespace BranchingRule

/-- Name of the rule in reports. -/
def label : BranchingRule → String
  | mostFractional => "MostFractional"
  | firstFractional => "FirstFractional"

end BranchingRule

/-- Totals of a benchmark. -/
structure Summary where
  /-- Number of records. -/
  total : Nat
  /-- Records by status. -/
  optimal : Nat
  /-- Records of infeasible models. -/
  infeasible : Nat
  /-- Records of searches out of time. -/
  timeLimit : Nat
  /-- Records of searches out of nodes. -/
  nodeLimit : Nat
  /-- All other records. -/
  errors : Nat
  /-- Records that were checked. -/
  verified : Nat
  /-- Records that were checked and found wrong. -/
  mismatches : Nat
  /-- Nodes explored. -/
  totalNodes : Nat
  /-- Time taken, in seconds. -/
  totalSeconds : Float
  /-- Geometric mean of the nodes explored in proven searches. -/
  geomMeanNodes : Float
deriving DecidableEq, Repr

/-- A whole benchmark. -/
structure Report where
  /-- Name of the node selection. -/
  nodeSelection : String
  /-- Name of the branching rule. -/
  branching : String
  /-- Records in order. -/
  records : List (Record Float)
  /-- Their totals. -/
  summary : Summary
deriving DecidableEq, Repr

namespace Record

/-- Whether the status is a proof. -/
def isProven (r : Record Float) : Bool :=
  r.status == Status.optimal.label || r.status == Status.infeasible.label

/-- Names of the members of a record. -/
def memberNames : List String :=
  ["name", "n", "m", "status", "lp_relaxation", "best_objective", "best_bound",
    "nodes_explored", "nodes_pruned", "nodes_infeasible", "max_depth", "gap_percent",
    "time_s", "verified", "error"]

/-- Read a record. -/
def ofJson? (j : Json) : Option (Record Float) := do
  let number := Json.defaulted? (Json.asOption? Json.asFloat?) none
  match ← j.fields? memberNames with
  | [name, n, m, status, lpRelaxation, bestObjective, bestBound, nodesExplored,
      nodesPruned, nodesInfeasible, maxDepth, gapPercent, seconds, verified, error] =>
      return {
        name := ← Json.required? Json.asString? name
        n := ← Json.required? Json.asNat? n
        m := ← Json.required? Json.asNat? m
        status := ← Json.required? Json.asString? status
        lpRelaxation := ← number lpRelaxation
        bestObjective := ← number bestObjective
        bestBound := ← number bestBound
        nodesExplored := ← Json.required? Json.asNat? nodesExplored
        nodesPruned := ← Json.required? Json.asNat? nodesPruned
        nodesInfeasible := ← Json.defaulted? Json.asNat? 0 nodesInfeasible
        maxDepth := ← Json.defaulted? Json.asNat? 0 maxDepth
        gapPercent := ← Json.required? Json.asString? gapPercent
        seconds := ← Json.required? Json.asFloat? seconds
        verified := ← Json.defaulted? (Json.asOption? Json.asBool?) none verified
        error := ← Json.defaulted? (Json.asOption? Json.asString?) none error }
  | _ => none

/-- Write a record.  What was not checked or did not fail is left out. -/
def toJson (r : Record Float) : Json :=
  .record ([
    ("name", .ofString r.name),
    ("n", .ofNat r.n),
    ("m", .ofNat r.m),
    ("status", .ofString r.status),
    ("lp_relaxation", .ofOption .ofFloat r.lpRelaxation),
    ("best_objective", .ofOption .ofFloat r.bestObjective),
    ("best_bound", .ofOption .ofFloat r.bestBound),
    ("nodes_explored", .ofNat r.nodesExplored),
    ("nodes_pruned", .ofNat r.nodesPruned),
    ("nodes_infeasible", .ofNat r.nodesInfeasible),
    ("max_depth", .ofNat r.maxDepth),
    ("gap_percent", .ofString r.gapPercent),
    ("time_s", .ofFloat r.seconds)] ++
    (r.verified.map fun b => ("verified", Json.bool b)).toList ++
    (r.error.map fun s => ("error", Json.ofString s)).toList)

end Record

namespace Summary

/-- Geometric mean of positive counts, zero if there are none. -/
def geometricMean (counts : List Nat) : Float :=
  if counts.isEmpty then 0
  else
    let logs := counts.foldl (fun sum n => sum + Float.log (Float.ofNat n)) 0
    Float.exp (logs / Float.ofNat counts.length)

/-- Totals of some records; none if the node count leaves 64 bits. -/
def ofRecords? (records : List (Record Float)) : Option Summary :=
  let withStatus (status : Status) := records.countP fun r => r.status == status.label
  let optimal := withStatus .optimal
  let infeasible := withStatus .infeasible
  let timeLimit := withStatus .timeLimit
  let nodeLimit := withStatus .nodeLimit
  let totalNodes := (records.map Record.nodesExplored).foldl (· + ·) 0
  let proven := (records.filter fun r => r.isProven && decide (0 < r.nodesExplored)).map
    Record.nodesExplored
  if totalNodes < pow2 64 then
    some {
      total := records.length
      optimal
      infeasible
      timeLimit
      nodeLimit
      errors := records.length - (optimal + infeasible + timeLimit + nodeLimit)
      verified := records.countP fun r => r.verified.isSome
      mismatches := records.countP fun r => r.verified == some false
      totalNodes
      totalSeconds := (records.map Record.seconds).foldl (· + ·) 0
      geomMeanNodes := geometricMean proven }
  else none

/-- Write a summary. -/
def toJson (s : Summary) : Json :=
  .record [
    ("total", .ofNat s.total),
    ("optimal", .ofNat s.optimal),
    ("infeasible", .ofNat s.infeasible),
    ("time_limit", .ofNat s.timeLimit),
    ("node_limit", .ofNat s.nodeLimit),
    ("errors", .ofNat s.errors),
    ("verified", .ofNat s.verified),
    ("mismatches", .ofNat s.mismatches),
    ("total_nodes", .ofNat s.totalNodes),
    ("total_time_s", .ofFloat s.totalSeconds),
    ("geom_mean_nodes", .ofFloat s.geomMeanNodes)]

end Summary

namespace Report

/-- The report of some records; none if the node count leaves 64 bits. -/
def ofRecords? (nodeSelection branching : String) (records : List (Record Float)) :
    Option Report :=
  (Summary.ofRecords? records).map fun summary =>
    { nodeSelection, branching, records, summary }

/-- Write a report. -/
def toJson (r : Report) : Json :=
  .record [
    ("node_selection", .ofString r.nodeSelection),
    ("branching", .ofString r.branching),
    ("records", .array (r.records.map Record.toJson)),
    ("summary", r.summary.toJson)]

/-- Write a report as text. -/
def render (r : Report) : String :=
  r.toJson.render

/-! ## Tables -/

/-- Copies of a character. -/
def line (c : Char) (width : Nat) : String :=
  String.ofList (List.replicate width c)

/-- Blanks behind a text up to a width. -/
def padRight (width : Nat) (s : String) : String :=
  s ++ line ' ' (width - s.length)

/-- Blanks before a text up to a width. -/
def padLeft (width : Nat) (s : String) : String :=
  line ' ' (width - s.length) ++ s

/-- One line of the table: the name to the left, the other columns to the right. -/
def tableLine (name : String) (columns : List (Nat × String)) : String :=
  columns.foldl (fun text column => text ++ " " ++ padLeft column.1 column.2)
    (padRight 24 name)

/-- A number of the table that may be missing. -/
def cell : Option Float → String
  | some x => Printable.fixed 4 x
  | none => "-"

/-- Lines for one record. -/
def recordLines (r : Record Float) : List String :=
  [tableLine r.name [
    (5, Decimal.natText r.n),
    (5, Decimal.natText r.m),
    (10, r.status),
    (14, cell r.lpRelaxation),
    (14, cell r.bestObjective),
    (10, Decimal.natText r.nodesExplored),
    (10, r.gapPercent),
    (10, Printable.fixed 3 r.seconds)]] ++
    (r.error.map fun e => "    error: " ++ e).toList ++
    if r.verified == some false then ["    MISMATCH against brute force"] else []

/-- The table of all records. -/
def tableLines (records : List (Record Float)) : List String :=
  ["",
    tableLine "Problem" [
      (5, "n"), (5, "m"), (10, "Status"), (14, "LP Relaxation"), (14, "Best Obj"),
      (10, "Nodes"), (10, "Gap (%)"), (10, "Time (s)")],
    line '-' 110] ++
    records.flatMap recordLines

/-- Share of optimal records in percent. -/
def optimalPercent (s : Summary) : Float :=
  100 * Float.ofNat s.optimal / Float.ofNat s.total

/-- The summary in lines. -/
def summaryLines (s : Summary) : List String :=
  ["",
    line '=' 60,
    "Branch-and-Bound Benchmark Summary",
    line '=' 60,
    s!"Total problems:      {s.total}"] ++
    (if s.total = 0 then []
      else [s!"Optimal:             {s.optimal} ({Printable.fixed 1 (optimalPercent s)}%)"]) ++
    [s!"Infeasible:          {s.infeasible}",
      s!"Time limit:          {s.timeLimit}",
      s!"Node limit:          {s.nodeLimit}",
      s!"Errors:              {s.errors}"] ++
    (if s.verified = 0 then []
      else [s!"Verified:            {s.verified} ({s.mismatches} mismatches)"]) ++
    [s!"Total nodes:         {s.totalNodes}",
      s!"Total time:          {Printable.fixed 2 s.totalSeconds}s",
      s!"Geom mean nodes:     {Printable.fixed 1 s.geomMeanNodes}",
      line '=' 60]

end Report

end BranchBound
