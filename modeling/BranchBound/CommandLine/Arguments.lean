import BranchBound.CommandLine.Options
import BranchBound.Decimal.Reading
import BranchBound.Generator
import BranchBound.Settings

/-!
# Arguments

The commands of the benchmark program and what their arguments mean.
-/

namespace BranchBound.CommandLine

/-- How to search. -/
structure SearchArguments (α : Type) where
  /-- Order of exploration. -/
  nodeSelection : NodeSelection
  /-- Branching rule. -/
  branching : BranchingRule
  /-- Time limit in seconds. -/
  timeLimit : Option α
  /-- Node limit. -/
  maxNodes : Option Nat
  /-- Tolerance for integrality and improvement. -/
  tol : α
  /-- File for the report. -/
  output : Option String
deriving DecidableEq, Repr

/-- Solve a model file. -/
structure SolveArguments where
  /-- The file. -/
  file : String
  /-- Whether to check by enumeration. -/
  verify : Bool
  /-- Whether to print the best point. -/
  printSolution : Bool
  /-- How to search. -/
  search : SearchArguments Float
deriving DecidableEq, Repr

/-- Generate and solve models. -/
structure RandomArguments where
  /-- Number of models. -/
  count : Nat
  /-- Their shape. -/
  config : GeneratorConfig Float
  /-- Seed of the first model. -/
  seed : Nat
  /-- Whether to check by enumeration. -/
  verify : Bool
  /-- Folder for the models. -/
  saveFolder : Option String
  /-- How to search. -/
  search : SearchArguments Float
deriving DecidableEq, Repr

/-- What to do. -/
inductive Command where
  /-- Solve a model file. -/
  | solve (arguments : SolveArguments)
  /-- Generate and solve models. -/
  | random (arguments : RandomArguments)
deriving DecidableEq, Repr

/-- A command and whether to report progress. -/
structure Invocation where
  /-- The command. -/
  command : Command
  /-- Whether to report progress. -/
  verbose : Bool
deriving DecidableEq, Repr

/-- Settings of a search. -/
def SearchArguments.settings {α : Type} [Scalar α] (a : SearchArguments α) (verbose : Bool) :
    Settings α :=
  let base := (Settings.standard : Settings α).withTolerance a.tol
  let timed :=
    match a.timeLimit with
    | some seconds => base.withTimeLimit seconds
    | none => base
  { timed with
    nodeSelection := a.nodeSelection
    branchingRule := a.branching
    maxNodes := a.maxNodes.getD base.maxNodes
    verbose }

/-! ## Values -/

/-- Names of the node selections. -/
def nodeSelections : List (String × NodeSelection) :=
  [("best-bound", .bestBound), ("depth-first", .depthFirst)]

/-- Names of the branching rules. -/
def branchingRules : List (String × BranchingRule) :=
  [("most-fractional", .mostFractional), ("first-fractional", .firstFractional)]

/-- Names of the model families. -/
def instanceKinds : List (String × InstanceKind) :=
  [("packing", .packing), ("covering", .covering)]

/-- The value of a name. -/
def named? {β : Type} (names : List (String × β)) (text : String) : Option β :=
  names.lookup text

/-- Digits as a number. -/
def digits? (cs : List Char) : Option Nat :=
  if cs.isEmpty || !cs.all Decimal.isDigit then none else some (Decimal.digitsValue cs)

/-- An unsigned 64-bit number; a plus sign may lead. -/
def unsigned? (text : String) : Option Nat := do
  let n ← match text.toList with
    | '+' :: rest => digits? rest
    | cs => digits? cs
  if n < pow2 64 then some n else none

/-- A signed 64-bit number; a sign may lead. -/
def signed? (text : String) : Option Int := do
  let (minus, rest) := Decimal.splitSign text.toList
  let n ← digits? rest
  let value : Int := if minus then -n else n
  if -(pow2 63 : Int) ≤ value ∧ value < (pow2 63 : Int) then some value else none

/-! ## Options -/

/-- An option whose value can be read. -/
def reading {β : Type} (long : String) (short : Option Char) (read : String → Option β) :
    OptionSpec :=
  { long, short, role := .value fun text => (read text).isSome }

/-- An option whose value is the name of a file or folder. -/
def path (long : String) (short : Option Char) : OptionSpec :=
  { long, short, role := .value fun text => text ≠ "" }

/-- A flag. -/
def flag (long : String) (short : Option Char) : OptionSpec :=
  { long, short, role := .flag }

/-- Options of every command. -/
def commonOptions : List OptionSpec :=
  [flag "verbose" (some 'v'), { long := "help", short := some 'h', role := .help }]

/-- Options in front of the command. -/
def topOptions : List OptionSpec :=
  commonOptions ++ [{ long := "version", short := some 'V', role := .version }]

/-- Options of a search. -/
def searchOptions : List OptionSpec :=
  [reading "node-selection" none (named? nodeSelections),
    reading "branching" none (named? branchingRules),
    reading "time-limit" (some 't') Decimal.read?,
    reading "max-nodes" none unsigned?,
    reading "tol" none Decimal.read?,
    path "output" (some 'o')]

/-- Options of the command that solves a file. -/
def solveOptions : List OptionSpec :=
  commonOptions ++ searchOptions ++ [flag "verify" none, flag "print-solution" none]

/-- Options of the command that generates models. -/
def randomOptions : List OptionSpec :=
  commonOptions ++ searchOptions ++
    [reading "kind" none (named? instanceKinds),
      reading "count" (some 'n') unsigned?,
      reading "vars" none unsigned?,
      reading "constraints" none unsigned?,
      reading "density" none Decimal.read?,
      reading "max-value" none signed?,
      reading "tightness" none Decimal.read?,
      reading "seed" (some 's') unsigned?,
      flag "verify" none,
      path "save-dir" none]

/-- The value of an option, read. -/
def Scan.read? {β : Type} (s : Scan) (name : String) (read : String → Option β) : Option β :=
  (s.get? name).bind read

/-- How to search. -/
def searchArguments (s : Scan) : SearchArguments Float where
  nodeSelection := (s.read? "node-selection" (named? nodeSelections)).getD .bestBound
  branching := (s.read? "branching" (named? branchingRules)).getD .mostFractional
  timeLimit := s.read? "time-limit" Decimal.read?
  maxNodes := s.read? "max-nodes" unsigned?
  tol := (s.read? "tol" Decimal.read?).getD (Scalar.decimal 1 6)
  output := s.get? "output"

/-- Read the arguments of the command that solves a file. -/
def solveInvocation (arguments : List String) : Except Stop Invocation := do
  let s ← Scan.all solveOptions 1 arguments {}
  match s.words with
  | [] => .error .usage
  | file :: _ =>
      return {
        command := .solve {
          file
          verify := s.has "verify"
          printSolution := s.has "print-solution"
          search := searchArguments s }
        verbose := s.has "verbose" }

/-- Read the arguments of the command that generates models. -/
def randomInvocation (arguments : List String) : Except Stop Invocation := do
  let s ← Scan.all randomOptions 0 arguments {}
  let usual : GeneratorConfig Float := Generator.standard
  return {
    command := .random {
      count := (s.read? "count" unsigned?).getD 10
      config := {
        kind := (s.read? "kind" (named? instanceKinds)).getD usual.kind
        numVars := (s.read? "vars" unsigned?).getD usual.numVars
        numConstraints := (s.read? "constraints" unsigned?).getD usual.numConstraints
        density := (s.read? "density" Decimal.read?).getD usual.density
        maxValue := (s.read? "max-value" signed?).getD usual.maxValue
        tightness := (s.read? "tightness" Decimal.read?).getD usual.tightness }
      seed := (s.read? "seed" unsigned?).getD 0
      verify := s.has "verify"
      saveFolder := s.get? "save-dir"
      search := searchArguments s }
    verbose := s.has "verbose" }

/-- Read the arguments behind a request for help: at most one command. -/
def helpStop : List String → Stop
  | [] => .help
  | [name] => if ["solve", "random", "help"].contains name then .help else .usage
  | _ => .usage

/-- Read the arguments of a command. -/
def commandInvocation (name : String) (arguments : List String) : Except Stop Invocation :=
  if name == "solve" then solveInvocation arguments
  else if name == "random" then randomInvocation arguments
  else if name == "help" then .error (helpStop arguments)
  else .error .usage

/-- Read options up to the command, and the command. -/
def parseFrom : List String → Scan → Except Stop Invocation
  | [], _ => .error .usage
  | argument :: rest, s =>
      match s.step? topOptions argument with
      | .error stop => .error stop
      | .ok (some next) => parseFrom rest next
      | .ok none =>
          if s.escaped then .error .usage
          else do
            let invocation ← commandInvocation argument rest
            return { invocation with verbose := invocation.verbose || s.has "verbose" }

/-- Read a command line. -/
def parse (arguments : List String) : Except Stop Invocation :=
  parseFrom arguments {}

end BranchBound.CommandLine
