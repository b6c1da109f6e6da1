import BranchBound.Benchmark.Report
import BranchBound.CommandLine.Arguments
import BranchBound.Model.Codec

/-!
# The benchmark program

What the commands do, in terms of a host that gives access to files, to the
screen and to the search.  The host is any monad, so that the same program runs
on a machine and on a folder held in memory.
-/

namespace BranchBound.CommandLine

/-- What became of an attempt to read a file. -/
inductive ReadOutcome where
  /-- There is no such file. -/
  | missing
  /-- It holds no text. -/
  | unreadable
  /-- Its text. -/
  | text (content : String)
deriving DecidableEq, Repr

/-- What became of an attempt to write a file. -/
inductive WriteOutcome where
  /-- The file holds the text. -/
  | written
  /-- The file could not be created. -/
  | notCreated
  /-- There was no room for the text. -/
  | notWritten
deriving DecidableEq, Repr

/-- What to say about an attempt to write a file, if it failed. -/
def WriteOutcome.complaint? (file : String) : WriteOutcome → Option String
  | written => none
  | notCreated => some s!"Failed to create file {file}"
  | notWritten => some s!"Failed to write JSON to {file}"

/-- A search of a model and what it told. -/
abbrev Searched := Except (SearchError Float) (Result Float) × List Message

/-- What the program needs from its surroundings. -/
structure Host (m : Type → Type) where
  /-- Read a file. -/
  readText : String → m ReadOutcome
  /-- Create a folder and those it is in; false on failure. -/
  createFolder : String → m Bool
  /-- Write a file. -/
  writeText : String → String → m WriteOutcome
  /-- Print a line. -/
  print : String → m Unit
  /-- Tell a message. -/
  tell : Message → m Unit
  /-- Search a model. -/
  search : LinearModel Float → Settings Float → m Searched

/-- How the program ends. -/
inductive Exit where
  /-- All is well. -/
  | success
  /-- Something failed. -/
  | failure (message : String)
  /-- The arguments make no sense. -/
  | usage
  /-- An operation had no result. -/
  | abort
deriving DecidableEq, Repr

/-- The exit code. -/
def Exit.code : Exit → Nat
  | success => 0
  | failure _ => 1
  | usage => 2
  | abort => 101

/-- Name and version of the program. -/
def versionText : String := "bnb-bench 0.1.0"

/-- Help on the program. -/
def helpLines : List String :=
  ["Branch-and-bound benchmark harness",
    "",
    "Usage: bnb-bench [OPTIONS] <COMMAND>",
    "",
    "Commands:",
    "  solve   Solve a model stored as JSON",
    "  random  Generate and solve seeded random instances",
    "  help    Print this message or the help of the given subcommand(s)",
    "",
    "Options:",
    "  -v, --verbose  Log search progress and new incumbents",
    "  -h, --help     Print help",
    "  -V, --version  Print version"]

variable {m : Type → Type} [Monad m]

namespace Host

/-- Print some lines. -/
def printAll (host : Host m) : List String → m Unit
  | [] => pure ()
  | line :: rest => do
      host.print line
      printAll host rest

/-- Tell some messages. -/
def tellAll (host : Host m) : List Message → m Unit
  | [] => pure ()
  | message :: rest => do
      host.tell message
      tellAll host rest

end Host

/-- Print the report of some records and save it if that is wanted. -/
def writeReport (host : Host m) (search : SearchArguments Float)
    (records : List (Record Float)) : m Exit :=
  match Report.ofRecords? search.nodeSelection.label search.branching.label records with
  | none => pure .abort
  | some report => do
      host.printAll (Report.tableLines report.records)
      host.printAll (Report.summaryLines report.summary)
      match search.output with
      | none => pure .success
      | some file =>
          match (← host.writeText file report.render).complaint? file with
          | some complaint => pure (.failure complaint)
          | none =>
              host.tell ⟨.info, s!"Report written to {file}"⟩
              pure .success

/-- One line for each variable of a point. -/
def solutionLines (model : LinearModel Float) (x : List Float) : List String :=
  (List.zip model.vars x).zipIdx.map fun entry =>
    let label := entry.1.1.name.getD s!"x{entry.2}"
    "  " ++ Report.padRight 12 label ++ " " ++ Printable.plain entry.1.2

/-- Load a model file. -/
def loadModel (host : Host m) (file : String) : m (Except String (LinearModel Float)) := do
  match ← host.readText file with
  | .missing => return .error s!"Failed to open file {file}"
  | .unreadable => return .error s!"Failed to parse JSON from {file}"
  | .text content =>
      match ModelFile.parse? content with
      | none => return .error s!"Failed to parse JSON from {file}"
      | some layout => return (LinearModel.ofFile layout).mapError ModelFault.headline

/-- Solve a model file. -/
def runSolve (host : Host m) (a : SolveArguments) (verbose : Bool) : m Exit := do
  match ← loadModel host a.file with
  | .error message => return .failure message
  | .ok model =>
      host.tell ⟨.info, s!"Loaded {model.name} ({model.numVars} vars, " ++
        s!"{model.numConstraints} constraints, {model.numTerms} nonzeros)"⟩
      let settings := a.search.settings verbose
      let (answer, told) ← host.search model settings
      host.tellAll told
      match answer with
      | .error (.range _) => return .abort
      | .error e => return .failure e.message
      | .ok result =>
          host.print result.summary
          if a.printSolution then
            host.printAll ((result.bestAssignment.map (solutionLines model)).getD [])
          let (record, noted) := Record.ofVerified model result settings a.verify
          host.tellAll noted
          writeReport host a.search [record]

/-- A file in a folder. -/
def inFolder (folder file : String) : String :=
  if folder.toList.getLast? == some '/' then folder ++ file else folder ++ "/" ++ file

/-- Save a model in a folder, if one is given. -/
def saveModel (host : Host m) (folder : Option String) (model : LinearModel Float) :
    m (Option Exit) := do
  match folder with
  | none => return none
  | some folder =>
      let file := inFolder folder (model.name ++ ".json")
      return ((← host.writeText file model.toFile.render).complaint? file).map .failure

/-- Seed of model number `index`; seeds wrap around at 64 bits. -/
def instanceSeed (first index : Nat) : Nat :=
  (first + index) % pow2 64

/-- Generate and solve the last `remaining` models; the records so far are listed
last one first. -/
def runInstances (host : Host m) (a : RandomArguments) (settings : Settings Float) :
    (remaining : Nat) → List (Record Float) → m Exit
  | 0, records => writeReport host a.search records.reverse
  | remaining + 1, records => do
      let index := a.count - (remaining + 1)
      match Generator.generate a.config (instanceSeed a.seed index) with
      | .error .notProbability => return .abort
      | .error .tooLarge => return .abort
      | .error (.model fault) => return .failure fault.headline
      | .ok model =>
          match ← saveModel host a.saveFolder model with
          | some exit => return exit
          | none =>
              let (answer, told) ← host.search model settings
              host.tellAll told
              match answer with
              | .error (.range _) => return .abort
              | _ =>
                  let (record, noted) := Record.ofOutcome model settings a.verify answer
                  host.tellAll noted
                  host.tell ⟨.info, s!"[{index + 1}/{a.count}] {record.name} " ++
                    s!"{record.status} nodes={record.nodesExplored} " ++
                    s!"gap={record.gapPercent}%"⟩
                  runInstances host a settings remaining (record :: records)

/-- Size of a record in bytes; room for all records of a run is set aside before the
first one. -/
def recordBytes : Nat := 208

/-- Generate and solve all models, if their records are addressable. -/
def runAll (host : Host m) (a : RandomArguments) (verbose : Bool) : m Exit :=
  if Generator.isAddressable a.count recordBytes then
    runInstances host a (a.search.settings verbose) a.count []
  else pure .abort

/-- Generate and solve models. -/
def runRandom (host : Host m) (a : RandomArguments) (verbose : Bool) : m Exit := do
  match a.saveFolder with
  | none => runAll host a verbose
  | some folder =>
      if ← host.createFolder folder then runAll host a verbose
      else return .failure s!"Failed to create {folder}"

/-- Run the program on its arguments. -/
def run (host : Host m) (arguments : List String) : m Exit := do
  match parse arguments with
  | .error .usage => return .usage
  | .error .help =>
      host.printAll helpLines
      return .success
  | .error .version =>
      host.print versionText
      return .success
  | .ok invocation =>
      match invocation.command with
      | .solve a => runSolve host a invocation.verbose
      | .random a => runRandom host a invocation.verbose

end BranchBound.CommandLine
