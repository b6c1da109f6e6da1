import BranchBound.CommandLine.Program

/-!
# The program on a machine

The host of a running program: files on disk, lines on the screen, messages on the
error stream, and a search that reads the clock before and after every node.
-/

namespace BranchBound.CommandLine

/-- The clock. -/
def now : IO Duration := do
  return ⟨← IO.monoNanosNow⟩

/-- Explore a tree, reading the clock at every turn. -/
def exploreTimed (problem : Problem Float) (oracle : Oracle Nat Float) :
    (allowance : Nat) → Tree Float → Nat → IO (Exploration Nat Float)
  | 0, tree, solves => return ⟨.ok .nodeLimit, tree, solves⟩
  | allowance + 1, tree, solves => do
      match tree.nextNode? with
      | none => return ⟨.ok tree.exhaustedStatus, tree, solves⟩
      | some (node, rest) =>
          let processed := Tree.processNode problem oracle (← now) rest solves node
          let turn := processed.toTurn (← now)
          match turn.verdict with
          | .running => exploreTimed problem oracle allowance turn.tree turn.oracle
          | .ended status => return ⟨.ok status, turn.tree, turn.oracle⟩
          | .failed e => return ⟨.error e, turn.tree, turn.oracle⟩

/-- Search a model under the clock. -/
def searchTimed (model : LinearModel Float) (settings : Settings Float) : IO Searched := do
  match model.problem.validate with
  | .error e => return (.error e, [])
  | .ok root =>
      let begun := (Tree.create settings).restart root (← now)
      let explored ← exploreTimed model.problem (model.oracle LinearProgram.solve)
        begun.allowance begun 0
      match explored.outcome with
      | .error e => return (.error e, model.searchMessages false explored.tree explored.oracle)
      | .ok status =>
          let (result, tree) := explored.tree.conclude status (← now)
          return (.ok result, model.searchMessages true tree explored.oracle)

/-- Read a file. -/
def readFile (path : String) : IO ReadOutcome := do
  try
    let bytes ← IO.FS.readBinFile path
    match String.fromUTF8? bytes with
    | some content => return .text content
    | none => return .unreadable
  catch _ => return .missing

/-- Whether an action succeeds. -/
def succeeds (action : IO Unit) : IO Bool := do
  try
    action
    return true
  catch _ => return false

/-- Write a file. -/
def writeFile (path content : String) : IO WriteOutcome := do
  if ← succeeds (do let _ ← IO.FS.Handle.mk path .write) then
    return if ← succeeds (IO.FS.writeFile path content) then .written else .notWritten
  else return .notCreated

/-- The machine as a host. -/
def machine : Host IO where
  readText := readFile
  createFolder path := succeeds (IO.FS.createDirAll path)
  writeText := writeFile
  print line := IO.println line
  tell message := do
    if message.level.shownAt .info then
      IO.eprintln (message.level.label ++ " " ++ message.text)
  search := searchTimed

end BranchBound.CommandLine

/-- Run the benchmark program. -/
def main (arguments : List String) : IO UInt32 := do
  let exit ← BranchBound.CommandLine.run BranchBound.CommandLine.machine arguments
  match exit with
  | .failure message => IO.eprintln ("Error: " ++ message)
  | .usage => IO.eprintln "error: the arguments make no sense; try --help"
  | _ => pure ()
  return UInt32.ofNat exit.code
