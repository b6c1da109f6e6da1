import BranchBound.CommandLine.Path
import BranchBound.CommandLine.Program

/-!
# A disk in memory

A host that keeps its files, its output and its messages as values.  A path is
followed name by name, and every name before the last must be that of a folder.
Time stands still on this host.
-/

namespace BranchBound.CommandLine

/-- Files that are not kept on the disk. -/
inductive Device where
  /-- Nothing to read, and whatever is written is lost. -/
  | null
  /-- Zeros without end to read, and whatever is written is lost. -/
  | zero
  /-- Zeros without end to read, and no room to write. -/
  | full
deriving DecidableEq, Repr

/-- What stands at a place. -/
inductive Entry where
  /-- A folder. -/
  | folder
  /-- A file and its content. -/
  | file (content : String)
  /-- A device. -/
  | device (device : Device)
deriving DecidableEq, Repr

/-- Why a path leads nowhere. -/
inductive PathFault where
  /-- A name is not there. -/
  | missing
  /-- A name before the last is not that of a folder. -/
  | notFolder
  /-- A name is too long. -/
  | tooLong
  /-- What is to be created is there already. -/
  | taken
deriving DecidableEq, Repr

/-- A place on a disk: the names that lead to it from the root. -/
abbrev Place := List String

/-- Where a path leads. -/
inductive Target where
  /-- To a folder that is there. -/
  | folder (place : Place)
  /-- To a name in a folder that is there. -/
  | name (place : Place)
deriving DecidableEq, Repr

/-- A disk, and what was printed and told. -/
structure Disk where
  /-- Entries by place; the root is always there. -/
  entries : List (Place × Entry)
  /-- The folder in which paths begin. -/
  workplace : Place
  /-- Lines printed, last one first. -/
  printed : List String := []
  /-- Messages told, last one first. -/
  told : List Message := []
deriving Repr

namespace Disk

/-- What stands at a place. -/
def entry? (d : Disk) (place : Place) : Option Entry :=
  if place.isEmpty then some .folder else d.entries.lookup place

/-- Put an entry at a place. -/
def put (d : Disk) (place : Place) (entry : Entry) : Disk :=
  { d with entries := (place, entry) :: d.entries.filter fun e => e.1 != place }

/-- Follow names that must all be those of folders. -/
def enter (d : Disk) : List String → Place → Except PathFault Place
  | [], place => .ok place
  | name :: rest, place =>
      if name == "." then d.enter rest place
      else if name == ".." then d.enter rest place.dropLast
      else if Path.maxNameBytes < name.utf8ByteSize then .error .tooLong
      else
        match d.entry? (place ++ [name]) with
        | some .folder => d.enter rest (place ++ [name])
        | some _ => .error .notFolder
        | none => .error .missing

/-- Follow names of which the last one need not be there. -/
def reach (d : Disk) (absolute : Bool) (names : List String) : Except PathFault Target :=
  let start := if absolute then [] else d.workplace
  match names.getLast? with
  | none => .ok (.folder start)
  | some last =>
      if Path.isRelative last then (d.enter names start).map .folder
      else
        match d.enter names.dropLast start with
        | .error fault => .error fault
        | .ok place =>
            if Path.maxNameBytes < last.utf8ByteSize then .error .tooLong
            else .ok (.name (place ++ [last]))

/-- Read a file. -/
def read (d : Disk) (text : String) : ReadOutcome :=
  match Path.read? text with
  | none => .missing
  | some path =>
      match d.reach path.absolute path.names with
      | .error _ => .missing
      | .ok (.folder _) => .unreadable
      | .ok (.name place) =>
          match d.entry? place, path.slashed with
          | none, _ => .missing
          | some .folder, _ => .unreadable
          | some _, true => .missing
          | some (.file content), false => .text content
          | some (.device .null), false => .text ""
          | some (.device _), false => .unreadable

/-- Bytes that are held back before they are written; a device without room
takes notice only of more. -/
def heldBack : Nat := 8192

/-- Write a file into a folder that is there. -/
def write (d : Disk) (text content : String) : WriteOutcome × Disk :=
  match Path.read? text with
  | none => (.notCreated, d)
  | some path =>
      match d.reach path.absolute path.names, path.slashed with
      | .ok (.name place), false =>
          match d.entry? place with
          | some .folder => (.notCreated, d)
          | some (.device .full) =>
              (if heldBack < content.utf8ByteSize then .notWritten else .written, d)
          | some (.device _) => (.written, d)
          | some (.file _) => (.written, d.put place (.file content))
          | none => (.written, d.put place (.file content))
      | _, _ => (.notCreated, d)

/-- Create one folder. -/
def makeFolder (d : Disk) (absolute : Bool) (names : List String) : Except PathFault Disk :=
  match d.reach absolute names with
  | .error fault => .error fault
  | .ok (.folder _) => .error .taken
  | .ok (.name place) =>
      match d.entry? place with
      | some _ => .error .taken
      | none => .ok (d.put place .folder)

/-- Whether names lead to a folder. -/
def isFolder (d : Disk) (absolute : Bool) (names : List String) : Bool :=
  match d.reach absolute names with
  | .error _ => false
  | .ok (.folder _) => true
  | .ok (.name place) => d.entry? place == some .folder

/-- Create a folder unless it is there. -/
def ensureFolder (d : Disk) (absolute : Bool) (names : List String) : Except PathFault Disk :=
  match d.makeFolder absolute names with
  | .ok made => .ok made
  | .error fault => if d.isFolder absolute names then .ok d else .error fault

/-- Create a folder and, if that fails for a missing name, first those it is in.
The names are listed last one first. -/
def ensureFolders (d : Disk) (absolute : Bool) : List String → Except PathFault Disk
  | [] => .ok d
  | last :: outer =>
      let names := (last :: outer).reverse
      match d.ensureFolder absolute names with
      | .error .missing =>
          match d.ensureFolders absolute outer with
          | .error fault => .error fault
          | .ok made => made.ensureFolder absolute names
      | result => result

/-- Create a folder and those it is in.  The folders around it are found by the names
that matter, but the path itself is followed as it is written. -/
def create? (d : Disk) (text : String) : Option Disk :=
  match Path.read? text with
  | none => none
  | some path =>
      let result : Except PathFault Disk :=
        match d.ensureFolder path.absolute path.names with
        | .error .missing =>
            match d.ensureFolders path.absolute path.essentialNames.dropLast.reverse with
            | .error fault => .error fault
            | .ok made => made.ensureFolder path.absolute path.names
        | result => result
      result.toOption

/-- Folders at the root of a machine. -/
def rootFolders : List String :=
  ["bin", "boot", "dev", "etc", "home", "lib", "media", "mnt", "opt", "proc", "root", "run",
    "sbin", "srv", "sys", "tmp", "usr", "var"]

/-- Devices of a machine. -/
def devices : List (String × Device) :=
  [("null", .null), ("stdin", .null), ("stderr", .null), ("zero", .zero), ("full", .full),
    ("random", .zero), ("urandom", .zero)]

/-- A machine with an empty folder to work in. -/
def fresh : Disk where
  entries :=
    (rootFolders.map fun name => ([name], .folder)) ++
      (devices.map fun device => (["dev", device.1], .device device.2)) ++
      [(["tmp", "bench"], .folder)]
  workplace := ["tmp", "bench"]

/-- Put a file into the workplace, with the folders it is in. -/
def withFile (d : Disk) (names : List String) (content : String) : Disk :=
  let folders := (List.range (names.length - 1)).map fun k => d.workplace ++ names.take (k + 1)
  (folders.foldl (fun d place => d.put place .folder) d).put (d.workplace ++ names)
    (.file content)

/-- The files in the workplace and in its folders, by the names that lead there. -/
def localFiles (d : Disk) : List (List String × String) :=
  d.entries.filterMap fun e =>
    match e.2 with
    | .file content =>
        if d.workplace.isPrefixOf e.1 then some (e.1.drop d.workplace.length, content)
        else none
    | _ => none

/-- The disk as a host. -/
def host : Host (StateM Disk) where
  readText path := do return (← get).read path
  createFolder path := do
    match (← get).create? path with
    | some d => set d; return true
    | none => return false
  writeText path content := do
    let (outcome, d) := (← get).write path content
    set d
    return outcome
  print line := modify fun d => { d with printed := line :: d.printed }
  tell message := modify fun d => { d with told := message :: d.told }
  search model settings :=
    return model.solveWith LinearProgram.solve Clock.frozen settings

/-- Run the program in the workplace. -/
def run (d : Disk) (arguments : List String) : Exit × Disk :=
  (CommandLine.run host arguments).run d

end Disk

end BranchBound.CommandLine
