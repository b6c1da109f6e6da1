/-!
# Paths

A path is a list of names that lead from a folder to an entry.  The names `.` and
`..` stand for the folder itself and for the one around it.  They are kept as they
are written, since whether they lead anywhere depends on the names before them.
-/

namespace BranchBound.CommandLine

/-- A path as it is written. -/
structure Path where
  /-- Whether it begins at the root. -/
  absolute : Bool
  /-- Its names, none of them empty. -/
  names : List String
  /-- Whether a slash ends it, so that only a folder fits. -/
  slashed : Bool
deriving DecidableEq, Repr

namespace Path

/-- The most bytes a name may have. -/
def maxNameBytes : Nat := 255

/-- The least number of bytes that is too much for a path. -/
def pathLimit : Nat := 4096

/-- Read a path; none if it is too long. -/
def read? (text : String) : Option Path :=
  if text.utf8ByteSize < pathLimit then
    some {
      absolute := text.toList.head? == some '/'
      names := (text.splitOn "/").filter fun name => name != ""
      slashed := text.toList.getLast? == some '/' }
  else none

/-- Whether a name stands for a folder relative to the one it is looked up in. -/
def isRelative (name : String) : Bool :=
  name == "." || name == ".."

/-- The names without those that change nothing: a `.` is kept only at the
beginning. -/
def essentialNames (p : Path) : List String :=
  match p.names with
  | [] => []
  | first :: rest =>
      let others := rest.filter fun name => name != "."
      if first == "." && p.absolute then others else first :: others

end Path

end BranchBound.CommandLine
