/-!
# Options on a command line

The grammar of words, flags and options: `--name value`, `--name=value`, `-n value`,
`-nvalue`, `-n=value`, flags in one cluster, and `--` before words only.  A value of
its own must not begin with a minus sign, and nothing may be given twice.

Arguments are read one at a time, so that of a mistake and a request for help the
first one counts.
-/

namespace BranchBound.CommandLine

/-- What an option is for. -/
inductive OptionRole where
  /-- It is there or not. -/
  | flag
  /-- It has a value that passes a test. -/
  | value (accepts : String → Bool)
  /-- It asks for help. -/
  | help
  /-- It asks for the version. -/
  | version

/-- An option. -/
structure OptionSpec where
  /-- Name after two minus signs. -/
  long : String
  /-- Letter after one minus sign. -/
  short : Option Char := none
  /-- What it is for. -/
  role : OptionRole

/-- Why reading stops early. -/
inductive Stop where
  /-- The arguments make no sense. -/
  | usage
  /-- Help is wanted. -/
  | help
  /-- The version is wanted. -/
  | version
deriving DecidableEq, Repr

/-- Arguments read so far. -/
structure Scan where
  /-- An option that waits for its value. -/
  pending : Option OptionSpec := none
  /-- Whether only words follow. -/
  escaped : Bool := false
  /-- Options found, with their values. -/
  found : List (String × String) := []
  /-- Words found, last one first. -/
  words : List String := []

namespace Scan

/-- Whether an option was found. -/
def has (s : Scan) (name : String) : Bool :=
  (s.found.lookup name).isSome

/-- Value of an option. -/
def get? (s : Scan) (name : String) : Option String :=
  s.found.lookup name

/-- Note an option. -/
def note (s : Scan) (spec : OptionSpec) (value : String) : Except Stop Scan :=
  if s.has spec.long then .error .usage
  else .ok { s with found := (spec.long, value) :: s.found, pending := none }

/-- Note an option with a value. -/
def noteValue (s : Scan) (spec : OptionSpec) (value : String) : Except Stop Scan :=
  match spec.role with
  | .value accepts => if accepts value then s.note spec value else .error .usage
  | _ => .error .usage

/-- Read a long option, with the value attached to it if there is one. -/
def long (specs : List OptionSpec) (s : Scan) (name : String) (attached : Option String) :
    Except Stop Scan :=
  match specs.find? fun spec => spec.long == name with
  | none => .error .usage
  | some spec =>
      match spec.role, attached with
      | .flag, none => s.note spec ""
      | .help, none => .error .help
      | .version, none => .error .version
      | .value _, none => .ok { s with pending := some spec }
      | .value _, some value => s.noteValue spec value
      | _, some _ => .error .usage

/-- Read a cluster of short options. -/
def cluster (specs : List OptionSpec) : List Char → Scan → Except Stop Scan
  | [], s => .ok s
  | c :: rest, s =>
      match specs.find? fun spec => spec.short == some c with
      | none => .error .usage
      | some spec =>
          match spec.role with
          | .flag => s.note spec "" >>= cluster specs rest
          | .help => .error .help
          | .version => .error .version
          | .value _ =>
              match rest with
              | [] => .ok { s with pending := some spec }
              | '=' :: value => s.noteValue spec (String.ofList value)
              | value => s.noteValue spec (String.ofList value)

/-- Whether an argument begins like an option. -/
def looksLikeOption : List Char → Bool
  | ['-'] => false
  | '-' :: _ => true
  | _ => false

/-- A long option's name and attached value. -/
def splitAttached (cs : List Char) : String × Option String :=
  let name := cs.takeWhile (· != '=')
  match cs.drop name.length with
  | [] => (String.ofList name, none)
  | _ :: value => (String.ofList name, some (String.ofList value))

/-- Read one argument; none if it is a word. -/
def step? (specs : List OptionSpec) (s : Scan) (argument : String) :
    Except Stop (Option Scan) :=
  let cs := argument.toList
  match s.pending with
  | some spec =>
      if looksLikeOption cs then .error .usage
      else (s.noteValue spec argument).map some
  | none =>
      if s.escaped || !looksLikeOption cs then .ok none
      else
        match cs with
        | ['-', '-'] => .ok (some { s with escaped := true })
        | '-' :: '-' :: rest =>
            let (name, attached) := splitAttached rest
            (s.long specs name attached).map some
        | _ :: rest => (cluster specs rest s).map some
        | [] => .ok none

/-- Read arguments of which at most `limit` are words; a word must not be empty. -/
def all (specs : List OptionSpec) (limit : Nat) : List String → Scan → Except Stop Scan
  | [], s => if s.pending.isSome then .error .usage else .ok s
  | argument :: rest, s =>
      match s.step? specs argument with
      | .error stop => .error stop
      | .ok (some next) => all specs limit rest next
      | .ok none =>
          if s.words.length < limit ∧ argument ≠ "" then
            all specs limit rest { s with words := argument :: s.words }
          else .error .usage

end Scan

end BranchBound.CommandLine
