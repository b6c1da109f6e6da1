import BranchBound.Json.Decoding
import BranchBound.Json.Writer
import BranchBound.Json.Reader
import BranchBound.Model

/-!
# Model files as JSON

How models are stored: names of members, which of them may be missing, and the
order in which they are written.
-/

namespace BranchBound

/-- Names of the variable kinds in files. -/
def VarKind.fileNames : List (String × VarKind) :=
  [("binary", .binary), ("integer", .integer), ("continuous", .continuous)]

/-- Name of a variable kind in files. -/
def VarKind.fileName : VarKind → String
  | .binary => "binary"
  | .integer => "integer"
  | .continuous => "continuous"

/-- Names of the senses in files. -/
def Sense.fileNames : List (String × Sense) :=
  [("le", .le), ("ge", .ge), ("eq", .eq)]

/-- Name of a sense in files. -/
def Sense.fileName : Sense → String
  | .le => "le"
  | .ge => "ge"
  | .eq => "eq"

namespace VariableEntry

/-- Members of a variable. -/
def memberNames : List String :=
  ["kind", "lower", "upper", "name"]

/-- Read a variable. -/
def ofJson? (j : Json) : Option (VariableEntry Float) := do
  match ← j.fields? memberNames with
  | [kind, lower, upper, name] =>
      return {
        kind := ← Json.required? (Json.asEnum? VarKind.fileNames) kind
        lower := ← Json.defaulted? (Json.asOption? Json.asFloat?) none lower
        upper := ← Json.defaulted? (Json.asOption? Json.asFloat?) none upper
        name := ← Json.defaulted? (Json.asOption? Json.asString?) none name }
  | _ => none

/-- The members of a variable; missing ones are left out. -/
def members (v : VariableEntry Float) : List (String × Json) :=
  [("kind", Json.ofString v.kind.fileName)] ++
    (v.lower.map fun x => ("lower", Json.ofFloat x)).toList ++
    (v.upper.map fun x => ("upper", Json.ofFloat x)).toList ++
    (v.name.map fun s => ("name", Json.ofString s)).toList

end VariableEntry

namespace Constraint

/-- Read a constraint. -/
def ofJson? (j : Json) : Option (Constraint Float) := do
  match ← j.fields? ["terms", "sense", "rhs"] with
  | [terms, sense, rhs] =>
      return {
        terms := ← Json.required?
          (Json.asList? (Json.asPair? Json.asNat? Json.asFloat?)) terms
        sense := ← Json.required? (Json.asEnum? Sense.fileNames) sense
        rhs := ← Json.required? Json.asFloat? rhs }
  | _ => none

/-- Write a constraint. -/
def toJson (c : Constraint Float) : Json :=
  .record [
    ("terms", .array (c.terms.map fun term => .array [.ofNat term.1, .ofFloat term.2])),
    ("sense", .ofString c.sense.fileName),
    ("rhs", .ofFloat c.rhs)]

end Constraint

namespace ModelFile

/-- Read a model. -/
def ofJson? (j : Json) : Option (ModelFile Float) := do
  match ← j.fields? ["name", "objective", "variables", "constraints"] with
  | [name, objective, vars, constraints] =>
      return {
        name := ← Json.defaulted? Json.asString? "" name
        objective := ← Json.required? (Json.asList? Json.asFloat?) objective
        vars := ← Json.required? (Json.asList? VariableEntry.ofJson?) vars
        constraints := ← Json.defaulted? (Json.asList? Constraint.ofJson?) [] constraints }
  | _ => none

/-- Write a model. -/
def toJson (file : ModelFile Float) : Json :=
  .record [
    ("name", .ofString file.name),
    ("objective", .array (file.objective.map .ofFloat)),
    ("variables", .array (file.vars.map fun v => .record v.members)),
    ("constraints", .array (file.constraints.map Constraint.toJson))]

/-- Read a model from text. -/
def parse? (text : String) : Option (ModelFile Float) := do
  ofJson? (← Json.read? text)

/-- Write a model as text. -/
def render (file : ModelFile Float) : String :=
  file.toJson.render

end ModelFile

end BranchBound
