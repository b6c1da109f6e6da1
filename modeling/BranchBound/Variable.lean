import BranchBound.Interval

/-!
# Variables

A decision variable has a kind, declared bounds and perhaps a name.  The search
starts from the *root interval*: the declared one, met with `[0, 1]` for binary
variables.
-/

namespace BranchBound

/-- Kinds of decision variable. -/
inductive VarKind where
  /-- Zero or one. -/
  | binary
  /-- Any integer. -/
  | integer
  /-- Any number; never branched on. -/
  | continuous
deriving DecidableEq, Repr

namespace VarKind

/-- Whether values of this kind are integers. -/
def isIntegral : VarKind → Bool
  | binary => true
  | integer => true
  | continuous => false

/-- The kind's name in messages. -/
def label : VarKind → String
  | binary => "Binary"
  | integer => "Integer"
  | continuous => "Continuous"

end VarKind

/-- A declared decision variable. -/
structure Variable (α : Type) where
  /-- Kind of its values. -/
  kind : VarKind
  /-- Declared bounds. -/
  bounds : Interval α
  /-- Name for output. -/
  name : Option String := none
deriving DecidableEq, Repr

namespace Variable

variable {α : Type} [Scalar α]

/-- A binary variable. -/
def binary : Variable α :=
  { kind := .binary, bounds := .unit }

/-- Bounds the search starts from. -/
def rootInterval (v : Variable α) : Interval α :=
  match v.kind with
  | .binary =>
      ⟨Scalar.maximum v.bounds.lower (Scalar.ofInt 0),
        Scalar.minimum v.bounds.upper (Scalar.ofInt 1)⟩
  | _ => v.bounds

end Variable

/-- Distance from a value to its nearest integer. -/
def fractionality {α : Type} [Scalar α] (value : α) : α :=
  Scalar.abs (value - Scalar.round value)

end BranchBound
