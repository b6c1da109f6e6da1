import BranchBound.Model
import BranchBound.Random.Dice

/-!
# Random models

Packing and covering models with small positive integer coefficients.  Every row
has a term, so that a packing model admits the origin and a covering model the
corner of all upper bounds.
-/

namespace BranchBound

/-- Families of generated models. -/
inductive InstanceKind where
  /-- Maximise profit under `A x ≤ b`, as a minimum of negated profits. -/
  | packing
  /-- Minimise cost under `A x ≥ b`. -/
  | covering
deriving DecidableEq, Repr

/-- Shape of generated models. -/
structure GeneratorConfig (α : Type) where
  /-- Family. -/
  kind : InstanceKind
  /-- Number of variables. -/
  numVars : Nat
  /-- Number of constraints. -/
  numConstraints : Nat
  /-- Probability of a term. -/
  density : α
  /-- Upper bound of every variable; up to one they are binary. -/
  maxValue : Int
  /-- Right-hand side as a fraction of the row's greatest value. -/
  tightness : α
deriving DecidableEq, Repr

/-- Why no model was generated. -/
inductive GeneratorFault (α : Type) where
  /-- The density is no probability. -/
  | notProbability
  /-- There are more variables or constraints than a machine can address. -/
  | tooLarge
  /-- The model is not accepted. -/
  | model (fault : ModelFault α)
deriving DecidableEq, Repr

namespace InstanceKind

/-- Name of the family in model names. -/
def label : InstanceKind → String
  | packing => "packing"
  | covering => "covering"

end InstanceKind

namespace Generator

variable {σ α : Type} [Scalar α]

/-- The usual shape: twelve binary variables in three packing rows. -/
def standard : GeneratorConfig α where
  kind := .packing
  numVars := 12
  numConstraints := 3
  density := Scalar.decimal 6 1
  maxValue := 1
  tightness := Scalar.decimal 5 1

/-- Upper bound of every variable. -/
def upperBound (config : GeneratorConfig α) : α :=
  Scalar.ofInt (max config.maxValue 1)

/-- A number from one to `sides`. -/
def roll (dice : Dice σ α) (sides : Nat) (s : σ) : α × σ :=
  let (n, rest) := dice.small sides s
  (Scalar.ofInt (n + 1 : Nat), rest)

/-- Costs of `count` variables: one to twenty, negated for packing. -/
def drawCosts (dice : Dice σ α) (kind : InstanceKind) : (count : Nat) → σ → List α × σ
  | 0, s => ([], s)
  | count + 1, s =>
      let (cost, s) := roll dice 20 s
      let (costs, s) := drawCosts dice kind count s
      let signed :=
        match kind with
        | .packing => -cost
        | .covering => cost
      (signed :: costs, s)

/-- The terms of a row over some columns; each column has one with probability
`density`, with a coefficient from one to nine.  None if `density` is no
probability. -/
def drawTerms (dice : Dice σ α) (density : α) : (columns : List Nat) → σ →
    Option (List (Nat × α) × σ)
  | [], s => some ([], s)
  | column :: columns, s =>
      match dice.event density s with
      | none => none
      | some (false, s) => drawTerms dice density columns s
      | some (true, s) =>
          let (coefficient, s) := roll dice 9 s
          match drawTerms dice density columns s with
          | none => none
          | some (terms, s) => some ((column, coefficient) :: terms, s)

/-- The terms of a row; a row that would be empty gets one term anywhere. -/
def drawRow (dice : Dice σ α) (config : GeneratorConfig α) (s : σ) :
    Option (List (Nat × α) × σ) :=
  let density := Scalar.clamp config.density (Scalar.ofInt 0) (Scalar.ofInt 1)
  match drawTerms dice density (List.range config.numVars) s with
  | none => none
  | some (terms, s) =>
      if terms.isEmpty && decide (0 < config.numVars) then
        let (column, s) := dice.index config.numVars s
        let (coefficient, s) := roll dice 9 s
        some ([(column, coefficient)], s)
      else some (terms, s)

/-- The constraint of a row's terms: a fraction of its greatest value, rounded so
that integer points decide. -/
def constraintOf (config : GeneratorConfig α) (terms : List (Nat × α)) : Constraint α :=
  let upper := upperBound config
  let greatest := Scalar.sum (terms.map fun term => term.2 * upper)
  let target :=
    Scalar.clamp config.tightness (Scalar.ofInt 0) (Scalar.ofInt 1) * greatest
  match config.kind with
  | .packing => ⟨terms, .le, Scalar.floor target⟩
  | .covering => ⟨terms, .ge, Scalar.ceil target⟩

/-- The constraints of `count` rows. -/
def drawRows (dice : Dice σ α) (config : GeneratorConfig α) : (count : Nat) → σ →
    Option (List (Constraint α))
  | 0, _ => some []
  | count + 1, s =>
      match drawRow dice config s with
      | none => none
      | some (terms, s) => (drawRows dice config count s).map (constraintOf config terms :: ·)

/-- Variable number `column`. -/
def entry (config : GeneratorConfig α) (column : Nat) : VariableEntry α where
  kind := if config.maxValue ≤ 1 then .binary else .integer
  lower := some (Scalar.ofInt 0)
  upper := some (upperBound config)
  name := some s!"x{column}"

/-- Name of a generated model. -/
def modelName (config : GeneratorConfig α) (seed : Nat) : String :=
  s!"{config.kind.label}-{config.numConstraints}x{config.numVars}-{seed}"

/-- Whether a list of `count` entries of `bytes` bytes each fits the addresses of a
64-bit machine. -/
def isAddressable (count bytes : Nat) : Bool :=
  decide (count * bytes < pow2 63)

/-- A model drawn with some dice.  The lists of costs (8 bytes each) and of
constraints (40 bytes each) must be addressable. -/
def generateWith (dice : Dice σ α) (config : GeneratorConfig α) (seed : Nat) (s : σ) :
    Except (GeneratorFault α) (LinearModel α) :=
  if !isAddressable config.numVars 8 || !isAddressable config.numConstraints 40 then
    .error .tooLarge
  else
    let (objective, s) := drawCosts dice config.kind config.numVars s
    match drawRows dice config config.numConstraints s with
    | none => .error .notProbability
    | some constraints =>
        let file : ModelFile α :=
          { name := modelName config seed
            objective
            vars := (List.range config.numVars).map (entry config)
            constraints }
        (LinearModel.ofFile file).mapError .model

/-- The model of a seed. -/
def generate (config : GeneratorConfig α) (seed : Nat) :
    Except (GeneratorFault α) (LinearModel α) :=
  generateWith WordStream.dice config seed (WordStream.ofSeed seed)

end Generator

end BranchBound
